import GroupedVariants.Proofs.Yaml.Character
import GroupedVariants.Yaml.Layout

/-!
# 行を並べて書いた値は、元の文字列に読み戻せる

値は改行で終わるとみて行に分ける。末尾の改行の扱いは、最後の行の先にいくつ改行が残るかで決まる。
-/

namespace GroupedVariants.Yaml.Literal

open SingleQuoted (indentation)

/-! ## 行への分け方 -/

def Breaks (s : List Char) : Prop := ∀ c ∈ s, isBreak c = true

def Line (s : List Char) : Prop := s ≠ [] ∧ ∀ c ∈ s, isBreak c = false

/-- 行から始まり、改行で終わる綴り。 -/
inductive Lines : List Char → Prop
  | last {line bs : List Char} {b : Char} :
      Line line → isBreak b = true → Breaks bs → Lines (line ++ b :: bs)
  | cons {line bs s : List Char} {b : Char} :
      Line line → isBreak b = true → Breaks bs → Lines s → Lines (line ++ b :: (bs ++ s))

variable {b c : Char} {s r acc bs line : List Char} {p : Position}
  {indent widest column floor fuel n : Nat} {t : Tail}

theorem Breaks.tail (h : Breaks (c :: s)) : Breaks s := fun x hx => h x (List.mem_cons_of_mem c hx)

theorem Line.singleton (hc : isBreak c = false) : Line [c] := by
  simp [Line, hc]

theorem Line.prepend (h : Line line) (hc : isBreak c = false) : Line (c :: line) :=
  ⟨List.cons_ne_nil c line, List.forall_mem_cons.mpr ⟨hc, h.2⟩⟩

theorem Lines.prepend (h : Lines s) (hc : isBreak c = false) : Lines (c :: s) := by
  cases h with
  | last hline hb hbs => exact .last (hline.prepend hc) hb hbs
  | cons hline hb hbs hs => exact .cons (hline.prepend hc) hb hbs hs

theorem Lines.exists_cons (h : Lines s) : ∃ c s', s = c :: s' ∧ isBreak c = false := by
  cases h with
  | last hline _ _ | cons hline _ _ _ =>
      obtain ⟨c, line, rfl⟩ := List.exists_cons_of_ne_nil hline.1
      exact ⟨c, _, rfl, hline.2 c List.mem_cons_self⟩

/-- 改行で終わる綴りは、初めの空の行を除けば行から始まる。 -/
theorem exists_lines (h : endsWithBreak s = true) :
    ∃ bs s', s = bs ++ s' ∧ Breaks bs ∧ (s' = [] ∨ Lines s') := by
  induction s with
  | nil => cases h
  | cons c s ih =>
      cases s with
      | nil =>
          have hc : isBreak c = true := by simpa [endsWithBreak] using h
          exact ⟨[c], [], rfl, by simpa [Breaks] using hc, .inl rfl⟩
      | cons d s =>
          obtain ⟨bs, s', heq, hbs, hs'⟩ := ih (by simpa [endsWithBreak] using h)
          rw [heq]
          cases hc : isBreak c with
          | true => exact ⟨c :: bs, s', rfl, List.forall_mem_cons.mpr ⟨hc, hbs⟩, hs'⟩
          | false =>
              refine ⟨[], c :: (bs ++ s'), rfl, by simp [Breaks], .inr ?_⟩
              match bs, hbs, hs' with
              | b :: bs, hbs, .inl hnil =>
                  rw [hnil, List.append_nil]
                  exact .last (.singleton hc) (hbs b List.mem_cons_self) hbs.tail
              | b :: bs, hbs, .inr hlines =>
                  exact .cons (.singleton hc) (hbs b List.mem_cons_self) hbs.tail hlines
              | [], _, .inr hlines => exact hlines.prepend hc
              | [], _, .inl hnil => simp [hnil] at heq

/-! ## 書かれた行 -/

theorem writeLines_breaks (indent : Nat) (hbs : Breaks bs) (s : List Char) :
    writeLines indent true (bs ++ s) = bs ++ writeLines indent true s := by
  induction bs with
  | nil => rfl
  | cons b bs ih =>
      rw [List.cons_append, writeLines, if_pos (hbs b List.mem_cons_self), ih hbs.tail]
      rfl

theorem writeLines_line (hline : ∀ c ∈ line, isBreak c = false) (hb : isBreak b = true)
    (s : List Char) :
    writeLines indent false (line ++ b :: s) = line ++ b :: writeLines indent true s := by
  induction line with
  | nil => rw [List.nil_append, writeLines, if_pos hb, List.nil_append]
  | cons c line ih =>
      rw [List.cons_append, writeLines, if_neg (by simp [hline c List.mem_cons_self]),
        ih fun x hx => hline x (List.mem_cons_of_mem c hx)]
      rfl

theorem Lines.writeLines_eq (h : Lines s) :
    writeLines indent true s = indentation indent ++ writeLines indent false s := by
  obtain ⟨c, s', rfl, hc⟩ := h.exists_cons
  simp [writeLines, hc]

theorem writeLines_snoc (hb : isBreak b = true) (atStart : Bool) (s : List Char) :
    writeLines indent atStart (s ++ [b]) = writeLines indent atStart s ++ [b] := by
  induction s generalizing atStart with
  | nil => simp [writeLines, hb]
  | cons c s ih =>
      rw [List.cons_append, writeLines, writeLines]
      split
      · rw [ih, List.cons_append]
      · rw [ih, List.append_assoc, List.cons_append]

theorem getLast?_writeLines (atStart : Bool) (s : List Char) :
    (writeLines indent atStart s).getLast? = s.getLast? := by
  induction s generalizing atStart with
  | nil => rfl
  | cons c s ih =>
      have hcons (b : Bool) : (c :: writeLines indent b s).getLast? = (c :: s).getLast? := by
        rw [List.getLast?_cons, List.getLast?_cons, ih]
      rw [writeLines]
      split
      · exact hcons true
      · rw [List.getLast?_append, hcons, List.getLast?_cons]
        rfl

theorem length_le_length_writeLines (indent : Nat) (atStart : Bool) (s : List Char) :
    s.length ≤ (writeLines indent atStart s).length := by
  induction s generalizing atStart with
  | nil => exact Nat.le_refl 0
  | cons c s ih =>
      rw [writeLines]
      split
      · exact Nat.succ_le_succ (ih true)
      · have := ih false
        simp only [List.length_append, List.length_cons]
        omega

/-! ## 空の行と字下げ -/

theorem readBlanks_breaks (hbs : Breaks bs) (l : Nat) (r : List Char) :
    readBlanks indent widest acc ⟨l, 0⟩ (bs ++ r) =
      readBlanks indent widest (acc ++ bs) ⟨l + bs.length, 0⟩ r := by
  induction bs generalizing acc l with
  | nil => simp
  | cons b bs ih =>
      have hb := hbs b List.mem_cons_self
      have hspace : b ≠ ' ' := ne_of_isBreak hb (by decide)
      have htab : b ≠ '\t' := ne_of_isBreak hb (by decide)
      have hread : readBlanks indent widest acc ⟨l, 0⟩ (b :: (bs ++ r)) =
          readBlanks indent widest (acc ++ [b]) ⟨l + 1, 0⟩ (bs ++ r) := by
        simp [readBlanks, hspace, htab, hb, Position.nextLine]
      rw [List.cons_append, hread, ih hbs.tail, List.append_assoc, List.length_cons, Nat.add_assoc,
        Nat.add_comm 1]
      rfl

theorem readBlanks_indentation (h : indent = 0 ∨ p.column + n ≤ indent) (r : List Char) :
    readBlanks indent widest acc p (indentation n ++ r) =
      readBlanks indent widest acc (p.skip n) r := by
  induction n generalizing p with
  | zero => rfl
  | succ n ih =>
      have hshallow : indent = 0 ∨ p.column < indent := by omega
      have hread : readBlanks indent widest acc p (' ' :: (indentation n ++ r)) =
          readBlanks indent widest acc p.next (indentation n ++ r) := by
        simp [readBlanks, hshallow]
      rw [indentation, List.replicate_succ, List.cons_append, ← p.skip_next]
      exact hread.trans (ih (by simp only [Position.next]; omega))

theorem readBlanks_stop (h : ∀ c ∈ s.head?, isBreak c = false ∧
    (isInlineBlank c = true → indent ≠ 0 ∧ indent ≤ p.column)) :
    readBlanks indent widest acc p s = .ok ⟨acc, max widest p.column, s, p⟩ := by
  cases s with
  | nil => rfl
  | cons c s =>
      obtain ⟨hbreak, hblank⟩ := h c rfl
      have hspace : ¬ ((indent = 0 ∨ p.column < indent) ∧ c = ' ') := by
        rintro ⟨hshallow, rfl⟩
        have := hblank rfl
        omega
      have htab : ¬ ((indent = 0 ∨ p.column < indent) ∧ c = '\t') := by
        rintro ⟨hshallow, rfl⟩
        have := hblank rfl
        omega
      simp [readBlanks, hspace, htab, hbreak]

theorem readBlanks_end (hbs : Breaks bs) (hr : WordStart r) (hcolumn : column < indent)
    (acc : List Char) (l : Nat) :
    ∃ w l', readBlanks indent 0 acc ⟨l, 0⟩ (bs ++ (indentation column ++ r)) =
      .ok ⟨acc ++ bs, w, r, ⟨l', column⟩⟩ := by
  have hposition : (⟨l + bs.length, 0⟩ : Position).skip column = ⟨l + bs.length, column⟩ := by
    simp [Position.skip]
  rw [readBlanks_breaks hbs, readBlanks_indentation (.inr (by simp only; omega)), hposition,
    readBlanks_stop fun c hc => ⟨(hr c hc).2.1, fun h => by simp [(hr c hc).1] at h⟩]
  exact ⟨_, _, rfl⟩

theorem readBlanks_lines (hbs : Breaks bs) (hs : Lines s) (hindent : 0 < indent)
    (acc : List Char) (l : Nat) (r : List Char) :
    ∃ w l', readBlanks indent 0 acc ⟨l, 0⟩ (bs ++ (writeLines indent true s ++ r)) =
      .ok ⟨acc ++ bs, w, writeLines indent false s ++ r, ⟨l', indent⟩⟩ := by
  have hposition : (⟨l + bs.length, 0⟩ : Position).skip indent = ⟨l + bs.length, indent⟩ := by
    simp [Position.skip]
  rw [readBlanks_breaks hbs, hs.writeLines_eq, List.append_assoc,
    readBlanks_indentation (.inr (by simp only; omega)), hposition]
  obtain ⟨c, s', rfl, hc⟩ := hs.exists_cons
  rw [readBlanks_stop fun x hx => ?_]
  · exact ⟨_, _, rfl⟩
  · obtain rfl : x = c := by simpa [writeLines, hc, eq_comm] using hx
    exact ⟨hc, fun _ => ⟨by omega, Nat.le_refl _⟩⟩

/-- 幅を明記しなくても、間隔で始まらない行の字下げは分かる。 -/
theorem readBlanks_unhinted (indent : Nat) (hs : Lines s)
    (hblank : ∀ c ∈ s.head?, isInlineBlank c = false)
    (l : Nat) (r : List Char) :
    readBlanks 0 0 [] ⟨l, 0⟩ (writeLines indent true s ++ r) =
      .ok ⟨[], indent, writeLines indent false s ++ r, ⟨l, indent⟩⟩ := by
  have hposition : (⟨l, 0⟩ : Position).skip indent = ⟨l, indent⟩ := by simp [Position.skip]
  rw [hs.writeLines_eq, List.append_assoc, readBlanks_indentation (.inl rfl), hposition]
  obtain ⟨c, s', rfl, hc⟩ := hs.exists_cons
  rw [readBlanks_stop fun x hx => ?_, Nat.zero_max]
  obtain rfl : x = c := by simpa [writeLines, hc, eq_comm] using hx
  exact ⟨hc, fun h => by simp [hblank x rfl] at h⟩

/-! ## 行の読み取り -/

theorem readLines_end (h : column ≠ indent) (l : Nat) :
    readLines fuel false indent t ⟨l, column⟩ r = .ok (⟨[], r, ⟨l, column⟩⟩, t) := by
  cases fuel <;> cases r <;> simp [readLines, h]

theorem readLines_line {x : Blanks} (fuel : Nat) (hline : Line line) (hb : isBreak b = true)
    {l : Nat}
    (hblanks : readBlanks indent 0 [] ⟨l + 1, 0⟩ r = .ok x) :
    ∃ blank, readLines (fuel + 1) false indent t ⟨l, indent⟩ (line ++ b :: r) =
      (readLines fuel false indent ⟨[b], x.breaks, blank⟩ x.position x.rest).map
        fun y => (y.1.precededBy (t.lead ++ t.breaks ++ line), y.2) := by
  have hinside : ∀ c ∈ line, (!isBreak c) = true := fun c hc => by simp [hline.2 c hc]
  have htake : (line ++ b :: r).takeWhile (!isBreak ·) = line := by
    rw [List.takeWhile_append_of_pos hinside]
    simp [hb]
  have hdrop : (line ++ b :: r).dropWhile (!isBreak ·) = b :: r := by
    rw [List.dropWhile_append_of_pos hinside]
    simp [hb]
  obtain ⟨c, line, rfl⟩ := List.exists_cons_of_ne_nil hline.1
  refine ⟨isInlineBlank c, ?_⟩
  rw [List.cons_append] at htake hdrop ⊢
  rw [readLines, if_neg (by simp), htake, hdrop]
  simp only [Position.nextLine, hblanks]
  rfl

/-- 改行で終わらない、空でない綴り。 -/
def Solid (s : List Char) : Prop := ∃ init c, s = init ++ [c] ∧ isBreak c = false

theorem Line.solid (h : Line line) : Solid line :=
  ⟨line.dropLast, line.getLast h.1, (List.dropLast_concat_getLast h.1).symm,
    h.2 _ (List.getLast_mem h.1)⟩

theorem Solid.append (h : Solid s) (before : List Char) : Solid (before ++ s) := by
  obtain ⟨init, c, rfl, hc⟩ := h
  exact ⟨before ++ init, c, by simp, hc⟩

/-- 最後の行の先に残るのは、その行の改行 `b` と、続く空の行の改行 `bs` である。 -/
structure Parted (s body : List Char) (b : Char) (bs : List Char) : Prop where
  eq : s = body ++ b :: bs
  body : Solid body
  stop : isBreak b = true
  breaks : Breaks bs

theorem readLines_writeLines (hs : Lines s) (hr : WordStart r) (hcolumn : column < indent)
    (hfuel : s.length ≤ fuel) (l : Nat) :
    ∃ body b bs blank l', Parted s body b bs ∧
      readLines fuel false indent t ⟨l, indent⟩
          (writeLines indent false s ++ (indentation column ++ r)) =
        .ok (⟨t.lead ++ t.breaks ++ body, r, ⟨l', column⟩⟩, ⟨[b], bs, blank⟩) := by
  induction hs generalizing fuel t l with
  | @last line bs b hline hb hbs =>
      rw [List.length_append, List.length_cons] at hfuel
      obtain ⟨fuel, rfl⟩ := Nat.exists_eq_succ_of_ne_zero (by omega : fuel ≠ 0)
      have hbreaks : writeLines indent true bs = bs := by
        simpa [writeLines] using writeLines_breaks indent hbs []
      obtain ⟨w, l', hblanks⟩ := readBlanks_end hbs hr hcolumn [] (l + 1)
      obtain ⟨blank, hread⟩ := readLines_line (t := t) fuel hline hb hblanks
      refine ⟨line, b, bs, blank, l', ⟨rfl, hline.solid, hb, hbs⟩, ?_⟩
      rw [writeLines_line hline.2 hb, hbreaks, List.append_assoc, List.cons_append, hread,
        readLines_end (Nat.ne_of_lt hcolumn)]
      simp [Except.map, Scanned.precededBy]
  | @cons line bs s b hline hb hbs hs ih =>
      rw [List.length_append, List.length_cons, List.length_append] at hfuel
      obtain ⟨fuel, rfl⟩ := Nat.exists_eq_succ_of_ne_zero (by omega : fuel ≠ 0)
      obtain ⟨w, l₁, hblanks⟩ := readBlanks_lines hbs hs (Nat.zero_lt_of_lt hcolumn) []
        (l + 1) (indentation column ++ r)
      obtain ⟨blank, hread⟩ := readLines_line (t := t) fuel hline hb hblanks
      obtain ⟨body, b', bs', blank', l', hparted, hrest⟩ :=
        @ih fuel ⟨[b], bs, blank⟩ (by omega) l₁
      have hsolid : Solid (line ++ b :: (bs ++ body)) := by
        simpa using hparted.body.append (line ++ b :: bs)
      refine ⟨line ++ b :: (bs ++ body), b', bs', blank', l',
        ⟨?_, hsolid, hparted.stop, hparted.breaks⟩, ?_⟩
      · rw [hparted.eq]
        simp
      · rw [writeLines_line hline.2 hb, writeLines_breaks _ hbs, List.append_assoc,
          List.cons_append, List.append_assoc, hread, List.nil_append, hrest]
        simp [Except.map, Scanned.precededBy]

/-! ## 末尾の改行 -/

open Layout (endLine)

theorem endsWithBreak_append (h : Breaks (b :: bs)) (s : List Char) :
    endsWithBreak (s ++ b :: bs) = true := by
  have hlast : (s ++ b :: bs).getLast? = some ((b :: bs).getLast (List.cons_ne_nil b bs)) := by
    rw [List.getLast?_append, List.getLast?_eq_some_getLast (List.cons_ne_nil b bs)]
    rfl
  rw [endsWithBreak, hlast]
  exact h _ (List.getLast_mem _)

theorem Solid.endsWithBreak (h : Solid s) : endsWithBreak s = false := by
  obtain ⟨init, c, rfl, hc⟩ := h
  simp [Literal.endsWithBreak, hc]

theorem endsWithBreak_endLine (s : List Char) : endsWithBreak (endLine s) = true := by
  rw [endLine]
  split
  · assumption
  · simp [endsWithBreak, isBreak]

theorem endsWithBreak_of_breaks (h : Breaks s) (hs : s ≠ []) : endsWithBreak s = true := by
  obtain ⟨b, bs, rfl⟩ := List.exists_cons_of_ne_nil hs
  exact endsWithBreak_append h []

theorem endLine_of_breaks (hs : s ≠ []) (h : Breaks (endLine s)) :
    endLine s = s ∧ chompOf s = .keep := by
  have hbreaks : Breaks s := by
    rw [endLine] at h
    split at h
    · exact h
    · exact fun c hc => h c (List.mem_append_left _ hc)
  have hend := endsWithBreak_of_breaks hbreaks hs
  refine ⟨by rw [endLine, if_pos hend], ?_⟩
  rw [chompOf, if_neg (by simp [hend]), if_pos]
  obtain ⟨b, bs, rfl⟩ := List.exists_cons_of_ne_nil hs
  cases bs with
  | nil => rfl
  | cons b' bs =>
      have hlast : Breaks (b :: b' :: bs).dropLast := fun c hc =>
        hbreaks c ((List.dropLast_subset _) hc)
      rw [endsWithBreak_of_breaks hlast (by simp), Bool.or_true]

/-- 初めの行の改行の後に残る改行を扱いどおりに足すと、元の綴りに戻る。 -/
theorem Parted.append_chomped {body : List Char} {blank : Bool} (h : Parted (endLine s) body b bs) :
    body ++ chomped (chompOf s) ⟨[b], bs, blank⟩ = s := by
  have hmany {init : List Char} {x : Char} (hbs : bs = init ++ [x]) :
      endsWithBreak (body ++ b :: init) = true :=
    endsWithBreak_append (List.forall_mem_cons.mpr
      ⟨h.stop, fun c hc => h.breaks c (hbs ▸ List.mem_append_left _ hc)⟩) body
  have heq := h.eq
  cases hend : endsWithBreak s with
  | false =>
      rw [endLine, if_neg (by simp [hend])] at heq
      rcases List.eq_nil_or_concat bs with rfl | ⟨init, x, hbs⟩
      · obtain ⟨rfl, -⟩ := List.append_inj' heq rfl
        simp [chompOf, hend, chomped]
      · -- 改行が残るなら、綴りは改行で終わっている。
        rw [List.concat_eq_append] at hbs
        rw [hbs, ← List.cons_append, ← List.append_assoc] at heq
        rw [(List.append_inj' heq rfl).1, hmany hbs] at hend
        cases hend
  | true =>
      rw [endLine, if_pos hend] at heq
      rw [chompOf, if_neg (by simp [hend])]
      split
      · rw [heq]
        rfl
      · rename_i hclip
        rcases List.eq_nil_or_concat bs with rfl | ⟨init, x, hbs⟩
        · exact heq.symm
        · rw [List.concat_eq_append] at hbs
          have hdrop : s.dropLast = body ++ b :: init := by
            rw [heq, hbs, ← List.cons_append, ← List.append_assoc, List.dropLast_concat]
          rw [hdrop, hmany hbs, Bool.or_true] at hclip
          exact absurd rfl hclip

/-! ## 見出し -/

theorem indentHint_cases (s : List Char) :
    (indentHint s = [] ∧ ∀ c ∈ s.head?, c ≠ ' ' ∧ isBreak c = false) ∨ indentHint s = ['2'] := by
  cases s with
  | nil => exact .inl ⟨rfl, nofun⟩
  | cons c s =>
      rw [indentHint]
      split
      · exact .inr rfl
      · rename_i hc
        exact .inl ⟨rfl, by simpa using hc⟩

theorem readHeader_unhinted (k : Chomp) (r : List Char) :
    readHeader (k.hint ++ '\n' :: r) = .ok (⟨k, 0⟩, '\n' :: r) := by
  cases k <;> rfl

theorem readHeader_hinted (k : Chomp) (r : List Char) :
    readHeader ('2' :: (k.hint ++ '\n' :: r)) = .ok (⟨k, 2⟩, '\n' :: r) := by
  cases k <;> rfl

theorem finishHeader_newline (p : Position) (r : List Char) :
    finishHeader p ('\n' :: r) = .ok (r, p.nextLine) := rfl

/-! ## 値全体 -/

theorem getLast?_append_ne_nil {s : List Char} (hs : s ≠ []) (before : List Char) :
    (before ++ s).getLast? = s.getLast? := by
  rw [List.getLast?_append, List.getLast?_eq_some_getLast hs]
  rfl

theorem write_eq (indent : Nat) (hs : s ≠ []) :
    endLine (write indent s) = '|' :: (indentHint s ++ ((chompOf s).hint ++
      '\n' :: writeLines indent true (endLine s))) := by
  have hwritten : writeLines indent true s ≠ [] := by
    have := length_le_length_writeLines indent true s
    exact List.ne_nil_of_length_pos (Nat.lt_of_lt_of_le (List.length_pos_iff.mpr hs) this)
  have hsplit : write indent s =
      ('|' :: indentHint s ++ (chompOf s).hint ++ ['\n']) ++ writeLines indent true s := by
    simp [write]
  have hlast : endsWithBreak (write indent s) = endsWithBreak s := by
    rw [endsWithBreak, hsplit, getLast?_append_ne_nil hwritten, getLast?_writeLines, endsWithBreak]
  rw [endLine, hlast, endLine]
  split
  · simp [write]
  · simp [write, writeLines_snoc (b := '\n') rfl]

/-- 読み終えた行に、末尾の改行を扱いどおりに足す。 -/
def complete (k : Chomp) (y : Scanned × Tail) : Scanned :=
  { y.1 with text := y.1.text ++ chomped k y.2 }

theorem read_hinted {k : Chomp} {x : Blanks} (hfloor : 0 < floor)
    (hblanks : readBlanks (floor + 1) 0 [] p.nextLine r = .ok x) :
    read false floor p ('2' :: (k.hint ++ '\n' :: r)) =
      (readLines (r.length + 1) false (floor + 1) ⟨[], x.breaks, false⟩ x.position x.rest).map
        (complete k) := by
  have hgiven : (if (2 == 0) = true then 0 else floor - 1 + 2) = floor + 1 := by
    rw [if_neg (by decide)]
    omega
  have hzero : ¬ (floor + 1 == 0) = true := by simp
  rw [read, readHeader_hinted]
  simp only [finishHeader_newline, hgiven, if_neg hzero, hblanks, bind, Except.bind]
  rfl

theorem read_unhinted {k : Chomp} {x : Blanks} (hwidest : x.widest = floor + 1)
    (hblanks : readBlanks 0 0 [] p.nextLine r = .ok x) :
    read false floor p (k.hint ++ '\n' :: r) =
      (readLines (r.length + 1) false (floor + 1) ⟨[], x.breaks, false⟩ x.position x.rest).map
        (complete k) := by
  have hindent : max (max x.widest floor) 1 = floor + 1 := by omega
  rw [read, readHeader_unhinted]
  simp only [finishHeader_newline, hblanks, hindent, beq_self_eq_true, if_true, bind, Except.bind]
  rfl

/-- 明記の有無によらず、初めの空の行を除いたところから行を読み始める。 -/
theorem exists_read_lines (hs : s ≠ []) (hprintable : Printable s) (hfloor : 0 < floor)
    {first : List Char} (hbs : Breaks bs) (hfirst : Lines first) (heq : endLine s = bs ++ first)
    (r : List Char) :
    ∃ l, read false floor p (indentHint s ++ ((chompOf s).hint ++
        '\n' :: (writeLines (floor + 1) true (endLine s) ++ r))) =
      (readLines ((writeLines (floor + 1) true (endLine s) ++ r).length + 1) false (floor + 1)
        ⟨[], bs, false⟩ ⟨l, floor + 1⟩ (writeLines (floor + 1) false first ++ r)).map
          (complete (chompOf s)) := by
  rcases indentHint_cases s with ⟨hhint, hhead⟩ | hhint
  · -- 間隔や改行で始まらないので、初めの空の行はない。
    obtain ⟨c, s, rfl⟩ := List.exists_cons_of_ne_nil hs
    obtain ⟨hspace, hbreak⟩ := hhead c rfl
    have hblank : isInlineBlank c = false := by
      rw [isInlineBlank_of_isPrintable hprintable.head]
      simpa [isSpace] using hspace
    have hhead : (endLine (c :: s)).head? = some c := by
      rw [endLine]
      split <;> rfl
    obtain rfl : bs = [] := by
      cases bs with
      | nil => rfl
      | cons b bs =>
          rw [heq] at hhead
          obtain rfl : b = c := Option.some.inj hhead
          rw [hbs b List.mem_cons_self] at hbreak
          cases hbreak
    rw [List.nil_append] at heq
    have hblanks := readBlanks_unhinted (floor + 1) hfirst
      (by rw [← heq, hhead]; simpa using hblank) (p.line + 1) r
    rw [hhint, heq]
    exact ⟨p.line + 1, read_unhinted rfl hblanks⟩
  · obtain ⟨w, l, hblanks⟩ := readBlanks_lines hbs hfirst (Nat.succ_pos floor)
      [] (p.line + 1) r
    rw [← List.append_assoc, ← writeLines_breaks _ hbs, ← heq] at hblanks
    rw [hhint]
    exact ⟨l, read_hinted hfloor hblanks⟩

theorem read_write (h : allowsLiteral s = true) (hfloor : 0 < floor) (hcolumn : column < floor)
    (hr : WordStart r) :
    ∃ l, read false floor p (indentHint s ++ ((chompOf s).hint ++
        '\n' :: (writeLines (floor + 1) true (endLine s) ++ (indentation column ++ r)))) =
      .ok ⟨s, r, ⟨l, column⟩⟩ := by
  simp only [allowsLiteral, Bool.and_eq_true, Bool.not_eq_eq_eq_not, Bool.not_true] at h
  have hs : s ≠ [] := by simpa using h.1.1
  have hprintable := printable_of_needsDoubleQuotes h.1.2
  obtain ⟨bs, first, heq, hbs, rfl | hfirst⟩ := exists_lines (endsWithBreak_endLine s)
  · -- 改行だけの値。
    rw [List.append_nil] at heq
    have hbreaks : Breaks (endLine s) := heq ▸ hbs
    obtain ⟨hself, hkeep⟩ := endLine_of_breaks hs hbreaks
    have hwritten : writeLines (floor + 1) true (endLine s) = endLine s := by
      simpa [writeLines] using writeLines_breaks (floor + 1) hbreaks []
    have hhint : indentHint s = ['2'] := by
      rcases indentHint_cases s with ⟨-, hhead⟩ | hhint
      · obtain ⟨c, s, rfl⟩ := List.exists_cons_of_ne_nil hs
        rw [hself] at hbreaks
        have hbreak := (hhead c rfl).2
        rw [hbreaks c List.mem_cons_self] at hbreak
        cases hbreak
      · exact hhint
    obtain ⟨w, l, hblanks⟩ := readBlanks_end hbreaks hr (Nat.lt_succ_of_lt hcolumn) [] (p.line + 1)
    refine ⟨l, ?_⟩
    rw [hwritten, hhint]
    refine (read_hinted hfloor hblanks).trans ?_
    rw [readLines_end (Nat.ne_of_lt (Nat.lt_succ_of_lt hcolumn)), hkeep, hself]
    rfl
  · obtain ⟨l, hread⟩ := exists_read_lines (p := p) hs hprintable hfloor hbs hfirst heq
      (indentation column ++ r)
    have hfuel : first.length ≤
        (writeLines (floor + 1) true (endLine s) ++ (indentation column ++ r)).length + 1 := by
      have := length_le_length_writeLines (floor + 1) true (endLine s)
      rw [heq, List.length_append] at this
      rw [heq, List.length_append]
      omega
    obtain ⟨body, b, bs', blank, l', hparted, hlines⟩ := readLines_writeLines (t := ⟨[], bs, false⟩)
      hfirst hr (Nat.lt_succ_of_lt hcolumn) hfuel l
    have hwhole : Parted (endLine s) (bs ++ body) b bs' :=
      ⟨by rw [heq, hparted.eq, List.append_assoc], hparted.body.append bs, hparted.stop,
        hparted.breaks⟩
    refine ⟨l', ?_⟩
    rw [hread, hlines]
    simp only [Except.map, complete, List.nil_append, hwhole.append_chomped]

theorem printable_writeLines (h : Printable s) (indent : Nat) (atStart : Bool) :
    Printable (writeLines indent atStart s) := by
  induction s generalizing atStart with
  | nil => exact .nil
  | cons c s ih =>
      rw [writeLines]
      split
      · exact .cons h.head (ih h.tail true)
      · refine .append ?_ (.cons h.head (ih h.tail false))
        cases atStart
        · exact .nil
        · exact .indentation indent

theorem printable_write (h : Printable s) (indent : Nat) : Printable (write indent s) := by
  have hhint : Printable (indentHint s) := by
    rcases indentHint_cases s with ⟨heq, -⟩ | heq <;> rw [heq]
    · exact .nil
    · exact .singleton rfl
  have hchomp : Printable (chompOf s).hint := by
    cases chompOf s
    · exact .singleton rfl
    · exact .nil
    · exact .singleton rfl
  exact .append (.append (.cons rfl hhint) hchomp) (.cons rfl (printable_writeLines h indent true))

end GroupedVariants.Yaml.Literal
