import GroupedVariants.Proofs.Text.Numeral
import GroupedVariants.Proofs.Yaml.Character

/-!
# 引用符で書いた値は、元の文字列に読み戻せる
-/

namespace GroupedVariants.Yaml

variable {c : Char} {s r : List Char} {g : Gap} {p : Position} {indent : Nat}

/-! ## 読みかけの空白 -/

@[simp] theorem Scanned.precededBy_precededBy (x : Scanned) (s t : List Char) :
    (x.precededBy t).precededBy s = x.precededBy (s ++ t) := by
  simp [precededBy]

namespace Gap

@[simp] theorem hasBreak_none : Gap.none.hasBreak = false := rfl

@[simp] theorem folded_none : Gap.none.folded = [] := rfl

@[simp] theorem hasBreak_addBlank (g : Gap) (c : Char) : (g.addBlank c).hasBreak = g.hasBreak := by
  cases g <;> rfl

theorem folded_addBlank (h : g.hasBreak = false) (c : Char) :
    (g.addBlank c).folded = g.folded ++ [c] := by
  cases g with
  | none => rfl
  | blanks s => rfl
  | breaks f m => cases h

/-- 綴りに加わる文字を落とさない空白。一つの改行だけなら間隔に変わってしまう。 -/
def Whole : Gap → Prop
  | none | blanks _ => True
  | breaks first more => first.isSome ∧ (first = some '\n' → more ≠ [])

theorem folded_addBreak (h : g.Whole) (hg : g.hasBreak = true) (c : Char) :
    (g.addBreak c).Whole ∧ (g.addBreak c).folded = g.folded ++ [c] := by
  match g, hg with
  | breaks (some x) more, _ =>
      refine ⟨⟨rfl, fun _ => by simp⟩, ?_⟩
      by_cases hx : x = '\n'
      · subst hx
        match more, h.2 rfl with
        | y :: more, _ => rfl
      · simp [addBreak, folded, hx]
  | breaks Option.none more, _ => exact absurd h.1 (by decide)

end Gap

/-! ## 二重引用符 -/

namespace DoubleQuoted

/-- 文字 `c` の綴りの形。そのまま書くか、一文字か番号で逃がす。 -/
inductive Spelling (c : Char) : List Char → Prop
  | plain (h : needsEscape c = false) : Spelling c [c]
  | short (e : Char) (h : shortEscape? e = some c) (hb : isBreak e = false)
      (hw : escapeWidth? e = none) : Spelling c ['\\', e]
  | byte (a b : Char) (h : charOf? [a, b] = .ok c) : Spelling c ['\\', 'x', a, b]
  | short4 (a b x y : Char) (h : charOf? [a, b, x, y] = .ok c) :
      Spelling c ['\\', 'u', a, b, x, y]
  | long (a b x y d e f i : Char) (h : charOf? [a, b, x, y, d, e, f, i] = .ok c) :
      Spelling c ['\\', 'U', a, b, x, y, d, e, f, i]

/-- 一文字の名で逃がす文字。 -/
def named : List Char :=
  ['\x00', '\x07', '\x08', '\t', '\n', '\x0b', '\x0c', '\r', '\x1b', '"', '\\', '\u0085', '\u00a0',
    '\u2028', '\u2029']

theorem mem_named {e : Char} (h : shortName? c = some e) : c ∈ named := by
  refine Decidable.byContradiction fun hc => ?_
  simp only [named, List.mem_cons, List.not_mem_nil, or_false, not_or] at hc
  simp [shortName?, hc] at h

/-- 書くときの一文字の名は、読むときの名でもあり、番号の印ではない。 -/
theorem shortEscape?_of_shortName? {e : Char} (h : shortName? c = some e) :
    shortEscape? e = some c ∧ isBreak e = false ∧ escapeWidth? e = none := by
  have hnamed : ∀ c ∈ named, (shortName? c).all (fun e =>
      decide (shortEscape? e = some c ∧ isBreak e = false ∧ escapeWidth? e = none)) = true :=
    List.all_eq_true.mp (by decide)
  simpa [h] using hnamed c (mem_named h)

/-! ### 番号の逃がし -/

theorem length_upperHex {width n : Nat} (hw : 0 < width) (h : n < Nat.pow 16 width) :
    (upperHex width n).length = width := by
  rw [upperHex, List.length_map, Text.length_hexPadded hw h]

theorem accumulate_toUpper {c : Char} (h : ∃ m < 16, c = Text.digit m) (acc : Option Nat) :
    Text.accumulate 16 acc c.toUpper = Text.accumulate 16 acc c := by
  have hvalue : ∀ m < 16,
      Text.digitValue? 16 (Text.digit m).toUpper = Text.digitValue? 16 (Text.digit m) := by decide
  obtain ⟨m, hm, rfl⟩ := h
  rw [Text.accumulate, hvalue m hm, Text.accumulate]

theorem foldl_accumulate_toUpper {s : List Char} (h : ∀ c ∈ s, ∃ m < 16, c = Text.digit m)
    (acc : Option Nat) :
    (s.map Char.toUpper).foldl (Text.accumulate 16) acc = s.foldl (Text.accumulate 16) acc := by
  induction s generalizing acc with
  | nil => rfl
  | cons c s ih =>
      rw [List.map_cons, List.foldl_cons, List.foldl_cons,
        accumulate_toUpper (h c List.mem_cons_self),
        ih fun c hc => h c (List.mem_cons_of_mem _ hc)]

theorem charOf?_upperHex (width : Nat) (c : Char) : charOf? (upperHex width c.toNat) = .ok c := by
  have hvalue : Text.natOf? 16 (upperHex width c.toNat) = some c.toNat := by
    rw [Text.natOf?_eq_foldl (by simpa [upperHex] using Text.hexPadded_ne_nil width c.toNat),
      upperHex, foldl_accumulate_toUpper fun _ => Text.exists_digit_of_mem_hexPadded,
      Text.foldl_accumulate_hexPadded]
  have hvalid : c.toNat.isValidChar := c.valid
  rw [charOf?, hvalue]
  simp only [if_pos hvalid, Char.ofNat_toNat]

theorem spelling_numericEscape (c : Char) : Spelling c ('\\' :: numericEscape c) := by
  have hchar (width : Nat) := charOf?_upperHex width c
  simp only [numericEscape]
  split
  · rename_i hn
    have hlength : (upperHex 2 c.toNat).length = 2 :=
      length_upperHex (by decide) (Nat.lt_succ_of_le hn)
    match upperHex 2 c.toNat, hlength, hchar 2 with
    | [a, b], _, h => exact .byte a b h
  split
  · rename_i hn
    have hlength : (upperHex 4 c.toNat).length = 4 :=
      length_upperHex (by decide) (Nat.lt_succ_of_le hn)
    match upperHex 4 c.toNat, hlength, hchar 4 with
    | [a, b, x, y], _, h => exact .short4 a b x y h
  · have hn : c.toNat < 2 ^ 32 := c.val.toNat_lt
    have hlength : (upperHex 8 c.toNat).length = 8 := length_upperHex (by decide) hn
    match upperHex 8 c.toNat, hlength, hchar 8 with
    | [a, b, x, y, d, e, f, i], _, h => exact .long a b x y d e f i h

theorem spelling_writeChar (c : Char) : Spelling c (writeChar c) := by
  rw [writeChar]
  split
  · split
    next e he =>
      obtain ⟨h, hb, hw⟩ := shortEscape?_of_shortName? he
      exact .short e h hb hw
    next => exact spelling_numericEscape c
  · rename_i h
    exact .plain (by simpa using h)

/-! ### 読み取り -/

theorem read_blank (r : List Char) : read g p (' ' :: r) = read (g.addBlank ' ') p.next r := by
  rw [read.eq_def]
  rfl

/-- 間隔でない文字は、その綴りだけが読まれる。 -/
theorem Spelling.read_append (h : Spelling c s) (hspace : c ≠ ' ') (hp : p.column ≠ 0) :
    ∃ p', p'.column ≠ 0 ∧ ∀ r,
      read g p (s ++ r) = (read .none p' r).map (·.precededBy (g.folded ++ [c])) := by
  cases h with
  | plain h =>
      simp only [needsEscape, Bool.or_eq_false_iff, Bool.not_eq_eq_eq_not, Bool.not_false,
        beq_eq_false_iff_ne] at h
      obtain ⟨⟨⟨hprint, hbreak⟩, hquote⟩, hslash⟩ := h
      have hblank : isInlineBlank c = false := by
        rw [isInlineBlank_of_isPrintable hprint]
        simpa [isSpace] using hspace
      refine ⟨p.next, Nat.succ_ne_zero _, fun r => ?_⟩
      rw [List.singleton_append, read.eq_def]
      split <;> simp_all
  | short e h hb hw =>
      refine ⟨p.skip 2, Nat.succ_ne_zero _, fun r => ?_⟩
      have hx : e ≠ 'x' ∧ e ≠ 'u' ∧ e ≠ 'U' := by
        refine ⟨?_, ?_, ?_⟩ <;> rintro rfl <;> cases hw
      simp [read, hx, hb, h]
  | byte a b h =>
      refine ⟨p.skip 4, Nat.succ_ne_zero _, fun r => ?_⟩
      simp only [List.cons_append, List.nil_append, read, h]
      rfl
  | short4 a b x y h =>
      refine ⟨p.skip 6, Nat.succ_ne_zero _, fun r => ?_⟩
      simp only [List.cons_append, List.nil_append, read, h]
      rfl
  | long a b x y d e f i h =>
      refine ⟨p.skip 10, Nat.succ_ne_zero _, fun r => ?_⟩
      simp only [List.cons_append, List.nil_append, read, h]
      rfl

theorem read_flatMap (s : List Char) (hg : g.hasBreak = false) (hp : p.column ≠ 0) (r : List Char) :
    ∃ p', read g p (s.flatMap writeChar ++ '"' :: r) = .ok ⟨g.folded ++ s, r, p'⟩ := by
  induction s generalizing g p with
  | nil => exact ⟨p.next, by simp [read]⟩
  | cons c s ih =>
      rw [List.flatMap_cons, List.append_assoc]
      by_cases hspace : c = ' '
      · subst hspace
        obtain ⟨p', hread⟩ := ih (g := g.addBlank ' ') (p := p.next) (by simpa using hg)
          (Nat.succ_ne_zero _)
        have hwrite : writeChar ' ' = [' '] := by decide
        refine ⟨p', ?_⟩
        rw [hwrite, List.singleton_append, read_blank, hread, Gap.folded_addBlank hg]
        simp
      · obtain ⟨p₁, hp₁, hchar⟩ := (spelling_writeChar c).read_append (g := g) hspace hp
        obtain ⟨p', hread⟩ := ih (g := .none) rfl hp₁
        refine ⟨p', ?_⟩
        rw [hchar, hread]
        simp [Except.map, Scanned.precededBy]

theorem read_write (s : List Char) (hp : p.column ≠ 0) (r : List Char) :
    ∃ p', read .none p (s.flatMap writeChar ++ '"' :: r) = .ok ⟨s, r, p'⟩ :=
  read_flatMap s rfl hp r

/-! ### 書いた綴りの文字 -/

theorem printable_upperHex (width n : Nat) : Printable (upperHex width n) := by
  have hdigit : ∀ m < 16, isPrintable (Text.digit m).toUpper = true := by decide
  intro c hc
  obtain ⟨d, hd, rfl⟩ := List.mem_map.mp hc
  obtain ⟨m, hm, rfl⟩ := Text.exists_digit_of_mem_hexPadded hd
  exact hdigit m hm

theorem printable_writeChar (c : Char) : Printable (writeChar c) := by
  have hnamed : ∀ c ∈ named, (shortName? c).all isPrintable = true :=
    List.all_eq_true.mp (by decide)
  rw [writeChar]
  split
  · refine .cons rfl ?_
    split
    next e he => exact .singleton (by simpa [he] using hnamed c (mem_named he))
    next =>
      simp only [numericEscape]
      split
      · exact .cons rfl (printable_upperHex 2 _)
      split
      · exact .cons rfl (printable_upperHex 4 _)
      · exact .cons rfl (printable_upperHex 8 _)
  · rename_i h
    simp only [needsEscape, Bool.or_eq_true, Bool.not_eq_true', not_or] at h
    exact .singleton (by simpa using h.1.1.1)

end DoubleQuoted

/-! ## 一重引用符 -/

namespace SingleQuoted

theorem read_blank (r : List Char) : read g p (' ' :: r) = read (g.addBlank ' ') p.next r := by
  rw [read.eq_def]
  rfl

theorem read_break (hc : isBreak c = true) (r : List Char) :
    read g p (c :: r) = read (g.addBreak c) p.nextLine r := by
  have hquote : c ≠ '\x27' := ne_of_isBreak hc (by decide)
  simp [read, hquote, hc, isInlineBlank_of_isBreak hc]

theorem read_quotes (r : List Char) :
    read g p ('\x27' :: '\x27' :: r) =
      (read .none (p.skip 2) r).map (·.precededBy (g.folded ++ ['\x27'])) := by
  simp only [read]

theorem read_close (hr : r.head? ≠ some '\x27') :
    read g p ('\x27' :: r) = .ok ⟨g.folded, r, p.next⟩ := by
  cases r with
  | nil => simp [read]
  | cons c r =>
      have hc : c ≠ '\x27' := by simpa using hr
      simp [read, hc]

theorem read_cons (hquote : c ≠ '\x27') (hblank : isInlineBlank c = false)
    (hbreak : isBreak c = false) (hp : p.column ≠ 0) (r : List Char) :
    read g p (c :: r) = (read .none p.next r).map (·.precededBy (g.folded ++ [c])) := by
  simp [read, hquote, hblank, hbreak, hp]

/-- 改行の後の字下げは読み飛ばされる。 -/
theorem read_indentation (hg : g.hasBreak = true) (n : Nat) (r : List Char) :
    read g p (indentation n ++ r) = read g (p.skip n) r := by
  have hblank : g.addBlank ' ' = g := by
    cases g with
    | breaks f m => rfl
    | _ => cases hg
  induction n generalizing p with
  | zero => rfl
  | succ n ih =>
      rw [indentation, List.replicate_succ, List.cons_append, read_blank, hblank, ← p.skip_next]
      exact ih

/-- 改行は、初めのものが余分に書かれていても、一つの改行として加わる。 -/
theorem read_writeBreak (hc : isBreak c = true) (hw : g.Whole) (hg : ∀ t, g ≠ .blanks t) :
    ∃ g' p', g'.Whole ∧ g'.hasBreak = true ∧ g'.folded = g.folded ++ [c] ∧ ∀ r,
      read g p ((if !g.hasBreak && c == '\n' then ['\n'] else []) ++ c :: r) = read g' p' r := by
  match g, hw, hg with
  | .blanks t, _, hg => exact absurd rfl (hg t)
  | .breaks first more, hw, _ =>
      obtain ⟨hwhole, hfolded⟩ := Gap.folded_addBreak hw rfl c
      exact ⟨_, p.nextLine, hwhole, rfl, hfolded, fun r => read_break hc r⟩
  | .none, _, _ =>
      by_cases hnewline : c = '\n'
      · subst hnewline
        refine ⟨.breaks (some '\n') ['\n'], p.nextLine.nextLine, ?_, rfl, rfl, fun r => ?_⟩
        · exact ⟨rfl, fun _ => List.cons_ne_nil _ _⟩
        · exact (read_break hc _).trans (read_break hc r)
      · refine ⟨.breaks (some c) [], p.nextLine, ?_, rfl, ?_, fun r => ?_⟩
        · exact ⟨rfl, fun heq => absurd (Option.some.inj heq) hnewline⟩
        · simp [Gap.folded, hnewline]
        · have hwrite : (!Gap.none.hasBreak && c == '\n') = false := by simp [hnewline]
          rw [hwrite]
          exact read_break hc r

/-- 改行の後なら、字下げを読んで行の中に入る。 -/
theorem read_writeIndentation (hp : g.hasBreak = false → p.column ≠ 0) (hindent : 0 < indent) :
    ∃ p', p'.column ≠ 0 ∧ ∀ r,
      read g p ((if g.hasBreak then indentation indent else []) ++ r) = read g p' r := by
  cases hg : g.hasBreak with
  | false => exact ⟨p, hp hg, fun r => rfl⟩
  | true =>
      refine ⟨p.skip indent, ?_, fun r => read_indentation hg indent r⟩
      simp only [Position.skip]
      omega

/-- 読みかけの空白 `g` の先に `s` が続いてよい。間隔は改行の前にも後にも来ない。 -/
structure Fits (g : Gap) (s : List Char) : Prop where
  whole : g.Whole
  printable : Printable s
  spaceBreak : hasAdjacent isSpace isBreak s = false
  breakSpace : hasAdjacent isBreak isSpace s = false
  afterBlanks : ∀ t, g = .blanks t → ∀ c ∈ s.head?, isBreak c = false
  afterBreaks : g.hasBreak = true → ∀ c ∈ s.head?, isSpace c = false

namespace Fits

theorem start (hprintable : Printable s) (hspace : hasAdjacent isSpace isBreak s = false)
    (hbreak : hasAdjacent isBreak isSpace s = false) : Fits .none s := by
  refine ⟨trivial, hprintable, hspace, hbreak, fun t heq => ?_, fun heq => ?_⟩
  · cases heq
  · cases heq

theorem ofNone (h : Fits g (c :: s)) : Fits .none s :=
  start h.printable.tail (hasAdjacent_tail h.spaceBreak) (hasAdjacent_tail h.breakSpace)

theorem ofBreak (h : Fits g (c :: s)) (hc : isBreak c = true) {g' : Gap} (hw : g'.Whole)
    (hg' : g'.hasBreak = true) : Fits g' s :=
  ⟨hw, h.printable.tail, hasAdjacent_tail h.spaceBreak, hasAdjacent_tail h.breakSpace,
    fun _ heq => by simp [heq, Gap.hasBreak] at hg', fun _ => not_of_hasAdjacent h.breakSpace hc⟩

theorem hasBreak_eq_false (h : Fits g (' ' :: s)) : g.hasBreak = false := by
  cases hg : g.hasBreak with
  | false => rfl
  | true => exact absurd (h.afterBreaks hg ' ' rfl) (by decide)

theorem addBlank (h : Fits g (' ' :: s)) : Fits (g.addBlank ' ') s := by
  have hg : (g.addBlank ' ').hasBreak = false := by
    rw [Gap.hasBreak_addBlank, h.hasBreak_eq_false]
  refine ⟨?_, h.printable.tail, hasAdjacent_tail h.spaceBreak, hasAdjacent_tail h.breakSpace,
    fun _ _ => not_of_hasAdjacent h.spaceBreak rfl, fun heq => ?_⟩
  · cases hgap : g.addBlank ' ' with
    | breaks f m => rw [hgap] at hg; cases hg
    | _ => trivial
  · rw [hg] at heq
    cases heq

end Fits

/-- 書いている間の改行の有無は、読んでいる間のそれと同じである。 -/
theorem read_writeBody (h : Fits g s) (hp : g.hasBreak = false → p.column ≠ 0)
    (hindent : 0 < indent) (hr : r.head? ≠ some '\x27') :
    ∃ p', read g p (writeBody indent g.hasBreak s ++ '\x27' :: r) = .ok ⟨g.folded ++ s, r, p'⟩ := by
  induction s generalizing g p with
  | nil =>
      obtain ⟨p', -, hread⟩ := read_writeIndentation (g := g) hp hindent
      exact ⟨p'.next, by rw [writeBody, hread, read_close hr, List.append_nil]⟩
  | cons c s ih =>
      cases hc : isBreak c with
      | true =>
          have hg (t : List Char) : g ≠ .blanks t := fun heq => by
            simp [h.afterBlanks t heq c rfl] at hc
          obtain ⟨g', p', hw, hg', hfolded, hread⟩ := read_writeBreak (p := p) hc h.whole hg
          obtain ⟨p'', hrest⟩ := ih (p := p') (h.ofBreak hc hw hg')
            (fun heq => by simp [hg'] at heq)
          refine ⟨p'', ?_⟩
          rw [hg', hfolded] at hrest
          rw [writeBody, if_pos hc, List.append_assoc, List.cons_append, hread, hrest,
            List.append_assoc]
          rfl
      | false =>
          obtain ⟨p₀, hp₀, hread⟩ := read_writeIndentation (g := g) hp hindent
          rw [writeBody, if_neg (by simp [hc])]
          simp only [List.append_assoc, hread]
          by_cases hquote : c = '\x27'
          · subst hquote
            obtain ⟨p', hrest⟩ := ih (p := p₀.skip 2) h.ofNone (fun _ => Nat.succ_ne_zero _)
            refine ⟨p', (read_quotes _).trans ?_⟩
            exact (congrArg _ hrest).trans (by simp [Except.map, Scanned.precededBy])
          rw [if_neg (by simpa using hquote), List.singleton_append]
          by_cases hspace : c = ' '
          · subst hspace
            have hg := h.hasBreak_eq_false
            obtain ⟨p', hrest⟩ := ih (p := p₀.next) h.addBlank (fun _ => Nat.succ_ne_zero _)
            refine ⟨p', ?_⟩
            rw [Gap.hasBreak_addBlank, hg, Gap.folded_addBlank hg, List.append_assoc] at hrest
            exact (read_blank _).trans hrest
          · have hinline : isInlineBlank c = false := by
              rw [isInlineBlank_of_isPrintable h.printable.head]
              simpa [isSpace] using hspace
            obtain ⟨p', hrest⟩ := ih (p := p₀.next) h.ofNone (fun _ => Nat.succ_ne_zero _)
            refine ⟨p', (read_cons hquote hinline hc hp₀ _).trans ?_⟩
            exact (congrArg _ hrest).trans (by simp [Except.map, Scanned.precededBy])

theorem read_write (h : allowsSingleQuotes s = true) (hp : p.column ≠ 0) (hindent : 0 < indent)
    (hr : r.head? ≠ some '\x27') :
    ∃ p', read .none p (writeBody indent false s ++ '\x27' :: r) = .ok ⟨s, r, p'⟩ := by
  simp only [allowsSingleQuotes, Bool.and_eq_true, Bool.not_eq_eq_eq_not, Bool.not_true] at h
  obtain ⟨hdouble, hafter⟩ := h
  have hprintable := printable_of_needsDoubleQuotes hdouble
  simp only [needsDoubleQuotes, Bool.or_eq_false_iff] at hdouble
  exact read_writeBody (.start hprintable hdouble.2 hafter) (fun _ => hp) hindent hr

theorem printable_writeBody (h : Printable s) (indent : Nat) (afterBreak : Bool) :
    Printable (writeBody indent afterBreak s) := by
  have hindent (b : Bool) : Printable (if b then indentation indent else []) := by
    cases b
    · exact .nil
    · exact .indentation indent
  induction s generalizing afterBreak with
  | nil => exact hindent afterBreak
  | cons c s ih =>
      have hrest := ih h.tail
      rw [writeBody]
      split
      · refine .append ?_ (.cons h.head (hrest true))
        split
        · exact .singleton rfl
        · exact .nil
      · refine .append (.append (hindent afterBreak) ?_) (hrest false)
        split
        · exact .cons rfl (.singleton rfl)
        · exact .singleton h.head

end SingleQuoted

end GroupedVariants.Yaml
