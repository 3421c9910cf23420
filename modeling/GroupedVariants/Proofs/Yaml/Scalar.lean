import GroupedVariants.Proofs.Yaml.Literal
import GroupedVariants.Proofs.Yaml.Plain
import GroupedVariants.Yaml.Block

/-!
# 書いた値は、どの書き方でも元の文字列に読み戻せる

値の先には改行があり、浅い次の行が続く。どの書き方でも、読み終えると次の行の語に至る。
-/

namespace GroupedVariants.Yaml

open SingleQuoted (indentation)

variable {c : Char} {s r t : List Char} {p : Position} {fresh indentless : Bool}
  {fuel floor indent column n : Nat} {style : Style}

namespace Cursor

/-! ## 次の行に至る目印 -/

/-- 行 `l` の桁 `column` にある語 `s`。 -/
def line (l column : Nat) (s : List Char) : Cursor := { rest := s, position := ⟨l, column⟩ }

/-- 空白と改行を読み飛ばすと、桁 `column` の語 `s` に至る。 -/
def Reaches (c : Cursor) (column : Nat) (s : List Char) : Prop :=
  ∃ l, c.skipGap false = line l column s

theorem gapFrom_word (h : WordStart s) (c : Cursor) :
    gapFrom false false c p fresh s = { c with rest := s, position := p, fresh := fresh } := by
  cases s with
  | nil => rfl
  | cons x s =>
      obtain ⟨hblank, hbreak, hhash, hmark⟩ := h x rfl
      simp only [isInlineBlank, Bool.or_eq_false_iff, beq_eq_false_iff_ne] at hblank
      simp [gapFrom, hbreak, hhash, hmark, hblank]

theorem skipGap_word {c : Cursor} (h : WordStart c.rest) : c.skipGap false = c :=
  gapFrom_word h c

theorem gapFrom_indentation (c : Cursor) (n : Nat) (s : List Char) :
    gapFrom false false c p fresh (indentation n ++ s) =
      gapFrom false false c (p.skip n) fresh s := by
  induction n generalizing p with
  | zero => rfl
  | succ n ih =>
      rw [← p.skip_next, ← ih]
      simp [indentation, List.replicate_succ, gapFrom, isBreak]

theorem skipGap_space (h : WordStart s) :
    (⟨' ' :: s, p, fresh, [], []⟩ : Cursor).skipGap false = ⟨s, p.next, fresh, [], []⟩ :=
  (gapFrom_indentation _ 1 s).trans (gapFrom_word h _)

theorem skipGap_lineOf (h : WordStart s) (column : Nat) (p : Position) (fresh : Bool) :
    (⟨lineOf column s, p, fresh, [], []⟩ : Cursor).skipGap false = line (p.line + 1) column s := by
  have hbreak : (⟨lineOf column s, p, fresh, [], []⟩ : Cursor).skipGap false =
      gapFrom false false ⟨lineOf column s, p, fresh, [], []⟩ p.nextLine true
        (indentation column ++ s) := by
    simp [skipGap, lineOf, gapFrom, isBreak]
  rw [hbreak, gapFrom_indentation, gapFrom_word h]
  simp [line, Position.nextLine, Position.skip]

theorem reaches_lineOf (h : WordStart s) (column : Nat) (p : Position) (fresh : Bool) :
    (⟨lineOf column s, p, fresh, [], []⟩ : Cursor).Reaches column s :=
  ⟨p.line + 1, skipGap_lineOf h column p fresh⟩

theorem reaches_line (h : WordStart s) (l column : Nat) : (line l column s).Reaches column s :=
  ⟨l, skipGap_word h⟩

end Cursor

/-! ## 値の頭 -/

/-- 並びの項目とも、鍵と値を分ける記号とも、名札や札や括弧とも読まれない文字 `c` から始まる。 -/
structure Opens (c : Char) (t : List Char) : Prop where
  blank : isInlineBlank c = false
  inline : isBreak c = false
  sign : c ∉ ['#', '\ufeff', '&', '!', '*', '[', '{']
  indicator : c ∈ ['-', '?', ':'] → atBlank t = false

namespace Opens

theorem wordStart (h : Opens c t) : WordStart (c :: t) := by
  intro x hx
  obtain rfl : c = x := Option.some.inj hx
  have hsign := h.sign
  simp only [List.mem_cons, not_or] at hsign
  exact ⟨h.blank, h.inline, hsign.1, hsign.2.1⟩

theorem atIndicator_eq_false (h : Opens c t) (x : Char) (hx : x ∈ ['-', '?', ':']) :
    (⟨c :: t, p, fresh, [], []⟩ : Cursor).atIndicator x = false := by
  by_cases hc : c = x
  · subst hc
    simp [Cursor.atIndicator, h.indicator hx]
  · simp [Cursor.atIndicator, hc]

theorem atIndicators_eq_false (h : Opens c t) (p : Position) (fresh : Bool) :
    let cursor : Cursor := ⟨c :: t, p, fresh, [], []⟩
    cursor.atIndicator '-' = false ∧ cursor.atIndicator '?' = false ∧
      cursor.atIndicator ':' = false :=
  ⟨h.atIndicator_eq_false '-' (by simp), h.atIndicator_eq_false '?' (by simp),
    h.atIndicator_eq_false ':' (by simp)⟩

theorem at?_eq_false (h : Opens c t) (x : Char)
    (hx : x ∈ ['#', '\ufeff', '&', '!', '*', '[', '{']) :
    (⟨c :: t, p, fresh, [], []⟩ : Cursor).at? x = false := by
  have hc : c ≠ x := fun heq => h.sign (heq ▸ hx)
  simpa [Cursor.at?] using hc

theorem atSign_eq_false (h : Opens c t) (p : Position) (fresh : Bool) :
    let cursor : Cursor := ⟨c :: t, p, fresh, [], []⟩
    cursor.at? '&' = false ∧ cursor.at? '!' = false ∧ cursor.at? '*' = false ∧
      cursor.at? '[' = false ∧ cursor.at? '\x7b' = false :=
  ⟨h.at?_eq_false '&' (by simp), h.at?_eq_false '!' (by simp), h.at?_eq_false '*' (by simp),
    h.at?_eq_false '[' (by simp), h.at?_eq_false '\x7b' (by simp)⟩

theorem readProperty_eq (h : Opens c t) :
    readProperty false {} ⟨c :: t, p, fresh, [], []⟩ = .ok none := by
  obtain ⟨hanchor, htag, -⟩ := h.atSign_eq_false p fresh
  simp [readProperty, hanchor, htag]

theorem readKeyContent_eq (h : Opens c t) :
    readKeyContent fuel floor {} ⟨c :: t, p, fresh, [], []⟩ =
      readInlineScalar false floor ⟨c :: t, p, fresh, [], []⟩ := by
  obtain ⟨-, -, halias, hlist, hmap⟩ := h.atSign_eq_false p fresh
  simp only [readKeyContent, halias, hlist, hmap]
  rcases readInlineScalar false floor ⟨c :: t, p, fresh, [], []⟩ with f | x
  · rfl
  · cases x <;> rfl

theorem readKeyFrom_eq (h : Opens c t) :
    readKeyFrom (fuel + 1) floor {} ⟨c :: t, p, fresh, [], []⟩ =
      readInlineScalar false floor ⟨c :: t, p, fresh, [], []⟩ := by
  simp only [readKeyFrom, h.readProperty_eq, h.readKeyContent_eq]
  rcases readInlineScalar false floor ⟨c :: t, p, fresh, [], []⟩ with f | x
  · rfl
  · cases x <;> rfl

/-- 値の先に `:` がなければ、鍵ではない。 -/
theorem readKey?_eq_none (h : Opens c t)
    {x : Option (Node × Cursor)}
    (hread : readInlineScalar false floor ⟨c :: t, p, fresh, [], []⟩ = .ok x)
    (hx : ∀ y ∈ x, y.2.Reaches column r) (hr : r.head? ≠ some ':') :
    readKey? (fuel + 1) floor ⟨c :: t, p, fresh, [], []⟩ = .ok none := by
  rw [readKey?, h.readKeyFrom_eq, hread]
  cases fresh with
  | false => rfl
  | true =>
      cases x with
      | none => rfl
      | some y =>
          obtain ⟨l, hline⟩ := hx y rfl
          have hcolon : (Cursor.line l column r).atIndicator ':' = false := by
            cases r with
            | nil => rfl
            | cons d r =>
                have hd : d ≠ ':' := by simpa using hr
                simp [Cursor.line, Cursor.atIndicator, hd]
          simp only [bind, Except.bind, hline, hcolon]
          rfl

/-- 鍵でない値が、行の中から読まれる。 -/
theorem readBlockContent_inline (h : Opens c t) (hbar : c ∉ ['|', '>']) {x : Node × Cursor}
    (hkey : readKey? fuel floor ⟨c :: t, p, fresh, [], []⟩ = .ok none)
    (hread : readInlineScalar false floor ⟨c :: t, p, fresh, [], []⟩ = .ok (some x)) :
    readBlockContent (fuel + 1) floor indentless {} ⟨c :: t, p, fresh, [], []⟩ = .ok x := by
  obtain ⟨-, -, halias, hlist, hmap⟩ := h.atSign_eq_false p fresh
  obtain ⟨hitem, hquestion, hcolon⟩ := h.atIndicators_eq_false p fresh
  have hliteral : (⟨c :: t, p, fresh, [], []⟩ : Cursor).at? '|' = false := by
    simp_all [Cursor.at?]
  have hfolded : (⟨c :: t, p, fresh, [], []⟩ : Cursor).at? '>' = false := by
    simp_all [Cursor.at?]
  simp only [readBlockContent, hitem, hquestion, hcolon, hkey, h.readProperty_eq, halias, hlist,
    hmap, hliteral, hfolded, hread]
  rfl

/-- 鍵でない値が、次の行から読まれる。 -/
theorem readBlockContent_literal (h : Opens '|' t) {x : Scanned}
    (hkey : readKey? fuel floor ⟨'|' :: t, p, fresh, [], []⟩ = .ok none)
    (hread : Literal.read false floor p.next t = .ok x) :
    readBlockContent (fuel + 1) floor indentless {} ⟨'|' :: t, p, fresh, [], []⟩ =
      .ok (.scalar x.text false, ⟨x.rest, x.position, true, [], []⟩) := by
  obtain ⟨hitem, hquestion, hcolon⟩ := h.atIndicators_eq_false p fresh
  have hliteral : (⟨'|' :: t, p, fresh, [], []⟩ : Cursor).at? '|' = true := rfl
  have hfolded : (⟨'|' :: t, p, fresh, [], []⟩ : Cursor).at? '>' = false := rfl
  simp only [readBlockContent, hitem, hquestion, hcolon, hkey, h.readProperty_eq, hliteral, hfolded,
    List.drop_one, List.tail_cons]
  simp [bind, Except.bind, hread, pure, Except.pure, Cursor.ofScanned]

end Opens

/-! ## 裸の値の頭 -/

theorem hasBlockIndicator_cons (h : hasBlockIndicator (c :: t) = false) :
    isLeadIndicator c = false ∧ (c = '?' ∨ c = '-' → atBlank t = false) ∧
      hasAdjacent isBlankOrBreak (· == '#') (c :: t) = false ∧
      hasAdjacent (· == ':') isBlankOrBreak (c :: t) = false ∧ (c :: t).getLast? ≠ some ':' := by
  rw [hasBlockIndicator.eq_def] at h
  simp only [Bool.or_eq_false_iff, beq_eq_false_iff_ne] at h
  obtain ⟨⟨⟨hhead, hhash⟩, hcolon⟩, hlast⟩ := h
  have hfirst : (isLeadIndicator c || ((c == '?' || c == '-') && atBlank t)) = false := by
    generalize hs : c :: t = s at hhead
    split at hhead
    · cases hhead
    · cases hhead
    · obtain ⟨rfl, rfl⟩ := List.cons.inj hs
      exact hhead
    · cases hs
  rw [Bool.or_eq_false_iff] at hfirst
  refine ⟨hfirst.1, fun hc => ?_, hhash, hcolon, hlast⟩
  rcases hc with rfl | rfl <;> exact hfirst.2

/-- 裸で書ける値の、頭と途中と終わり。 -/
structure Bare (c : Char) (t : List Char) : Prop where
  unbroken : Plain.Unbroken (c :: t)
  blank : isInlineBlank c = false
  printable : isPrintable c = true
  lead : isLeadIndicator c = false
  indicator : c ∈ ['-', '?', ':'] → atBlank t = false
  space : (c :: t).getLast? ≠ some ' '
  colon : (c :: t).getLast? ≠ some ':'

namespace Bare

theorem ofAllowsPlain (h : allowsPlain (c :: t) = true) : Bare c t := by
  simp only [allowsPlain, Bool.and_eq_true, Bool.not_eq_eq_eq_not, Bool.not_true] at h
  obtain ⟨⟨⟨hdouble, hbreak⟩, hspace⟩, hblock⟩ := h
  obtain ⟨hlead, hmark, hhash, hcolon, hlast⟩ := hasBlockIndicator_cons hblock
  have hprintable := printable_of_needsDoubleQuotes hdouble
  simp only [startsOrEnds, Bool.or_eq_false_iff] at hspace
  refine ⟨⟨fun x hx => ⟨?_, ne_of_isPrintable (hprintable x hx) (by decide)⟩, hhash, hcolon⟩, ?_,
    hprintable.head, hlead, fun hc => ?_, fun heq => ?_, hlast⟩
  · exact Bool.eq_false_iff.mpr (List.any_eq_false.mp hbreak x hx)
  · rw [isInlineBlank_of_isPrintable hprintable.head]
    exact hspace.1
  · by_cases hc' : c = ':'
    · subst hc'
      cases t with
      | nil => exact absurd rfl hlast
      | cons d t => exact not_of_hasAdjacent hcolon rfl d rfl
    · simp only [List.mem_cons, hc', List.not_mem_nil, or_false] at hc
      exact hmark hc.symm
  · rw [heq] at hspace
    cases hspace.2

theorem atBlank_append (h : Bare c t) (hc : c ∈ ['-', '?', ':']) (r : List Char) :
    atBlank (t ++ r) = false := by
  have hblank := h.indicator hc
  cases t with
  | nil => cases hblank
  | cons d t => exact hblank

theorem opens (h : Bare c t) (r : List Char) : Opens c (t ++ r) := by
  refine ⟨h.blank, (h.unbroken.inline c List.mem_cons_self).1, fun hmem => ?_,
    fun hc => h.atBlank_append hc r⟩
  have hsign : ∀ x ∈ ['#', '\ufeff', '&', '!', '*', '[', '{'],
      (!isPrintable x || isLeadIndicator x) = true := List.all_eq_true.mp (by decide)
  have hc := hsign c hmem
  simp [h.printable, h.lead] at hc

theorem endsWithBreak (h : Bare c t) : Literal.endsWithBreak (c :: t) = false := by
  rw [Literal.endsWithBreak, List.getLast?_eq_some_getLast (List.cons_ne_nil c t)]
  exact (h.unbroken.inline _ (List.getLast_mem _)).1

/-- 引用符でも、次の行から始まる値の記号でもない。 -/
theorem not_mem (h : Bare c t) : c ∉ ['\x27', '"', '|', '>'] := fun hmem => by
  have hsign : ∀ x ∈ ['\x27', '"', '|', '>'], isLeadIndicator x = true :=
    List.all_eq_true.mp (by decide)
  have hc := hsign c hmem
  simp [h.lead] at hc

theorem canStart (h : Bare c t) (r : List Char) :
    Plain.canStart false (c :: (t ++ r)) = true := by
  have hindicator (hc : c ∈ ['-', '?', ':']) := h.atBlank_append hc r
  simp only [Plain.canStart]
  split
  · simp_all
  split
  · simp_all
  · simp [h.blank, h.lead, (h.unbroken.inline c List.mem_cons_self).1]

end Bare

/-! ## 行の中に書いた値 -/

/-- `c :: t` は値 `s` の綴りで、浅い次の行の手前までが読まれる。 -/
structure Inline (s : List Char) (plain : Bool) (c : Char) (t : List Char) : Prop where
  opens (column : Nat) (r : List Char) : Opens c (t ++ lineOf column r)
  sign : c ∉ ['|', '>']
  last : Literal.endsWithBreak (c :: t) = false
  read {floor column : Nat} {r : List Char} {p : Position} (fresh : Bool) :
    column < floor → WordStart r → p.column ≠ 0 →
      ∃ y, readInlineScalar false floor ⟨c :: (t ++ lineOf column r), p, fresh, [], []⟩ =
          .ok (some (.scalar s plain, y)) ∧ y.Reaches column r

theorem readInlineScalar_single {x : Scanned} (hread : SingleQuoted.read .none p.next t = .ok x) :
    readInlineScalar false floor ⟨'\x27' :: t, p, fresh, [], []⟩ =
      .ok (some (.scalar x.text false, ⟨x.rest, x.position, false, [], []⟩)) := by
  simp only [readInlineScalar]
  rw [hread]
  rfl

theorem readInlineScalar_double {x : Scanned} (hread : DoubleQuoted.read .none p.next t = .ok x) :
    readInlineScalar false floor ⟨'"' :: t, p, fresh, [], []⟩ =
      .ok (some (.scalar x.text false, ⟨x.rest, x.position, false, [], []⟩)) := by
  simp only [readInlineScalar]
  rw [hread]
  rfl

theorem readInlineScalar_plain {x : Scanned × Gap} (hsingle : c ≠ '\x27') (hdouble : c ≠ '"')
    (hstart : Plain.canStart false (c :: t) = true)
    (hread : Plain.read false floor .none p (c :: t) = .ok x) :
    readInlineScalar false floor ⟨c :: t, p, fresh, [], []⟩ =
      .ok (some (.scalar x.1.text true, ⟨x.1.rest, x.1.position, x.2.hasBreak, [], []⟩)) := by
  rw [readInlineScalar.eq_def]
  split
  next heq => exact absurd (List.cons.inj heq).1 hsingle
  next heq => exact absurd (List.cons.inj heq).1 hdouble
  next =>
    rw [if_pos hstart, hread]
    rfl

theorem inline_plain (h : allowsPlain s = true) (hs : s ≠ []) :
    ∃ c t, s = c :: t ∧ Inline s true c t := by
  obtain ⟨c, t, rfl⟩ := List.exists_cons_of_ne_nil hs
  have hbare := Bare.ofAllowsPlain h
  have hsign := hbare.not_mem
  simp only [List.mem_cons, List.not_mem_nil, or_false, not_or] at hsign
  obtain ⟨hsingle, hdouble, hbar, hangle⟩ := hsign
  refine ⟨c, t, rfl, fun _ _ => hbare.opens _, by simp [hbar, hangle], hbare.endsWithBreak, ?_⟩
  intro floor column r p fresh hcolumn hr hp
  have hread : Plain.read false floor .none p (c :: (t ++ lineOf column r)) =
      .ok (⟨c :: t, r, ⟨p.line + 1, column⟩⟩, .breaks (some '\n') []) := by
    have happend := Plain.read_append (p := p) (r := lineOf column r) floor hbare.unbroken rfl
      (fun hne => absurd rfl hne) hbare.space (fun heq => absurd heq hbare.colon) (by simp [hp])
    rw [List.cons_append, Plain.read_lineOf hr hcolumn] at happend
    rw [happend]
    simp [Except.map, Scanned.precededBy, Position.skip]
  exact ⟨.line (p.line + 1) column r,
    readInlineScalar_plain hsingle hdouble (hbare.canStart _) hread, Cursor.reaches_line hr _ _⟩

theorem inline_single (h : allowsSingleQuotes s = true) (hindent : 0 < indent) :
    ∃ t, SingleQuoted.write indent s = '\x27' :: t ∧ Inline s false '\x27' t := by
  refine ⟨SingleQuoted.writeBody indent false s ++ ['\x27'], rfl,
    fun column r => ⟨rfl, rfl, by decide, by simp⟩, by simp,
    Literal.Solid.endsWithBreak ⟨'\x27' :: _, '\x27', rfl, rfl⟩, ?_⟩
  intro floor column r p fresh hcolumn hr hp
  obtain ⟨p', hread⟩ := SingleQuoted.read_write (p := p.next) (r := lineOf column r) h
    (Nat.succ_ne_zero _) hindent (by simp [lineOf])
  rw [List.append_assoc]
  exact ⟨⟨lineOf column r, p', false, [], []⟩, readInlineScalar_single hread,
    Cursor.reaches_lineOf hr column p' false⟩

theorem inline_double (s : List Char) :
    ∃ t, DoubleQuoted.write s = '"' :: t ∧ Inline s false '"' t := by
  refine ⟨s.flatMap DoubleQuoted.writeChar ++ ['"'], rfl,
    fun column r => ⟨rfl, rfl, by decide, by simp⟩, by simp,
    Literal.Solid.endsWithBreak ⟨'"' :: _, '"', rfl, rfl⟩, ?_⟩
  intro floor column r p fresh hcolumn hr hp
  obtain ⟨p', hread⟩ := DoubleQuoted.read_write (p := p.next) s (Nat.succ_ne_zero _)
    (lineOf column r)
  rw [List.append_assoc]
  exact ⟨⟨lineOf column r, p', false, [], []⟩, readInlineScalar_double hread,
    Cursor.reaches_lineOf hr column p' false⟩

/-! ## 書き方の落ち着く先 -/

/-- 書き方 `style` の綴りから `s` を読み戻せる条件。 -/
def Style.Allows (s : List Char) : Style → Prop
  | .plain => allowsPlain s = true
  | .singleQuoted => allowsSingleQuotes s = true
  | .doubleQuoted => True
  | .literal => allowsLiteral s = true

theorem Style.allows_settle (s : List Char) (style : Style) : (style.settle s).Allows s := by
  cases style <;> simp only [Style.settle]
  case plain =>
    by_cases hplain : allowsPlain s = true
    · rw [if_pos hplain]
      exact hplain
    · rw [if_neg hplain]
      split
      · assumption
      · trivial
  case singleQuoted => split <;> first | assumption | trivial
  case doubleQuoted => trivial
  case literal => split <;> first | assumption | trivial

theorem Style.eq_plain_of_settle (h : style.settle s = .plain) : style = .plain := by
  cases style <;> simp only [Style.settle] at h
  case plain => rfl
  case singleQuoted => split at h <;> cases h
  case doubleQuoted => cases h
  case literal => split at h <;> cases h

/-- 値 `s` を望む書き方 `style` で書くと、裸で書かれる。 -/
def isPlain (s : List Char) (style : Style) : Bool := style.settle s == .plain

/-- 書いた綴りには、逃がさずに書ける文字しかない。 -/
theorem printable_writeScalar (indent : Nat) (s : List Char) (style : Style) :
    Printable (writeScalar indent s style) := by
  have hallows := style.allows_settle s
  rw [writeScalar]
  cases hstyle : style.settle s with rw [hstyle] at hallows
  | plain =>
      simp only [Style.Allows, allowsPlain, Bool.and_eq_true, Bool.not_eq_true'] at hallows
      exact printable_of_needsDoubleQuotes hallows.1.1.1
  | singleQuoted =>
      simp only [Style.Allows, allowsSingleQuotes, Bool.and_eq_true, Bool.not_eq_true'] at hallows
      exact .append (.cons rfl (SingleQuoted.printable_writeBody
        (printable_of_needsDoubleQuotes hallows.1) indent false)) (.singleton rfl)
  | doubleQuoted =>
      refine .append (.cons rfl fun x hx => ?_) (.singleton rfl)
      obtain ⟨c, -, hx⟩ := List.mem_flatMap.mp hx
      exact DoubleQuoted.printable_writeChar c x hx
  | literal =>
      simp only [Style.Allows, allowsLiteral, Bool.and_eq_true, Bool.not_eq_true'] at hallows
      exact Literal.printable_write (printable_of_needsDoubleQuotes hallows.1.2) indent

/-! ## 組や並びの値 -/

/-- 記号の一つ先に書かれた値は、その中身が読める限り読まれる。 -/
theorem readBlockNode_space (h : WordStart (c :: t)) (hfloor : floor ≤ p.column)
    {x : Node × Cursor}
    (hread : readBlockContent fuel floor indentless {} ⟨c :: t, p.next, fresh, [], []⟩ = .ok x) :
    readBlockNode (fuel + 1) floor indentless {} ⟨' ' :: c :: t, p, fresh, [], []⟩ = .ok x := by
  have hnext : p.next.column = p.column + 1 := rfl
  have hpresent : isAbsent floor indentless ⟨c :: t, p.next, fresh, [], []⟩ = false := by
    have hdeep : floor ≤ p.column + 1 + 1 := by omega
    have hlevel : p.column + 1 + 1 ≠ floor := by omega
    simp [isAbsent, Cursor.atEnd, Cursor.atMark, Cursor.column, hnext, hdeep, hlevel]
  rw [readBlockNode, Cursor.skipGap_space h, hpresent, hread]
  rfl

theorem Inline.readBlockNode (h : Inline s plain c t) (hcolumn : column < floor)
    (hfloor : floor ≤ p.column) (hr : WordStart r) (hcolon : r.head? ≠ some ':') :
    ∃ y, readBlockNode (fuel + 3) floor indentless {}
        ⟨' ' :: c :: (t ++ lineOf column r), p, fresh, [], []⟩ = .ok (.scalar s plain, y) ∧
      y.Reaches column r := by
  obtain ⟨y, hread, hy⟩ := h.read (p := p.next) fresh hcolumn hr (Nat.succ_ne_zero _)
  have hopens := h.opens column r
  have hkey : readKey? (fuel + 1) floor ⟨c :: (t ++ lineOf column r), p.next, fresh, [], []⟩ =
      .ok none := hopens.readKey?_eq_none hread (by simpa using hy) hcolon
  exact ⟨y, readBlockNode_space hopens.wordStart hfloor
    (hopens.readBlockContent_inline h.sign hkey hread), hy⟩

theorem readBlockNode_literal (h : allowsLiteral s = true) (hcolumn : column < floor)
    (hfloor : floor ≤ p.column) (hr : WordStart r) (hcolon : r.head? ≠ some ':') :
    ∃ y, readBlockNode (fuel + 3) floor indentless {}
        ⟨' ' :: (Layout.endLine (Literal.write (floor + 1) s) ++
          (indentation column ++ r)), p, fresh, [], []⟩ = .ok (.scalar s false, y) ∧
      y.Reaches column r := by
  have hs : s ≠ [] := by
    rintro rfl
    cases h
  have hopens (t : List Char) : Opens '|' t := ⟨rfl, rfl, by decide, by simp⟩
  obtain ⟨l, hread⟩ :=
    Literal.read_write (p := p.next.next) h (Nat.zero_lt_of_lt hcolumn) hcolumn hr
  have hnone : ∀ y ∈ (none : Option (Node × Cursor)), y.2.Reaches column r := by simp
  have hkey (t : List Char) : readKey? (fuel + 1) floor ⟨'|' :: t, p.next, fresh, [], []⟩ =
      .ok none := (hopens t).readKey?_eq_none rfl hnone hcolon
  refine ⟨⟨r, ⟨l, column⟩, true, [], []⟩, ?_, Cursor.reaches_line hr l column⟩
  rw [Literal.write_eq _ hs]
  simp only [List.cons_append, List.append_assoc]
  exact readBlockNode_space (hopens _).wordStart hfloor
    ((hopens _).readBlockContent_literal (hkey _) hread)

/-- 書いた値は、望む書き方によらず、元の文字列に読み戻せる。 -/
theorem readBlockNode_writeScalar (hs : style = .plain → s ≠ []) (hcolumn : column < floor)
    (hfloor : floor ≤ p.column) (hr : WordStart r) (hcolon : r.head? ≠ some ':') :
    ∃ y, readBlockNode (fuel + 3) floor indentless {}
        ⟨' ' :: (Layout.endLine (writeScalar (floor + 1) s style) ++ (indentation column ++ r)), p,
          fresh, [], []⟩ = .ok (.scalar s (isPlain s style), y) ∧
      y.Reaches column r := by
  have hinline {w : List Char} {plain : Bool} {c t} (hw : w = c :: t) (h : Inline s plain c t) :
      ∃ y, readBlockNode (fuel + 3) floor indentless {}
          ⟨' ' :: (Layout.endLine w ++ (indentation column ++ r)), p, fresh, [], []⟩ =
        .ok (.scalar s plain, y) ∧ y.Reaches column r := by
    have hline : Layout.endLine w ++ (indentation column ++ r) = c :: (t ++ lineOf column r) := by
      rw [hw, Layout.endLine, h.last]
      simp [lineOf]
    rw [hline]
    exact h.readBlockNode hcolumn hfloor hr hcolon
  have hallows := style.allows_settle s
  rw [writeScalar, isPlain]
  cases hstyle : style.settle s with rw [hstyle] at hallows
  | plain =>
      obtain ⟨c, t, hw, h⟩ := inline_plain hallows (hs (Style.eq_plain_of_settle hstyle))
      exact hinline hw h
  | singleQuoted =>
      obtain ⟨t, hw, h⟩ := inline_single hallows floor.succ_pos
      exact hinline hw h
  | doubleQuoted =>
      obtain ⟨t, hw, h⟩ := inline_double s
      exact hinline hw h
  | literal => exact readBlockNode_literal hallows hcolumn hfloor hr hcolon

end GroupedVariants.Yaml
