import GroupedVariants.Proofs.Scan.Opening

/-!
# 範囲の数

見つかる範囲はどれも自身の開き文字と閉じ文字を持ち、範囲は重ならない。その数は、変種の文字の直後に開き文字が来る
所の数も、閉じ文字の数も超えない。
-/

namespace GroupedVariants

open Text

/-! ## 開く所の数 -/

namespace Delimiters

variable {d : Delimiters}

/-- 変種の文字の直後に開き文字が来る所の数。 -/
def openings (d : Delimiters) (text : List Char) : Nat :=
  (text.zip text.tail).count (d.variant, d.opening)

@[simp] theorem openings_nil (d : Delimiters) : d.openings [] = 0 := rfl

@[simp] theorem openings_singleton (d : Delimiters) (c : Char) : d.openings [c] = 0 := rfl

theorem openings_cons_cons (d : Delimiters) (c e : Char) (s : List Char) :
    d.openings (c :: e :: s) =
      d.openings (e :: s) + if c = d.variant ∧ e = d.opening then 1 else 0 := by
  simp [openings, List.count_cons]

theorem openings_append (d : Delimiters) (s t : List Char) :
    d.openings (s ++ t) = d.openings s + d.openings t +
      if s.getLast? = some d.variant ∧ t.head? = some d.opening then 1 else 0 := by
  induction s with
  | nil => simp
  | cons c s ih =>
      cases s with
      | nil =>
          cases t with
          | nil => simp
          | cons e t => simp [openings_cons_cons]
      | cons e s =>
          rw [List.cons_append, List.cons_append, openings_cons_cons, openings_cons_cons,
            List.getLast?_cons_cons, ← List.cons_append, ih]
          omega

theorem openings_append_le (d : Delimiters) (s t : List Char) :
    d.openings s + d.openings t ≤ d.openings (s ++ t) := by
  rw [openings_append]
  exact Nat.le_add_right _ _

theorem openings_pos (d : Delimiters) (word rest : List Char) :
    0 < d.openings (word ++ d.variant :: d.opening :: rest) := by
  have hpair : 0 < d.openings (d.variant :: d.opening :: rest) := by simp [openings_cons_cons]
  have happend := d.openings_append_le word (d.variant :: d.opening :: rest)
  omega

theorem openings_eq_zero_iff {text : List Char} :
    d.openings text = 0 ↔ ¬ [d.variant, d.opening] <:+: text := by
  constructor
  · rintro h ⟨word, rest, rfl⟩
    have hpos := d.openings_pos word rest
    rw [List.append_assoc] at h
    exact absurd h (Nat.ne_of_gt hpos)
  · intro h
    induction text with
    | nil => rfl
    | cons c s ih =>
        have hs := ih fun hs => h (List.infix_cons hs)
        cases s with
        | nil => rfl
        | cons e s =>
            have hne : ¬ (c = d.variant ∧ e = d.opening) := by
              rintro ⟨rfl, rfl⟩
              exact h ⟨[], s, rfl⟩
            rw [openings_cons_cons, hs, if_neg hne]

end Delimiters

/-! ## 並んだ範囲の数 -/

namespace Spans

variable {d : Delimiters} {closing : Char} {cursor : Nat} {ms : List Match} {rest : List Char}

theorem length_le_count (h : Spans closing cursor ms rest) : ms.length ≤ rest.count closing := by
  induction h with
  | nil cursor rest => exact Nat.zero_le _
  | cons gap body rest hstart hstop _ ih =>
      simp only [List.length_cons, List.count_append, List.count_cons_self]
      omega

theorem length_le_openings (h : Spans closing cursor ms rest) (before : List Char)
    (hb : byteLength before = cursor) (ho : ∀ m ∈ ms, m.Opened d (before ++ rest)) :
    ms.length ≤ d.openings rest := by
  induction h generalizing before with
  | nil cursor rest => exact Nat.zero_le _
  | @cons cursor m ms gap body rest hstart hstop _ ih =>
      obtain ⟨⟨lead, hopens, -⟩, hrest⟩ := List.forall_mem_cons.mp ho
      have hnext : byteLength (before ++ (gap ++ (body ++ [closing]))) = _ :=
        byteLength_span gap body hb hstart hstop
      have hlater : ms.length ≤ d.openings rest := ih _ hnext (by simpa using hrest)
      -- 開いた所は、この範囲の閉じ文字より手前の綴りにある。
      have hbody : 0 < d.openings body := by
        rw [← List.append_assoc, hstop,
          show m.start = byteLength (before ++ gap) by rw [byteLength_append, hb, hstart]] at hopens
        obtain ⟨word, more, rfl⟩ := hopens.exists_body
        exact d.openings_pos word more
      have hgap := d.openings_append_le gap (body ++ closing :: rest)
      have hsplit := d.openings_append_le body (closing :: rest)
      have hclose := d.openings_append_le [closing] rest
      simp only [List.length_cons, List.singleton_append] at hclose ⊢
      omega

end Spans

namespace Delimiters

variable {d : Delimiters} {text : List Char}

theorem length_findMatches_le_openings (d : Delimiters) (text : List Char) :
    (d.findMatches text).length ≤ d.openings text :=
  (d.spans_findMatches text).length_le_openings [] rfl fun _ hm => opened_of_mem_findMatches hm

theorem findMatches_eq_nil (h : ¬ [d.variant, d.opening] <:+: text ∨ d.closing ∉ text) :
    d.findMatches text = [] := by
  rw [← List.length_eq_zero_iff, ← Nat.le_zero]
  rcases h with h | h
  · exact openings_eq_zero_iff.mpr h ▸ d.length_findMatches_le_openings text
  · exact List.count_eq_zero_of_not_mem h ▸ (d.spans_findMatches text).length_le_count

end Delimiters

namespace Transformer

theorem unchanged_of_findMatches_eq_nil (t : Transformer) {text : List Char}
    (h : t.findMatches text = []) : t.rewrite? text = none ∧ t.expand text = text := by
  have hnone : t.rewrite? text = none := (t.delimiters.rewrite?_eq_none_iff text).mpr h
  exact ⟨hnone, by rw [expand_eq_getD, hnone]; rfl⟩

/-- 見つかる範囲はどれも自身の開く所と閉じ文字を持ち、その数を超えて見つかることはない。どちらかを欠く文は変わらない。 -/
theorem findMatches_opened (t : Transformer) (text : List Char) :
    (∀ m ∈ t.findMatches text, m.Opened t.delimiters text) ∧
      (t.findMatches text).length ≤ t.delimiters.openings text ∧
      (t.findMatches text).length ≤ text.count t.delimiters.closing ∧
      (¬ [t.delimiters.variant, t.delimiters.opening] <:+: text ∨ t.delimiters.closing ∉ text →
        t.rewrite? text = none ∧ t.expand text = text) ∧
      (¬ [t.delimiters.variant, t.delimiters.opening] <:+: t.expand text →
        t.rewrite? (t.expand text) = none ∧ t.expand (t.expand text) = t.expand text) := by
  refine ⟨fun m hm => Delimiters.opened_of_mem_findMatches hm,
    t.delimiters.length_findMatches_le_openings text,
    (t.delimiters.spans_findMatches text).length_le_count, fun h => ?_, fun h => ?_⟩
  · exact t.unchanged_of_findMatches_eq_nil (Delimiters.findMatches_eq_nil h)
  · exact t.unchanged_of_findMatches_eq_nil (Delimiters.findMatches_eq_nil (.inl h))

/-- 閉じ文字のない文は変わらない。子を持つ群は一度で展開され、展開に続く開き文字は群を開かない。 -/
theorem findMatches_opened_nested :
    let unclosed := "a:(b:(c,é".toList
    let nested := "x é:(b,c:(d))(e) f:g".toList
    default.delimiters.closing ∉ unclosed ∧ default.rewrite? unclosed = none ∧
      default.expand nested = "x é:b é:c:d(e) f:g".toList ∧
      ¬ [default.delimiters.variant, default.delimiters.opening] <:+: default.expand nested ∧
      default.expand (default.expand nested) = default.expand nested := by
  intro unclosed nested
  have hunclosed : default.delimiters.closing ∉ unclosed := by decide
  have hnested : ¬ [default.delimiters.variant, default.delimiters.opening] <:+:
      default.expand nested := Delimiters.openings_eq_zero_iff.mp (by decide)
  obtain ⟨-, -, -, hnone, -⟩ := default.findMatches_opened unclosed
  obtain ⟨-, -, -, -, hagain⟩ := default.findMatches_opened nested
  exact ⟨hunclosed, (hnone (.inr hunclosed)).1, by decide, hnested, (hagain hnested).2⟩

end Transformer

end GroupedVariants
