import GroupedVariants.Yaml.Scalar

/-!
# 逃がさずに書ける文字

書いた文書はこれらの文字だけからなり、読む前に変わることも拒まれることもない。
-/

namespace GroupedVariants.Yaml

variable {c : Char} {s t : List Char}

def Printable (s : List Char) : Prop := ∀ c ∈ s, isPrintable c = true

/-! ## 一文字 -/

theorem isAllowed_of_isPrintable (h : isPrintable c = true) : isAllowed c = true := by
  simp only [isPrintable, isAllowed, Bool.or_eq_true, Bool.and_eq_true, beq_iff_eq, bne_iff_ne,
    decide_eq_true_eq] at h ⊢
  omega

theorem ne_of_isPrintable {x : Char} (h : isPrintable c = true) (hx : isPrintable x = false) :
    c ≠ x := by
  rintro rfl
  rw [h] at hx
  cases hx

theorem isInlineBlank_of_isPrintable (h : isPrintable c = true) : isInlineBlank c = isSpace c := by
  have htab : c ≠ '\t' := ne_of_isPrintable h (by decide)
  simp [isInlineBlank, isSpace, htab]

theorem isInlineBlank_of_isBreak (h : isBreak c = true) : isInlineBlank c = false := by
  simp only [isBreak, Bool.or_eq_true, beq_iff_eq] at h
  rcases h with (rfl | rfl) | rfl <;> rfl

theorem ne_of_isBreak {x : Char} (h : isBreak c = true) (hx : isBreak x = false) : c ≠ x := by
  rintro rfl
  rw [h] at hx
  cases hx

/-! ## 文字の並び -/

namespace Printable

theorem nil : Printable [] := by simp [Printable]

theorem cons (hc : isPrintable c = true) (hs : Printable s) : Printable (c :: s) := by
  intro x hx
  rcases List.mem_cons.mp hx with rfl | hx
  · exact hc
  · exact hs x hx

theorem singleton (h : isPrintable c = true) : Printable [c] := .cons h .nil

theorem append (hs : Printable s) (ht : Printable t) : Printable (s ++ t) := by
  intro x hx
  rcases List.mem_append.mp hx with hx | hx
  · exact hs x hx
  · exact ht x hx

theorem head (h : Printable (c :: s)) : isPrintable c = true := h c List.mem_cons_self

theorem tail (h : Printable (c :: s)) : Printable s := fun x hx => h x (List.mem_cons_of_mem c hx)

theorem indentation (n : Nat) : Printable (SingleQuoted.indentation n) := by
  intro x hx
  rw [List.eq_of_mem_replicate hx]
  rfl

theorem allowed (h : Printable s) : s.all isAllowed = true :=
  List.all_eq_true.mpr fun c hc => isAllowed_of_isPrintable (h c hc)

/-- 揃える改行がない。 -/
theorem unifyBreaks_eq (h : Printable s) : unifyBreaks s = s := by
  induction s with
  | nil => rfl
  | cons c s ih =>
      have hreturn : c ≠ '\r' := ne_of_isPrintable h.head (by decide)
      have hnext : c ≠ '\u0085' := ne_of_isPrintable h.head (by decide)
      rw [unifyBreaks.eq_def]
      split
      · rename_i heq
        cases heq
      · rename_i heq
        exact absurd (List.cons.inj heq).1 hreturn
      · rename_i heq
        obtain ⟨rfl, rfl⟩ := List.cons.inj heq
        simp [hreturn, hnext, ih h.tail]

end Printable

theorem printable_of_needsDoubleQuotes (h : needsDoubleQuotes s = false) : Printable s := by
  simp only [needsDoubleQuotes, Bool.or_eq_false_iff, List.any_eq_false] at h
  intro c hc
  simpa using h.1 c hc

/-! ## 隣り合う文字 -/

section Adjacent

variable {p q : Char → Bool}

theorem hasAdjacent_tail (h : hasAdjacent p q (c :: s) = false) : hasAdjacent p q s = false := by
  cases s with
  | nil => rfl
  | cons d s =>
      rw [hasAdjacent, Bool.or_eq_false_iff] at h
      exact h.2

/-- `p` を満たす文字の次は `q` を満たさない。 -/
theorem not_of_hasAdjacent (h : hasAdjacent p q (c :: s) = false) (hc : p c = true) :
    ∀ d ∈ s.head?, q d = false := by
  cases s with
  | nil => simp
  | cons d s =>
      rw [hasAdjacent, Bool.or_eq_false_iff, hc, Bool.true_and] at h
      simpa using h.1

end Adjacent

/-! ## 次の行 -/

/-- 空白でも改行でも注釈でもない語から始まるか、文の終わりである。 -/
def WordStart (s : List Char) : Prop :=
  ∀ c ∈ s.head?, isInlineBlank c = false ∧ isBreak c = false ∧ c ≠ '#' ∧ c ≠ '\ufeff'

/-- 字下げした次の行。 -/
def lineOf (column : Nat) (s : List Char) : List Char :=
  '\n' :: (SingleQuoted.indentation column ++ s)

theorem Position.skip_next (p : Position) (n : Nat) : p.next.skip n = p.skip (n + 1) := by
  simp only [next, skip, Nat.add_assoc, Nat.add_comm 1 n]

end GroupedVariants.Yaml
