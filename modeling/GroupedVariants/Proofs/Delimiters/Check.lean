import GroupedVariants.Proofs.Delimiters

/-!
# 検査がいつ、何を咎めるか

検査は並びの初めのものを探す。並びが順序どおりなら、見つかるのは条件を満たすものの最小である。
-/

namespace GroupedVariants

/-- 順に並んだものから初めに見つかるのは、条件を満たすもののうち、前に何もないものである。 -/
theorem find?_eq_some_iff_of_pairwise {α : Type} {before : α → α → Prop} {p : α → Bool} {a : α}
    {l : List α} (hl : l.Pairwise before) (hasymm : ∀ b, before b a → ¬ before a b) :
    l.find? p = some a ↔ a ∈ l ∧ p a = true ∧ ∀ b ∈ l, before b a → p b = false := by
  rw [List.find?_eq_some_iff_append]
  constructor
  · rintro ⟨hp, earlier, later, rfl, hearlier⟩
    obtain ⟨-, htail, -⟩ := List.pairwise_append.mp hl
    refine ⟨by simp, hp, fun b hb hba => ?_⟩
    rcases List.mem_append.mp hb with hb | hb
    · simpa using hearlier b hb
    rcases List.mem_cons.mp hb with rfl | hb
    · exact absurd hba (hasymm b hba)
    · exact absurd ((List.pairwise_cons.mp htail).1 b hb) (hasymm b hba)
  · rintro ⟨ha, hp, hfirst⟩
    obtain ⟨earlier, later, rfl⟩ := List.append_of_mem ha
    obtain ⟨-, -, hcross⟩ := List.pairwise_append.mp hl
    refine ⟨hp, earlier, later, rfl, fun b hb => ?_⟩
    have hba : before b a := hcross b hb a List.mem_cons_self
    rw [hfirst b (List.mem_append_left _ hb) hba]
    rfl

namespace Role

/-- 宣言の順での位置。 -/
def position (r : Role) : Nat := all.idxOf r

def Before (r s : Role) : Prop := r.position < s.position

instance (r s : Role) : Decidable (r.Before s) := inferInstanceAs (Decidable (_ < _))

theorem Before.ne {r s : Role} (h : r.Before s) : r ≠ s := by
  rintro rfl
  exact Nat.lt_irrefl _ h

end Role

namespace Delimiters

variable {d : Delimiters}

/-- 組の並びの順。位置の辞書式の順である。 -/
def PairBefore (p q : Role × Role) : Prop := p.1.Before q.1 ∨ p.1 = q.1 ∧ p.2.Before q.2

instance (p q : Role × Role) : Decidable (PairBefore p q) := inferInstanceAs (Decidable (_ ∨ _))

/-- 語を切る文字を当てた、宣言の順で初めの役。 -/
def FirstReserved (d : Delimiters) (r : Role) : Prop :=
  Text.isBreaking (d.get r) = true ∧ ∀ s, s.Before r → Text.isBreaking (d.get s) = false

/-- 同じ文字を当てた、初めの組。 -/
def FirstCollision (d : Delimiters) (r s : Role) : Prop :=
  r.Before s ∧ d.get r = d.get s ∧
    ∀ r' s', r'.Before s' → PairBefore (r', s') (r, s) → d.get r' ≠ d.get s'

theorem pairwise_all : Role.all.Pairwise Role.Before := by decide

theorem mem_rolePairs_iff {r s : Role} : (r, s) ∈ rolePairs ↔ r.Before s := by
  cases r <;> cases s <;> decide

theorem pairwise_rolePairs : rolePairs.Pairwise PairBefore := by decide

theorem firstReserved_eq_some_iff {r : Role} : d.firstReserved = some r ↔ d.FirstReserved r := by
  rw [firstReserved, find?_eq_some_iff_of_pairwise pairwise_all fun s h h' => Nat.lt_asymm h h']
  simp [FirstReserved, Role.mem_all]

theorem not_pairBefore {p q : Role × Role} (h : PairBefore p q) : ¬ PairBefore q p := by
  obtain ⟨r, s⟩ := p
  obtain ⟨r', s'⟩ := q
  rintro h'
  rcases h with h | ⟨rfl, h⟩ <;> rcases h' with h' | ⟨he, h'⟩
  · exact Nat.lt_asymm h h'
  · exact absurd (he ▸ h) (Nat.lt_irrefl _)
  · exact absurd h' (Nat.lt_irrefl _)
  · exact Nat.lt_asymm h h'

theorem firstCollision_eq_some_iff {r s : Role} :
    d.firstCollision = some (r, s) ↔ d.FirstCollision r s := by
  rw [firstCollision,
    find?_eq_some_iff_of_pairwise pairwise_rolePairs fun p h => not_pairBefore h]
  simp [FirstCollision, mem_rolePairs_iff]

theorem firstReserved_eq_none_iff :
    d.firstReserved = none ↔ ∀ r, Text.isBreaking (d.get r) = false := by
  simp [firstReserved, Role.mem_all]

theorem check_eq_ok_iff : d.check = .ok () ↔ d.Usable := by
  refine ⟨.of_check, fun h => ?_⟩
  have hcollision : d.firstCollision = none := by
    refine List.find?_eq_none.mpr fun p hp => ?_
    have hne : p.1 ≠ p.2 := (mem_rolePairs_iff.mp hp).ne
    simpa using h.distinct _ _ hne
  unfold check
  rw [firstReserved_eq_none_iff.mpr h.solid, hcollision]

theorem check_eq_error_iff {e : Fault} :
    d.check = .error e ↔
      (∃ r, d.FirstReserved r ∧ e = .reserved r (d.get r)) ∨
        (∀ r, Text.isBreaking (d.get r) = false) ∧
          ∃ r s, d.FirstCollision r s ∧ e = .collision r s (d.get r) := by
  simp only [← firstReserved_eq_some_iff, ← firstReserved_eq_none_iff, ← firstCollision_eq_some_iff]
  unfold check
  cases hr : d.firstReserved with
  | some r => simp [eq_comm (a := e)]
  | none =>
      cases hc : d.firstCollision with
      | some p =>
          obtain ⟨r, s⟩ := p
          simp [and_assoc, eq_comm (a := e)]
      | none => simp

end Delimiters

end GroupedVariants
