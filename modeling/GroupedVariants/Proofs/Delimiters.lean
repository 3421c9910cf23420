import GroupedVariants.Delimiters

/-!
# 検査を通った区切り文字の性質
-/

namespace GroupedVariants

theorem Role.mem_all (r : Role) : r ∈ Role.all := by
  cases r <;> decide

namespace Delimiters

theorem mem_rolePairs {r s : Role} (h : r ≠ s) : (r, s) ∈ rolePairs ∨ (s, r) ∈ rolePairs := by
  cases r <;> cases s <;> first | exact absurd rfl h | decide

/-- 四つとも語を切らず、役が違えば文字も違う。 -/
structure Usable (d : Delimiters) : Prop where
  solid : ∀ r, Text.isBreaking (d.get r) = false
  distinct : ∀ r s, r ≠ s → d.get r ≠ d.get s

theorem Usable.of_check {d : Delimiters} (h : d.check = .ok ()) : d.Usable := by
  unfold check at h
  cases hr : d.firstReserved with
  | some r => simp [hr] at h
  | none =>
      cases hc : d.firstCollision with
      | some p => simp [hr, hc] at h
      | none =>
          have solid := List.find?_eq_none.mp hr
          have apart := List.find?_eq_none.mp hc
          refine ⟨fun r => by simpa using solid r r.mem_all, fun r s hrs heq => ?_⟩
          rcases mem_rolePairs hrs with hp | hp
          · exact apart _ hp (by simp [heq])
          · exact apart _ hp (by simp [heq])

/-! ## 役ごとの文字の言葉で -/

namespace Usable

variable {d : Delimiters} (h : d.Usable)
include h

theorem variant_solid : Text.isBreaking d.variant = false := h.solid .variant

theorem opening_solid : Text.isBreaking d.opening = false := h.solid .opening

theorem closing_solid : Text.isBreaking d.closing = false := h.solid .closing

theorem separator_solid : Text.isBreaking d.separator = false := h.solid .separator

theorem variant_ne_opening : d.variant ≠ d.opening := h.distinct .variant .opening (by decide)

theorem variant_ne_closing : d.variant ≠ d.closing := h.distinct .variant .closing (by decide)

theorem variant_ne_separator : d.variant ≠ d.separator := h.distinct .variant .separator (by decide)

theorem closing_ne_separator : d.closing ≠ d.separator := h.distinct .closing .separator (by decide)

end Usable

end Delimiters

end GroupedVariants
