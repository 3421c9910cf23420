import GroupedVariants.Text.Parts
import Mathlib.Data.List.TakeWhile

/-!
# 区切りの間の部分と、前後の空白を除いた残り
-/

namespace GroupedVariants.Text

/-! ## 切り分け -/

section Split

variable {separator : Char} {s part : List Char} {parts : List (List Char)}

theorem split_eq_splitOn (separator : Char) (s : List Char) :
    split separator s = s.splitOn separator := by
  induction s with
  | nil => rfl
  | cons c s ih =>
      rw [split, List.splitOn_cons_eq_if_modifyHead, ih]
      simp only [beq_iff_eq]
      split
      · rfl
      · cases h : s.splitOn separator with
        | nil => exact absurd h (List.splitOn_ne_nil separator s)
        | cons part parts => rfl

theorem split_intercalate (h : ∀ part ∈ parts, separator ∉ part) (hne : parts ≠ []) :
    split separator (List.intercalate [separator] parts) = parts := by
  rw [split_eq_splitOn, List.splitOn_intercalate separator h hne]

theorem separator_not_mem_of_mem_split (h : part ∈ split separator s) : separator ∉ part := by
  induction s generalizing part with
  | nil =>
      obtain rfl := List.mem_singleton.mp h
      exact List.not_mem_nil
  | cons c s ih =>
      rw [split] at h
      split at h
      next =>
        rcases List.mem_cons.mp h with rfl | h
        · exact List.not_mem_nil
        · exact ih h
      next hc =>
        cases hs : split separator s with
        | nil =>
            rw [hs] at h
            obtain rfl := List.mem_singleton.mp h
            exact fun hmem => hc (List.mem_singleton.mp hmem).symm
        | cons first rest =>
            rw [hs] at h ih
            rcases List.mem_cons.mp h with rfl | h
            · intro hmem
              rcases List.mem_cons.mp hmem with heq | hmem
              · exact hc heq.symm
              · exact ih List.mem_cons_self hmem
            · exact ih (List.mem_cons_of_mem _ h)

end Split

/-! ## 前後の空白 -/

theorem dropWhile_eq_iff {α : Type} {p : α → Bool} {s t : List α} :
    s.dropWhile p = t ↔
      ∃ before, s = before ++ t ∧ (∀ a ∈ before, p a = true) ∧ ∀ a ∈ t.head?, p a = false := by
  constructor
  · rintro rfl
    refine ⟨s.takeWhile p, List.takeWhile_append_dropWhile.symm,
      fun a ha => List.mem_takeWhile_imp ha, fun a ha => ?_⟩
    have hhead := List.head?_dropWhile_not p s
    rwa [Option.mem_def.mp ha] at hhead
  · rintro ⟨before, rfl, hbefore, ht⟩
    rw [List.dropWhile_append_of_pos hbefore]
    cases t with
    | nil => rfl
    | cons a t => exact List.dropWhile_cons_of_neg (by simpa using ht a rfl)

variable {s t : List Char}

theorem trimEnd_eq_iff :
    trimEnd s = t ↔
      ∃ after, s = t ++ after ∧ (∀ c ∈ after, isBlank c = true) ∧
        ∀ c ∈ t.getLast?, isBlank c = false := by
  rw [trimEnd, List.reverse_eq_iff, dropWhile_eq_iff, List.head?_reverse]
  constructor
  · rintro ⟨before, hs, hbefore, ht⟩
    refine ⟨before.reverse, ?_, fun c hc => hbefore c (List.mem_reverse.mp hc), ht⟩
    simpa using congrArg List.reverse hs
  · rintro ⟨after, rfl, hafter, ht⟩
    exact ⟨after.reverse, List.reverse_append, fun c hc => hafter c (List.mem_reverse.mp hc), ht⟩

theorem trimStart_append {before : List Char} {c : Char} (hc : isBlank c = false)
    (hbefore : ∀ b ∈ before, isBlank b = true) (after : List Char) :
    trimStart (before ++ c :: after) = c :: after :=
  dropWhile_eq_iff.mpr ⟨before, rfl, hbefore, fun a ha => by
    obtain rfl := Option.some.inj ha
    exact hc⟩

theorem trimStart_eq_nil_of_trim (h : trim s = []) : trimStart s = [] := by
  rw [trim, trimEnd_eq_iff] at h
  obtain ⟨after, hafter, hblank, -⟩ := h
  obtain ⟨before, -, -, hhead⟩ := dropWhile_eq_iff.mp hafter
  cases after with
  | nil => exact hafter
  | cons c after =>
      have hc := hblank c List.mem_cons_self
      rw [hhead c rfl] at hc
      cases hc

/-- 空白の間の、空白で始まらず空白で終わらない綴りが残る。 -/
theorem trim_eq_iff (hne : t ≠ []) :
    trim s = t ↔
      ∃ before after, s = before ++ (t ++ after) ∧ (∀ c ∈ before, isBlank c = true) ∧
        (∀ c ∈ after, isBlank c = true) ∧ (∀ c ∈ t.head?, isBlank c = false) ∧
        ∀ c ∈ t.getLast?, isBlank c = false := by
  have hhead (after : List Char) : (t ++ after).head? = t.head? := by
    obtain ⟨c, u, rfl⟩ := List.exists_cons_of_ne_nil hne
    rfl
  rw [trim, trimEnd_eq_iff]
  constructor
  · rintro ⟨after, hstart, hafter, hlast⟩
    obtain ⟨before, hs, hbefore, hfirst⟩ := dropWhile_eq_iff.mp hstart
    exact ⟨before, after, hs, hbefore, hafter, hhead after ▸ hfirst, hlast⟩
  · rintro ⟨before, after, hs, hbefore, hafter, hfirst, hlast⟩
    refine ⟨after, ?_, hafter, hlast⟩
    exact dropWhile_eq_iff.mpr ⟨before, hs, hbefore, (hhead after).symm ▸ hfirst⟩

end GroupedVariants.Text
