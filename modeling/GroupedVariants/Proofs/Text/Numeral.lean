import GroupedVariants.Text.Numeral

/-!
# 綴った数は、元の数に読み戻せる
-/

namespace GroupedVariants.Text

variable {n base width : Nat} {c : Char}

theorem isDigit_digit : n < 10 → isDigit (digit n) = true := by
  have h : ∀ m < 10, isDigit (digit m) = true := by decide
  exact h n

theorem exists_eq_digit (h : isDigit c = true) : ∃ m < 10, c = digit m := by
  obtain ⟨hlo, hhi⟩ : 48 ≤ c.toNat ∧ c.toNat ≤ 57 := by
    simpa [isDigit, Char.le_def, UInt32.le_iff_toNat_le] using h
  refine ⟨c.toNat - 48, by omega, ?_⟩
  have hsum : 48 + (c.toNat - 48) = c.toNat := by omega
  rw [digit, if_pos (by omega), hsum, Char.ofNat_toNat]

theorem digitValue?_digit (hb : base ≤ 16) (h : n < base) :
    digitValue? base (digit n) = some n := by
  have hall : ∀ b < 17, ∀ m < b, digitValue? b (digit m) = some m := by decide
  exact hall base (by omega) n h

theorem digit_ne_zero : 0 < n → n < 10 → digit n ≠ '0' := by
  have h : ∀ m < 10, 0 < m → digit m ≠ '0' := by decide
  exact fun hpos hlt => h n hlt hpos

/-! ## 桁を並べた綴り -/

theorem numeral_of_lt (h : n < base) : numeral base n = [digit n] := by
  rw [numeral, if_pos (.inl h)]

theorem numeral_of_le (hb : 2 ≤ base) (h : base ≤ n) :
    numeral base n = numeral base (n / base) ++ [digit (n % base)] := by
  rw [numeral, if_neg (by omega)]

theorem numeral_ne_nil (base n : Nat) : numeral base n ≠ [] := by
  rw [numeral]
  split <;> simp

/-- 一桁を読み足す。 -/
def accumulate (base : Nat) (acc : Option Nat) (c : Char) : Option Nat := do
  return (← acc) * base + (← digitValue? base c)

theorem natOf?_eq_foldl {s : List Char} (h : s ≠ []) :
    natOf? base s = s.foldl (accumulate base) (some 0) := by
  rw [natOf?, if_neg (by simpa using h)]
  rfl

theorem foldl_accumulate_numeral (hb : 2 ≤ base) (hb' : base ≤ 16) (n : Nat) :
    (numeral base n).foldl (accumulate base) (some 0) = some n := by
  induction n using Nat.strongRecOn with
  | ind n ih =>
      rcases Nat.lt_or_ge n base with h | h
      · rw [numeral_of_lt h]
        simp [accumulate, digitValue?_digit hb' h]
      · have hdigit : digitValue? base (digit (n % base)) = some (n % base) :=
          digitValue?_digit hb' (Nat.mod_lt n (by omega))
        rw [numeral_of_le hb h, List.foldl_append,
          ih (n / base) (Nat.div_lt_self (by omega) (by omega))]
        simp only [List.foldl_cons, List.foldl_nil, accumulate, hdigit, Option.bind_eq_bind,
          Option.bind_some, Option.pure_def, Option.some.injEq]
        exact Nat.div_add_mod' n base

/-! ## 十進の綴り -/

theorem decimal_of_lt (h : n < 10) : decimal n = [digit n] := numeral_of_lt h

theorem decimal_of_le (h : 10 ≤ n) : decimal n = decimal (n / 10) ++ [digit (n % 10)] :=
  numeral_of_le (by decide) h

theorem decimal_ne_nil (n : Nat) : decimal n ≠ [] := numeral_ne_nil 10 n

theorem isDigit_of_mem_decimal (n : Nat) : ∀ c ∈ decimal n, isDigit c = true := by
  induction n using Nat.strongRecOn with
  | ind n ih =>
      intro c hc
      rcases Nat.lt_or_ge n 10 with h | h
      · rw [decimal_of_lt h, List.mem_singleton] at hc
        rw [hc]
        exact isDigit_digit h
      · rw [decimal_of_le h, List.mem_append, List.mem_singleton] at hc
        rcases hc with hc | rfl
        · exact ih (n / 10) (by omega) c hc
        · exact isDigit_digit (by omega)

/-- 零のほかは、零から始まらない。 -/
theorem head?_decimal_ne_zero (hn : 0 < n) : (decimal n).head? ≠ some '0' := by
  induction n using Nat.strongRecOn with
  | ind n ih =>
      rcases Nat.lt_or_ge n 10 with h | h
      · rw [decimal_of_lt h]
        simpa using digit_ne_zero hn h
      · obtain ⟨c, s, hs⟩ := List.exists_cons_of_ne_nil (decimal_ne_nil (n / 10))
        have hhead : (decimal n).head? = (decimal (n / 10)).head? := by
          rw [decimal_of_le h, hs]
          rfl
        rw [hhead]
        exact ih (n / 10) (by omega) (by omega)

theorem natOf?_decimal (n : Nat) : natOf? 10 (decimal n) = some n := by
  rw [natOf?_eq_foldl (decimal_ne_nil n)]
  exact foldl_accumulate_numeral (by decide) (by decide) n

/-! ## 桁を揃えた十六進の綴り -/

theorem exists_digit_of_mem_numeral (hb : 2 ≤ base) (h : c ∈ numeral base n) :
    ∃ m < base, c = digit m := by
  induction n using Nat.strongRecOn with
  | ind n ih =>
      rcases Nat.lt_or_ge n base with hn | hn
      · rw [numeral_of_lt hn, List.mem_singleton] at h
        exact ⟨n, hn, h⟩
      · rw [numeral_of_le hb hn, List.mem_append, List.mem_singleton] at h
        rcases h with h | h
        · exact ih (n / base) (Nat.div_lt_self (by omega) (by omega)) h
        · exact ⟨n % base, Nat.mod_lt n (by omega), h⟩

theorem length_numeral_le (hb : 2 ≤ base) (hw : 0 < width) (h : n < Nat.pow base width) :
    (numeral base n).length ≤ width := by
  induction width generalizing n with
  | zero => exact absurd hw (Nat.lt_irrefl 0)
  | succ width ih =>
      rcases Nat.lt_or_ge n base with hn | hn
      · rw [numeral_of_lt hn, List.length_singleton]
        exact hw
      · have hpow : n < base * Nat.pow base width := Nat.mul_comm _ base ▸ h
        have hquotient : n / base < Nat.pow base width := Nat.div_lt_of_lt_mul hpow
        have hwidth : 0 < width := by
          rcases Nat.eq_zero_or_pos width with rfl | hpos
          · have hone : Nat.pow base (0 + 1) = base := Nat.pow_one base
            rw [hone] at h
            exact absurd h (Nat.not_lt.mpr hn)
          · exact hpos
        rw [numeral_of_le hb hn, List.length_append, List.length_singleton]
        exact Nat.succ_le_succ (ih hwidth hquotient)

theorem length_hexPadded (hw : 0 < width) (h : n < Nat.pow 16 width) :
    (hexPadded width n).length = width := by
  have hle : (hex n).length ≤ width := length_numeral_le (by decide) hw h
  rw [hexPadded, List.length_append, List.length_replicate]
  exact Nat.sub_add_cancel hle

theorem exists_digit_of_mem_hexPadded (h : c ∈ hexPadded width n) : ∃ m < 16, c = digit m := by
  rcases List.mem_append.mp h with h | h
  · exact ⟨0, by decide, List.eq_of_mem_replicate h⟩
  · exact exists_digit_of_mem_numeral (by decide) h

/-- 頭の零は値を変えない。 -/
theorem foldl_accumulate_replicate_zero (k : Nat) :
    (List.replicate k '0').foldl (accumulate 16) (some 0) = some 0 := by
  have hzero : accumulate 16 (some 0) '0' = some 0 := by decide
  induction k with
  | zero => rfl
  | succ k ih => rw [List.replicate_succ, List.foldl_cons, hzero, ih]

theorem foldl_accumulate_hexPadded (width n : Nat) :
    (hexPadded width n).foldl (accumulate 16) (some 0) = some n := by
  rw [hexPadded, List.foldl_append, foldl_accumulate_replicate_zero]
  exact foldl_accumulate_numeral (by decide) (by decide) n

theorem hexPadded_ne_nil (width n : Nat) : hexPadded width n ≠ [] :=
  List.append_ne_nil_of_right_ne_nil _ (numeral_ne_nil 16 n)

theorem natOf?_hexPadded (width n : Nat) : natOf? 16 (hexPadded width n) = some n := by
  rw [natOf?_eq_foldl (hexPadded_ne_nil width n), foldl_accumulate_hexPadded]

end GroupedVariants.Text
