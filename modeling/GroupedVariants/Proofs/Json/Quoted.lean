import GroupedVariants.Json.Quoted
import GroupedVariants.Proofs.Text.Numeral

/-!
# 文字列の綴りは、元の文字列に読み戻せる
-/

namespace GroupedVariants.Json

/-! ## 一文字 -/

/-- 文字 `c` の綴りの形。そのまま書くか、一文字か四桁の番号で逃がす。 -/
inductive Spelling (c : Char) : List Char → Prop
  | plain (hq : c ≠ '"') (hb : c ≠ '\\') (hc : ¬ c.toNat < 0x20) : Spelling c [c]
  | short (e : Char) (h : shortEscape? e = some c) : Spelling c ['\\', e]
  | code (h₁ h₂ h₃ h₄ : Char) (h : hex4? h₁ h₂ h₃ h₄ = some c.toNat) (hc : c.toNat < 0x20) :
      Spelling c ['\\', 'u', h₁, h₂, h₃, h₄]

theorem spelling_encodeChar (c : Char) : Spelling c (encodeChar c) := by
  have hshort {e : Char} (x : Char) (h : c = x) (hx : shortEscape? e = some x) :
      Spelling c ['\\', e] := .short e (h ▸ hx)
  simp only [encodeChar, beq_iff_eq]
  split
  · exact hshort '"' ‹_› rfl
  rename_i hquote
  split
  · exact hshort '\\' ‹_› rfl
  rename_i hslash
  split
  · exact hshort '\x08' ‹_› rfl
  split
  · exact hshort '\t' ‹_› rfl
  split
  · exact hshort '\n' ‹_› rfl
  split
  · exact hshort '\x0c' ‹_› rfl
  split
  · exact hshort '\r' ‹_› rfl
  split
  · rename_i hc
    have hcode := Text.natOf?_hexPadded 4 c.toNat
    have hlength : (Text.hexPadded 4 c.toNat).length = 4 :=
      Text.length_hexPadded (by decide) (Nat.lt_trans hc (by decide))
    match Text.hexPadded 4 c.toNat, hlength, hcode with
    | [h₁, h₂, h₃, h₄], _, hcode => exact .code h₁ h₂ h₃ h₄ hcode hc
  · rename_i hc
    exact .plain hquote hslash hc

variable {c : Char} {s : List Char}

theorem Spelling.decode_append (h : Spelling c s) (r : List Char) :
    decode (s ++ r) = (decode r).map (c :: ·) := by
  cases h with
  | plain hq hb hc =>
      rw [List.singleton_append, decode.eq_def]
      split <;> simp_all
  | short e h =>
      have hu : e ≠ 'u' := by
        rintro rfl
        cases h
      rw [decode.eq_def]
      simp [h, hu]
  | code h₁ h₂ h₃ h₄ h hc =>
      have hhigh : isHighSurrogate c.toNat = false := by
        simp [isHighSurrogate]
        omega
      have hlow : isLowSurrogate c.toNat = false := by
        simp [isLowSurrogate]
        omega
      simp [decode, h, hhigh, hlow, Char.ofNat_toNat]

theorem Spelling.splitQuoted_append (h : Spelling c s) (r : List Char) :
    splitQuoted (s ++ r) = (splitQuoted r).map fun p => (s ++ p.1, p.2) := by
  cases h with
  | plain hq hb hc =>
      rw [List.singleton_append, splitQuoted.eq_def]
      split <;> grind
  | short e h =>
      have hu : e ≠ 'u' := by
        rintro rfl
        cases h
      rw [splitQuoted.eq_def]
      simp [h, hu]
  | code h₁ h₂ h₃ h₄ h hc => simp [splitQuoted, h]

/-! ## 文字列 -/

theorem decode_encode (s : List Char) : decode (encode s) = some s := by
  induction s with
  | nil => simp [encode, decode]
  | cons c s ih =>
      rw [encode, List.flatMap_cons, (spelling_encodeChar c).decode_append]
      rw [encode] at ih
      rw [ih]
      rfl

theorem splitQuoted_encode (s r : List Char) :
    splitQuoted (encode s ++ '"' :: r) = some (encode s, r) := by
  induction s with
  | nil => simp [encode, splitQuoted]
  | cons c s ih =>
      rw [encode, List.flatMap_cons, List.append_assoc, (spelling_encodeChar c).splitQuoted_append]
      rw [encode] at ih
      rw [ih]
      rfl

end GroupedVariants.Json
