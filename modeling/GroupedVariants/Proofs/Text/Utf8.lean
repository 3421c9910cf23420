/-!
# 文と、その UTF-8 のバイト列
-/

namespace GroupedVariants.Text

variable {bytes : ByteArray} {text : List Char}

/-- バイト列の表す文。 -/
def decodeUtf8? (bytes : ByteArray) : Option (List Char) :=
  (String.fromUTF8? bytes).map String.toList

def encodeUtf8 (text : List Char) : ByteArray := (String.ofList text).toUTF8

theorem decodeUtf8?_eq_some_iff : decodeUtf8? bytes = some text ↔ bytes = encodeUtf8 text := by
  rw [decodeUtf8?, String.fromUTF8?]
  constructor
  · intro h
    split at h
    · obtain rfl := Option.some.inj h
      rw [encodeUtf8, String.ofList_toList]
      rfl
    · cases h
  · rintro rfl
    have hvalid : (encodeUtf8 text).IsValidUTF8 := (String.ofList text).isValidUTF8
    rw [dif_pos hvalid]
    exact congrArg some String.toList_ofList

@[simp] theorem decodeUtf8?_encodeUtf8 (text : List Char) :
    decodeUtf8? (encodeUtf8 text) = some text :=
  decodeUtf8?_eq_some_iff.mpr rfl

theorem toList_loop_eq (bytes : ByteArray) (i : Nat) (r : List UInt8) :
    ByteArray.toList.loop bytes i r = r.reverse ++ bytes.data.toList.drop i := by
  fun_induction ByteArray.toList.loop bytes i r with
  | case1 i r h ih =>
      have hi : i < bytes.data.toList.length := by simpa using h
      rw [ih, List.drop_eq_getElem_cons hi]
      simp [ByteArray.get!, h]
  | case2 i r h =>
      rw [List.drop_eq_nil_of_le (by simpa using Nat.le_of_not_lt h), List.append_nil]

/-- 文のバイトは、文字のバイトを順に並べたものである。 -/
theorem toList_encodeUtf8 (text : List Char) :
    (encodeUtf8 text).toList = text.flatMap String.utf8EncodeChar := by
  rw [encodeUtf8, String.toUTF8_eq_toByteArray, String.toByteArray_ofList, ByteArray.toList,
    toList_loop_eq]
  exact List.toList_data_toByteArray

theorem mk_toArray_utf8 (text : List Char) :
    (⟨(text.flatMap String.utf8EncodeChar).toArray⟩ : ByteArray) = encodeUtf8 text := by
  rw [encodeUtf8, String.toUTF8_eq_toByteArray, String.toByteArray_ofList]
  exact ByteArray.ext (Array.toList_inj.mp List.toList_data_toByteArray.symm)

/-- 128 未満のバイトは、一つで一文字を表す。 -/
theorem toNat_eq_of_mem_utf8EncodeChar {c : Char} {b : UInt8} (hb : b < 128)
    (h : b ∈ String.utf8EncodeChar c) : c.toNat = b.toNat := by
  have hwide (n : Nat) (hlow : 128 ≤ n) (hhigh : n < 256) : b ≠ UInt8.ofNat n := by
    rintro rfl
    have hlt := UInt8.lt_iff_toNat_lt.mp hb
    rw [UInt8.toNat_ofNat', Nat.mod_eq_of_lt hhigh] at hlt
    exact Nat.not_lt.mpr hlow hlt
  unfold String.utf8EncodeChar at h
  dsimp only at h
  split at h
  next hv =>
    rw [List.mem_singleton.mp h, UInt8.toNat_ofNat']
    exact (Nat.mod_eq_of_lt (Nat.lt_of_le_of_lt hv (by decide))).symm
  next =>
    exfalso
    split at h
    · simp only [List.mem_cons, List.not_mem_nil, or_false] at h
      rcases h with h | h <;> exact hwide _ (by omega) (by omega) h
    · split at h
      · simp only [List.mem_cons, List.not_mem_nil, or_false] at h
        rcases h with h | h | h <;> exact hwide _ (by omega) (by omega) h
      · simp only [List.mem_cons, List.not_mem_nil, or_false] at h
        rcases h with h | h | h | h <;> exact hwide _ (by omega) (by omega) h

end GroupedVariants.Text
