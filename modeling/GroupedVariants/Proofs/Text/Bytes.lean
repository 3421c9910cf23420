import GroupedVariants.Text.Width

/-!
# 文のバイト位置

位置は、その手前にある文字の並びで表す。手前が文字の並びになる位置だけが文字の切れ目である。
-/

namespace GroupedVariants.Text

/-! ## 切れ目と、切れ目にある文字 -/

/-- 位置 `n` が文字の切れ目である。 -/
def IsBoundary (text : List Char) (n : Nat) : Prop := ∃ s t, text = s ++ t ∧ byteLength s = n

/-- 位置 `n` から文字 `c` が始まる。 -/
def CharAt (text : List Char) (n : Nat) (c : Char) : Prop :=
  ∃ s t, text = s ++ c :: t ∧ byteLength s = n

namespace CharAt

variable {text : List Char} {n : Nat} {c : Char}

theorem isBoundary (h : CharAt text n c) : IsBoundary text n := by
  obtain ⟨s, t, ht, hn⟩ := h
  exact ⟨s, c :: t, ht, hn⟩

theorem add_le (h : CharAt text n c) : n + c.utf8Size ≤ byteLength text := by
  obtain ⟨s, t, rfl, rfl⟩ := h
  simp only [byteLength_append, byteLength]
  omega

theorem append (h : CharAt text n c) (more : List Char) : CharAt (text ++ more) n c := by
  obtain ⟨s, t, rfl, hn⟩ := h
  exact ⟨s, t ++ more, by simp, hn⟩

theorem last (text : List Char) (c : Char) : CharAt (text ++ [c]) (byteLength text) c :=
  ⟨text, [], rfl, rfl⟩

end CharAt

/-! ## 長さと切り分け -/

@[simp] theorem byteLength_singleton (c : Char) : byteLength [c] = c.utf8Size := by
  simp [byteLength]

theorem byteLength_snoc (text : List Char) (c : Char) :
    byteLength text + c.utf8Size = byteLength (text ++ [c]) := by
  simp

theorem byteLength_le_snoc (text : List Char) (c : Char) :
    byteLength text ≤ byteLength (text ++ [c]) := by
  simp

/-- 先頭の文字の分を引くと、残りの長さになる。 -/
theorem exists_byteLength_cons (c : Char) (s : List Char) :
    ∃ n, byteLength (c :: s) = n + 1 ∧ c.utf8Size ≤ n + 1 ∧ n + 1 - c.utf8Size = byteLength s := by
  have hpos := c.utf8Size_pos
  refine ⟨c.utf8Size - 1 + byteLength s, ?_, ?_, ?_⟩
  · rw [byteLength]
    omega
  · omega
  · omega

theorem eq_nil_of_byteLength_eq_zero {s : List Char} (h : byteLength s = 0) : s = [] := by
  cases s with
  | nil => rfl
  | cons c s =>
      obtain ⟨n, hlen, -, -⟩ := exists_byteLength_cons c s
      rw [hlen] at h
      exact absurd h (Nat.succ_ne_zero n)

/-- 同じ文の二つの初めの部分は、短い方が長い方の初めの部分である。 -/
theorem exists_append_of_byteLength_le {s t u v : List Char} (h : s ++ t = u ++ v)
    (hle : byteLength s ≤ byteLength u) : ∃ w, u = s ++ w ∧ t = w ++ v := by
  rcases List.append_eq_append_iff.mp h with ⟨w, hu, ht⟩ | ⟨w, hs, hv⟩
  · exact ⟨w, hu, ht⟩
  · -- 長さが等しいほかはないので、差 `w` は空である。
    have hw : w = [] := eq_nil_of_byteLength_eq_zero (by rw [hs, byteLength_append] at hle; omega)
    subst hw
    exact ⟨[], by simpa using hs.symm, by simpa using hv.symm⟩

@[simp] theorem takeBytes_append (s t : List Char) : takeBytes (byteLength s) (s ++ t) = s := by
  induction s with
  | nil => cases t <;> rfl
  | cons c s ih =>
      obtain ⟨n, hlen, -, hsub⟩ := exists_byteLength_cons c s
      rw [List.cons_append, hlen, takeBytes, hsub, ih]
      exact Nat.succ_ne_zero _

@[simp] theorem dropBytes_append (s t : List Char) : dropBytes (byteLength s) (s ++ t) = t := by
  have h := takeBytes_append_dropBytes (byteLength s) (s ++ t)
  rw [takeBytes_append] at h
  exact List.append_cancel_left h

/-- 初めの部分の長さが同じなら、切り分けも同じである。 -/
theorem append_inj_of_byteLength_eq {s t u v : List Char} (h : s ++ t = u ++ v)
    (hlen : byteLength s = byteLength u) : s = u ∧ t = v := by
  have hs : takeBytes (byteLength s) (s ++ t) = takeBytes (byteLength u) (u ++ v) := by rw [h, hlen]
  rw [takeBytes_append, takeBytes_append] at hs
  subst hs
  exact ⟨rfl, List.append_cancel_left h⟩

/-! ## 失敗しうる切り出し -/

/-- 初めの `n` バイトと残り。文字の途中や文の外では切れない。 -/
def cut? : Nat → List Char → Option (List Char × List Char)
  | 0, s => some ([], s)
  | _ + 1, [] => none
  | n + 1, c :: s =>
    if c.utf8Size ≤ n + 1 then (cut? (n + 1 - c.utf8Size) s).map fun p => (c :: p.1, p.2) else none

/-- 位置 `a` から `b` の手前まで。逆順でも切り出せない。 -/
def slice? (text : List Char) (a b : Nat) : Option (List Char) :=
  if a ≤ b then do
    let (_, rest) ← cut? a text
    let (part, _) ← cut? (b - a) rest
    return part
  else none

theorem cut?_append (s t : List Char) : cut? (byteLength s) (s ++ t) = some (s, t) := by
  induction s with
  | nil => cases t <;> rfl
  | cons c s ih =>
      obtain ⟨n, hlen, hle, hsub⟩ := exists_byteLength_cons c s
      rw [List.cons_append, hlen, cut?, if_pos hle, hsub, ih]
      rfl

theorem slice?_append (s u t : List Char) :
    slice? (s ++ u ++ t) (byteLength s) (byteLength (s ++ u)) = some u := by
  have hle : byteLength s ≤ byteLength (s ++ u) := by simp
  have hsub : byteLength (s ++ u) - byteLength s = byteLength u := by simp
  rw [slice?, if_pos hle, List.append_assoc, cut?_append, hsub]
  simp [cut?_append]

end GroupedVariants.Text
