/-!
# 文字列の UTF-8 での長さと、その位置での切り分け
-/

namespace GroupedVariants.Text

def byteLength : List Char → Nat
  | [] => 0
  | c :: s => c.utf8Size + byteLength s

/-- 先頭から `n` バイト分。文字の途中にかかる `n` は、その文字の終わりまでとする。 -/
def takeBytes : Nat → List Char → List Char
  | _, [] => []
  | 0, _ => []
  | n, c :: s => c :: takeBytes (n - c.utf8Size) s

/-- `takeBytes n` の残り。 -/
def dropBytes : Nat → List Char → List Char
  | _, [] => []
  | 0, s => s
  | n, c :: s => dropBytes (n - c.utf8Size) s

@[simp] theorem byteLength_append (s t : List Char) :
    byteLength (s ++ t) = byteLength s + byteLength t := by
  induction s with
  | nil => simp [byteLength]
  | cons c s ih => simp [byteLength, ih, Nat.add_assoc]

theorem takeBytes_append_dropBytes (n : Nat) (s : List Char) :
    takeBytes n s ++ dropBytes n s = s := by
  induction s generalizing n with
  | nil => simp [takeBytes, dropBytes]
  | cons c s ih => cases n <;> simp [takeBytes, dropBytes, ih]

end GroupedVariants.Text
