/-!
# UTF-8 でないところを含むバイト列の読み方
-/

namespace GroupedVariants.Text

def replacement : Char := '\ufffd'

/-- 先頭のバイトの持つビットと、続くバイトそれぞれの範囲。 -/
def leadByte? (b : UInt8) : Option (Nat × List (UInt8 × UInt8)) :=
  let rest : UInt8 × UInt8 := (0x80, 0xBF)
  if b < 0x80 then some (b.toNat, [])
  else if b < 0xC2 then none
  else if b < 0xE0 then some (b.toNat - 0xC0, [rest])
  else if b = 0xE0 then some (0, [(0xA0, 0xBF), rest])
  else if b = 0xED then some (0xD, [(0x80, 0x9F), rest])
  else if b < 0xF0 then some (b.toNat - 0xE0, [rest, rest])
  else if b = 0xF0 then some (0, [(0x90, 0xBF), rest, rest])
  else if b < 0xF4 then some (b.toNat - 0xF0, [rest, rest, rest])
  else if b = 0xF4 then some (4, [(0x80, 0x8F), rest, rest])
  else none

/-- 続くバイトを範囲に合う限り読む。すべて合えば文字になる。 -/
def readTail (value : Nat) : List (UInt8 × UInt8) → List UInt8 → Char × List UInt8
  | [], s => (Char.ofNat value, s)
  | _ :: _, [] => (replacement, [])
  | (low, high) :: ranges, b :: s =>
    if low ≤ b && b ≤ high then readTail (value * 64 + (b.toNat - 0x80)) ranges s
    else (replacement, b :: s)

theorem length_readTail_le (value : Nat) (ranges : List (UInt8 × UInt8)) (s : List UInt8) :
    (readTail value ranges s).2.length ≤ s.length := by
  induction ranges generalizing value s with
  | nil => simp [readTail]
  | cons r ranges ih =>
    cases s with
    | nil => simp [readTail]
    | cons b s =>
      simp only [readTail]
      split
      · exact Nat.le_succ_of_le (ih _ s)
      · simp

/-- 文字にならない最も長い部分を、それぞれ一つの置き換え文字にする。 -/
def decodeLossy : List UInt8 → List Char
  | [] => []
  | b :: s =>
    match leadByte? b with
    | none => replacement :: decodeLossy s
    | some (value, ranges) =>
      let x := readTail value ranges s
      x.1 :: decodeLossy x.2
termination_by s => s.length
decreasing_by
  · simp
  · exact Nat.lt_succ_of_le (length_readTail_le value ranges s)

end GroupedVariants.Text
