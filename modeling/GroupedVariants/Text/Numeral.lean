/-!
# 数の綴り
-/

namespace GroupedVariants.Text

/-- 十より上は小文字の英字。 -/
def digit (n : Nat) : Char := if n < 10 then Char.ofNat (0x30 + n) else Char.ofNat (0x57 + n)

/-- 先頭の零を省いた `base` 進の綴り。 -/
def numeral (base n : Nat) : List Char :=
  if n < base ∨ base < 2 then [digit n] else numeral base (n / base) ++ [digit (n % base)]
termination_by n
decreasing_by
  rename_i h
  exact Nat.div_lt_self (by omega) (by omega)

def decimal (n : Nat) : List Char := numeral 10 n

def hex (n : Nat) : List Char := numeral 16 n

/-- `width` 桁に満たなければ先頭を零で埋める。 -/
def hexPadded (width n : Nat) : List Char :=
  let s := hex n
  List.replicate (width - s.length) '0' ++ s

/-- 英字は大小を問わない。 -/
def digitValue? (base : Nat) (c : Char) : Option Nat :=
  let n := c.toNat
  let v :=
    if 0x30 ≤ n && n ≤ 0x39 then n - 0x30
    else if 0x61 ≤ n && n ≤ 0x7A then n - 0x57
    else if 0x41 ≤ n && n ≤ 0x5A then n - 0x37
    else base
  if v < base then some v else none

def isDigit (c : Char) : Bool := '0' ≤ c && c ≤ '9'

/-- 空の綴りと、桁でない文字を含む綴りには値がない。 -/
def natOf? (base : Nat) (s : List Char) : Option Nat :=
  if s.isEmpty then none
  else s.foldl (fun acc c => do return (← acc) * base + (← digitValue? base c)) (some 0)

end GroupedVariants.Text
