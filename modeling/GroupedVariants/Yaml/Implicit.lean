import GroupedVariants.Text.Numeral

/-!
# 裸で書くと文字列に見えない綴り
-/

namespace GroupedVariants.Yaml.Implicit

def nullWords : List String := ["null", "Null", "NULL", "~"]

def boolWords : List String := ["true", "True", "TRUE", "false", "False", "FALSE"]

def infinityWords : List String := [".inf", ".Inf", ".INF"]

def nanWords : List String := [".nan", ".NaN", ".NAN"]

def isOneOf (words : List String) (s : List Char) : Bool := words.any (·.toList == s)

def isSign (c : Char) : Bool := c == '+' || c == '-'

def dropPlus : List Char → List Char
  | '+' :: r => r
  | s => s

def dropSign : List Char → List Char
  | [] => []
  | c :: r => if isSign c then r else c :: r

def startsWithSign (s : List Char) : Bool := s.head?.any isSign

/-- 零で始まる二桁以上の数字の並び。数とは読まない。 -/
def isZeroPadded (s : List Char) : Bool :=
  match dropSign s with
  | '0' :: c :: r => (c :: r).all Text.isDigit
  | _ => false

/-- `limit` 以下の数の `base` 進の綴り。 -/
def isNumeral (base limit : Nat) (s : List Char) : Bool := (Text.natOf? base s).any (· ≤ limit)

/-- `0` と基数の文字を冠した綴りの、基数と桁。 -/
def radixed? : List Char → Option (Nat × List Char)
  | '0' :: 'x' :: r => some (16, r)
  | '0' :: 'o' :: r => some (8, r)
  | '0' :: 'b' :: r => some (2, r)
  | _ => none

def isRadixed (limit : Nat) (s : List Char) : Bool :=
  match radixed? s with
  | some (base, digits) => isNumeral base limit digits
  | none => false

/-- 百二十八ビットに収まる整数の絶対値の限り。 -/
def integerLimit (negative : Bool) : Nat :=
  if negative then Nat.pow 2 127 else Nat.pow 2 128 - 1

def isInteger (s : List Char) : Bool :=
  isRadixed (integerLimit false) (dropPlus s) ||
    (match s with
      | '-' :: r => isRadixed (integerLimit true) r
      | _ => false) ||
    (!isZeroPadded s &&
      match s with
      | '-' :: r => isNumeral 10 (integerLimit true) r
      | _ => isNumeral 10 (integerLimit false) (dropPlus s))

/-! ## 小数 -/

/-- 小数点を除いた桁と、十の指数。値は `digits * 10 ^ exponent`。 -/
structure Decimal where
  digits : Nat
  exponent : Int

def digitsOf (s : List Char) : Nat := (Text.natOf? 10 s).getD 0

/-- 指数部。符号は省ける。 -/
def exponent? : List Char → Option Int
  | [] => some 0
  | c :: r =>
    if c == 'e' || c == 'E' then
      match r with
      | '-' :: r => (Text.natOf? 10 r).map fun n => -(n : Int)
      | '+' :: r => (Text.natOf? 10 r).map fun n => (n : Int)
      | r => (Text.natOf? 10 r).map fun n => (n : Int)
    else none

/-- 符号のない十進の小数。整数部と小数部は一方を省ける。 -/
def decimal? (s : List Char) : Option Decimal :=
  let (whole, r) := s.span Text.isDigit
  let (part, r) := match r with
    | '.' :: r => r.span Text.isDigit
    | r => ([], r)
  if whole.isEmpty && part.isEmpty then none
  else (exponent? r).map fun e => ⟨digitsOf (whole ++ part), e - part.length⟩

/-- これ以上の値は、倍精度では無限大に丸まる。 -/
def overflow : Nat := Nat.pow 2 1024 - Nat.pow 2 970

/-- 倍精度で有限の値に丸まる。 -/
def Decimal.isFinite (d : Decimal) : Bool :=
  if d.digits == 0 then true
  else
    let magnitude : Int := (Text.decimal d.digits).length + d.exponent
    if magnitude > 310 then false
    else if magnitude < 300 then true
    else
      match d.exponent with
      | .ofNat e => d.digits * Nat.pow 10 e < overflow
      | .negSucc e => d.digits < overflow * Nat.pow 10 (e + 1)

def isFloat (s : List Char) : Bool :=
  let unsigned := dropPlus s
  !(unsigned.length != s.length && startsWithSign unsigned) &&
    (isOneOf infinityWords unsigned ||
      (match s with
        | '-' :: r => isOneOf infinityWords r
        | _ => false) ||
      isOneOf nanWords s ||
      (decimal? (dropSign unsigned)).any Decimal.isFinite)

/-- 裸で書くと文字列に見えない。 -/
def isAmbiguous (s : List Char) : Bool :=
  s.isEmpty || isOneOf nullWords s || isOneOf boolWords s || isInteger s || isZeroPadded s ||
    isFloat s

end GroupedVariants.Yaml.Implicit
