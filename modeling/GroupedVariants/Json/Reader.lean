import GroupedVariants.Json.Value

/-!
# JSON の読み取り
-/

namespace GroupedVariants.Json

def isSpace (c : Char) : Bool := c == ' ' || c == '\t' || c == '\n' || c == '\r'

def skipSpace (s : List Char) : List Char := s.dropWhile isSpace

def takeDigits (s : List Char) : List Char × List Char := s.span Text.isDigit

/-- 一桁以上の数字の並び。 -/
def readDigits? (s : List Char) : Option (List Char × List Char) :=
  match takeDigits s with
  | ([], _) => none
  | p => some p

/-- 整数部。零で始まるのは零だけ。 -/
def readInteger? : List Char → Option (List Char × List Char)
  | '0' :: r => if (takeDigits r).1.isEmpty then some (['0'], r) else none
  | s => readDigits? s

def readFraction? : List Char → Option (List Char × List Char)
  | '.' :: r => (readDigits? r).map fun p => ('.' :: p.1, p.2)
  | s => some ([], s)

def isExponentMark (c : Char) : Bool := c == 'e' || c == 'E'

def isSign (c : Char) : Bool := c == '+' || c == '-'

def readExponent? : List Char → Option (List Char × List Char)
  | [] => some ([], [])
  | c :: r =>
    if isExponentMark c then
      match r with
      | [] => none
      | x :: r' =>
        if isSign x then (readDigits? r').map fun p => (c :: x :: p.1, p.2)
        else (readDigits? r).map fun p => (c :: p.1, p.2)
    else some ([], c :: r)

def readUnsigned? (s : List Char) : Option (List Char × List Char) := do
  let (integer, r) ← readInteger? s
  let (fraction, r) ← readFraction? r
  let (exponent, r) ← readExponent? r
  return (integer ++ fraction ++ exponent, r)

def readNumber? : List Char → Option (List Char × List Char)
  | '-' :: r => (readUnsigned? r).map fun p => ('-' :: p.1, p.2)
  | s => readUnsigned? s

mutual

/-- `fuel` は読む深さと並びの長さの和を抑える。 -/
def readValue? (fuel : Nat) (s : List Char) : Option (Value × List Char) :=
  match fuel with
  | 0 => none
  | fuel + 1 =>
    match skipSpace s with
    | '"' :: r => (splitQuoted r).map fun p => (.string p.1, p.2)
    | '[' :: r =>
      match skipSpace r with
      | ']' :: r => some (.array [], r)
      | r => (readElements? fuel r).map fun p => (.array p.1, p.2)
    | '{' :: r =>
      match skipSpace r with
      | '}' :: r => some (.object [], r)
      | r => (readMembers? fuel r).map fun p => (.object p.1, p.2)
    | 'n' :: 'u' :: 'l' :: 'l' :: r => some (.null, r)
    | 't' :: 'r' :: 'u' :: 'e' :: r => some (.bool true, r)
    | 'f' :: 'a' :: 'l' :: 's' :: 'e' :: r => some (.bool false, r)
    | r => (readNumber? r).map fun p => (.number p.1, p.2)

/-- 閉じ括弧までの、一つ以上の要素。 -/
def readElements? (fuel : Nat) (s : List Char) : Option (List Value × List Char) :=
  match fuel with
  | 0 => none
  | fuel + 1 =>
    match readValue? fuel s with
    | none => none
    | some (v, r) =>
      match skipSpace r with
      | ']' :: r => some ([v], r)
      | ',' :: r => (readElements? fuel r).map fun p => (v :: p.1, p.2)
      | _ => none

/-- 閉じ括弧までの、一つ以上の名と値の組。 -/
def readMembers? (fuel : Nat) (s : List Char) : Option (List (List Char × Value) × List Char) :=
  match fuel with
  | 0 => none
  | fuel + 1 =>
    match skipSpace s with
    | '"' :: r =>
      match splitQuoted r with
      | none => none
      | some (k, r) =>
        match skipSpace r with
        | ':' :: r =>
          match readValue? fuel r with
          | none => none
          | some (v, r) =>
            match skipSpace r with
            | '}' :: r => some ([(k, v)], r)
            | ',' :: r => (readMembers? fuel r).map fun p => ((k, v) :: p.1, p.2)
            | _ => none
        | _ => none
    | _ => none

end

/-- 前後に空白のほかは何もない、一つの値。 -/
def Value.parse? (s : List Char) : Option Value :=
  match readValue? (2 * s.length + 1) s with
  | some (v, r) => if (skipSpace r).isEmpty then some v else none
  | none => none

end GroupedVariants.Json
