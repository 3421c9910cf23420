import GroupedVariants.Text.Numeral

/-!
# JSON の文字列の綴り

引用符の内側だけを扱う。
-/

namespace GroupedVariants.Json

def encodeChar (c : Char) : List Char :=
  if c == '"' then ['\\', '"']
  else if c == '\\' then ['\\', '\\']
  else if c == '\x08' then ['\\', 'b']
  else if c == '\t' then ['\\', 't']
  else if c == '\n' then ['\\', 'n']
  else if c == '\x0c' then ['\\', 'f']
  else if c == '\r' then ['\\', 'r']
  else if c.toNat < 0x20 then ['\\', 'u'] ++ Text.hexPadded 4 c.toNat
  else [c]

def encode (s : List Char) : List Char := s.flatMap encodeChar

/-- 一文字の逃がしが表す文字。 -/
def shortEscape? : Char → Option Char
  | '"' => some '"'
  | '\\' => some '\\'
  | '/' => some '/'
  | 'b' => some '\x08'
  | 'f' => some '\x0c'
  | 'n' => some '\n'
  | 'r' => some '\r'
  | 't' => some '\t'
  | _ => none

def hex4? (a b c d : Char) : Option Nat := Text.natOf? 16 [a, b, c, d]

def isHighSurrogate (n : Nat) : Bool := 0xD800 ≤ n && n ≤ 0xDBFF

def isLowSurrogate (n : Nat) : Bool := 0xDC00 ≤ n && n ≤ 0xDFFF

/-- 綴りが表す文字列。対をなさない代用符号を含むものは何も表さない。 -/
def decode : List Char → Option (List Char)
  | [] => some []
  | '\\' :: 'u' :: a :: b :: c :: d :: r =>
    match hex4? a b c d with
    | none => none
    | some n =>
      if isHighSurrogate n then
        match r with
        | '\\' :: 'u' :: a' :: b' :: c' :: d' :: r' =>
          match hex4? a' b' c' d' with
          | none => none
          | some m =>
            if isLowSurrogate m then
              (decode r').map (Char.ofNat (0x10000 + (n - 0xD800) * 0x400 + (m - 0xDC00)) :: ·)
            else none
        | _ => none
      else if isLowSurrogate n then none
      else (decode r).map (Char.ofNat n :: ·)
  | '\\' :: c :: r =>
    match shortEscape? c with
    | none => none
    | some e => (decode r).map (e :: ·)
  | ['\\'] => none
  | c :: r => (decode r).map (c :: ·)

/-- 閉じる引用符までの綴りと、その先。逃がしの形を確かめ、制御文字を許さない。 -/
def splitQuoted : List Char → Option (List Char × List Char)
  | [] => none
  | '"' :: r => some ([], r)
  | '\\' :: 'u' :: a :: b :: c :: d :: r =>
    if (hex4? a b c d).isSome then
      (splitQuoted r).map fun p => ('\\' :: 'u' :: a :: b :: c :: d :: p.1, p.2)
    else none
  | '\\' :: c :: r =>
    if (shortEscape? c).isSome then (splitQuoted r).map fun p => ('\\' :: c :: p.1, p.2) else none
  | c :: r => if c.toNat < 0x20 then none else (splitQuoted r).map fun p => (c :: p.1, p.2)

end GroupedVariants.Json
