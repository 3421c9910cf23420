import GroupedVariants.Text.Numeral
import GroupedVariants.Yaml.Position

/-!
# 二重引用符の値
-/

namespace GroupedVariants.Yaml.DoubleQuoted

/-- 一文字の逃がしが表す文字。 -/
def shortEscape? : Char → Option Char
  | '0' => some '\x00'
  | 'a' => some '\x07'
  | 'b' => some '\x08'
  | 't' => some '\t'
  | '\t' => some '\t'
  | 'n' => some '\n'
  | 'v' => some '\x0b'
  | 'f' => some '\x0c'
  | 'r' => some '\r'
  | 'e' => some '\x1b'
  | ' ' => some ' '
  | '"' => some '"'
  | '/' => some '/'
  | '\\' => some '\\'
  | 'N' => some '\u0085'
  | '_' => some '\u00a0'
  | 'L' => some '\u2028'
  | 'P' => some '\u2029'
  | _ => none

/-- 書くときの一文字の逃がし。 -/
def shortName? (c : Char) : Option Char :=
  if c == '\x00' then some '0'
  else if c == '\x07' then some 'a'
  else if c == '\x08' then some 'b'
  else if c == '\t' then some 't'
  else if c == '\n' then some 'n'
  else if c == '\x0b' then some 'v'
  else if c == '\x0c' then some 'f'
  else if c == '\r' then some 'r'
  else if c == '\x1b' then some 'e'
  else if c == '"' then some '"'
  else if c == '\\' then some '\\'
  else if c == '\u0085' then some 'N'
  else if c == '\u00a0' then some '_'
  else if c == '\u2028' then some 'L'
  else if c == '\u2029' then some 'P'
  else none

def upperHex (width n : Nat) : List Char := (Text.hexPadded width n).map Char.toUpper

def numericEscape (c : Char) : List Char :=
  let n := c.toNat
  if n ≤ 0xFF then 'x' :: upperHex 2 n
  else if n ≤ 0xFFFF then 'u' :: upperHex 4 n
  else 'U' :: upperHex 8 n

def needsEscape (c : Char) : Bool := !isPrintable c || isBreak c || c == '"' || c == '\\'

def writeChar (c : Char) : List Char :=
  if needsEscape c then
    '\\' :: (match shortName? c with
      | some e => [e]
      | none => numericEscape c)
  else [c]

def write (s : List Char) : List Char := '"' :: s.flatMap writeChar ++ ['"']

/-- 番号で書いた逃がしの桁数。 -/
def escapeWidth? : Char → Option Nat
  | 'x' => some 2
  | 'u' => some 4
  | 'U' => some 8
  | _ => none

def charOf? (digits : List Char) : Except Fault Char :=
  match Text.natOf? 16 digits with
  | none => .error .unknownEscape
  | some n => if n.isValidChar then .ok (Char.ofNat n) else .error .badCodePoint

/-- 開く引用符の先から読む。行の終わりの逆斜線は、改行とそれに続く空白を消す。 -/
def read (g : Gap) (p : Position) : List Char → Except Fault Scanned
  | [] => .error .unclosedQuote
  | '"' :: r => .ok ⟨g.folded, r, p.next⟩
  | '\\' :: 'x' :: a :: b :: r => do
      let c ← charOf? [a, b]
      return (← read .none (p.skip 4) r).precededBy (g.folded ++ [c])
  | '\\' :: 'u' :: a :: b :: c :: d :: r => do
      let x ← charOf? [a, b, c, d]
      return (← read .none (p.skip 6) r).precededBy (g.folded ++ [x])
  | '\\' :: 'U' :: a :: b :: c :: d :: e :: f :: i :: j :: r => do
      let x ← charOf? [a, b, c, d, e, f, i, j]
      return (← read .none (p.skip 10) r).precededBy (g.folded ++ [x])
  | '\\' :: c :: r =>
    if isBreak c then (read (.breaks none []) p.nextLine r).map (·.precededBy g.folded)
    else
      match shortEscape? c with
      | none => .error .unknownEscape
      | some e => (read .none (p.skip 2) r).map (·.precededBy (g.folded ++ [e]))
  | c :: r =>
    if isInlineBlank c then read (g.addBlank c) p.next r
    else if isBreak c then read (g.addBreak c) p.nextLine r
    else if p.column = 0 && atDocumentMark (c :: r) then .error .unclosedQuote
    else (read .none p.next r).map (·.precededBy (g.folded ++ [c]))

end GroupedVariants.Yaml.DoubleQuoted
