/-!
# YAML の文字の類
-/

namespace GroupedVariants.Yaml

/-- 行の終わり。ほかの改行は読む前にこのどれかに揃える。 -/
def isBreak (c : Char) : Bool := c == '\n' || c == '\u2028' || c == '\u2029'

def isInlineBlank (c : Char) : Bool := c == ' ' || c == '\t'

/-- 先頭が空白か行の終わりか文の終わり。 -/
def atBlank : List Char → Bool
  | [] => true
  | c :: _ => isInlineBlank c || isBreak c

def isFlowIndicator (c : Char) : Bool := c == ',' || c == '[' || c == ']' || c == '{' || c == '}'

/-- 裸で書いた値の頭には置けない記号。 -/
def isLeadIndicator (c : Char) : Bool :=
  isFlowIndicator c || c == '#' || c == '&' || c == '*' || c == '!' || c == '|' || c == '>' ||
    c == '\x27' || c == '"' || c == '%' || c == '@' || c == '\x60'

/-- 文書の中に現れてよい文字。 -/
def isAllowed (c : Char) : Bool :=
  let n := c.toNat
  n == 0x09 || n == 0x0A || n == 0x0D || (0x20 ≤ n && n ≤ 0x7E) || n == 0x85 ||
    (0xA0 ≤ n && n ≤ 0xFFFD) || 0x10000 ≤ n

/-- 逃がさずに書ける文字。 -/
def isPrintable (c : Char) : Bool :=
  let n := c.toNat
  n == 0x0A || (0x20 ≤ n && n ≤ 0x7E) || (0xA0 ≤ n && n ≤ 0xFFFD && n != 0xFEFF) || 0x10000 ≤ n

/-- 名札の名に使える文字。 -/
def isNameChar (c : Char) : Bool := c.isAlphanum || c == '_' || c == '-'

/-- 先頭が文書の始まりの印 `---`。 -/
def atDocumentStart : List Char → Bool
  | '-' :: '-' :: '-' :: r => atBlank r
  | _ => false

/-- 先頭が文書の終わりの印 `...`。 -/
def atDocumentEnd : List Char → Bool
  | '.' :: '.' :: '.' :: r => atBlank r
  | _ => false

def atDocumentMark (s : List Char) : Bool := atDocumentStart s || atDocumentEnd s

/-- 改行の綴りを揃える。 -/
def unifyBreaks : List Char → List Char
  | [] => []
  | '\r' :: '\n' :: r => '\n' :: unifyBreaks r
  | c :: r => (if c == '\r' || c == '\u0085' then '\n' else c) :: unifyBreaks r

end GroupedVariants.Yaml
