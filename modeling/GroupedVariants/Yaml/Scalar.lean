import GroupedVariants.Yaml.DoubleQuoted
import GroupedVariants.Yaml.Implicit
import GroupedVariants.Yaml.Literal

/-!
# 値の書き方の選び方
-/

namespace GroupedVariants.Yaml

inductive Style where
  | plain
  | singleQuoted
  | doubleQuoted
  | literal
  deriving DecidableEq, Repr

/-- 隣り合う二文字がそれぞれ `p` と `q` を満たすところがある。 -/
def hasAdjacent (p q : Char → Bool) : List Char → Bool
  | a :: b :: r => (p a && q b) || hasAdjacent p q (b :: r)
  | _ => false

def isBlankOrBreak (c : Char) : Bool := isInlineBlank c || isBreak c

def isSpace (c : Char) : Bool := c == ' '

def startsOrEnds (p : Char → Bool) (s : List Char) : Bool := s.head?.any p || s.getLast?.any p

/-- 先頭か途中に、裸では構造に読まれる記号がある。 -/
def hasBlockIndicator (s : List Char) : Bool :=
  (match s with
    | '-' :: '-' :: '-' :: _ => true
    | '.' :: '.' :: '.' :: _ => true
    | c :: r => isLeadIndicator c || ((c == '?' || c == '-') && atBlank r)
    | [] => false) ||
    hasAdjacent isBlankOrBreak (· == '#') s ||
    hasAdjacent (· == ':') isBlankOrBreak s ||
    s.getLast? == some ':'

/-- 逃がさなければ書けない文字か、行末の間隔がある。 -/
def needsDoubleQuotes (s : List Char) : Bool :=
  s.any (!isPrintable ·) || hasAdjacent isSpace isBreak s

def allowsSingleQuotes (s : List Char) : Bool :=
  !needsDoubleQuotes s && !hasAdjacent isBreak isSpace s

def allowsPlain (s : List Char) : Bool :=
  !needsDoubleQuotes s && !s.any isBreak && !startsOrEnds isSpace s && !hasBlockIndicator s

def allowsLiteral (s : List Char) : Bool :=
  !s.isEmpty && !needsDoubleQuotes s && !s.getLast?.any isSpace

/-- 望む書き方で書けなければ、より広い書き方に移る。 -/
def Style.settle (s : List Char) : Style → Style
  | .plain =>
    if allowsPlain s then .plain else if allowsSingleQuotes s then .singleQuoted else .doubleQuoted
  | .singleQuoted => if allowsSingleQuotes s then .singleQuoted else .doubleQuoted
  | .doubleQuoted => .doubleQuoted
  | .literal => if allowsLiteral s then .literal else .doubleQuoted

/-- 文字列の望ましい書き方。 -/
def Style.ofText (s : List Char) : Style :=
  if s.contains '\n' then .literal
  else if Implicit.isAmbiguous s then .singleQuoted
  else .plain

/-- `indent` は続く行の字下げ。 -/
def writeScalar (indent : Nat) (s : List Char) (style : Style) : List Char :=
  match style.settle s with
  | .plain => s
  | .singleQuoted => SingleQuoted.write indent s
  | .doubleQuoted => DoubleQuoted.write s
  | .literal => Literal.write indent s

end GroupedVariants.Yaml
