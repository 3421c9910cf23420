/-!
# 空白と語を切る文字と、文の切り分け
-/

namespace GroupedVariants.Text

/-- Unicode の White_Space 属性。 -/
def isBlank (c : Char) : Bool :=
  let n := c.toNat
  (9 ≤ n && n ≤ 13) || n == 0x20 || n == 0x85 || n == 0xA0 || n == 0x1680 ||
    (0x2000 ≤ n && n ≤ 0x200A) || n == 0x2028 || n == 0x2029 || n == 0x202F || n == 0x205F ||
    n == 0x3000

/-- 引用符とバッククォートと逆斜線と開き角括弧。 -/
def isStructural (c : Char) : Bool :=
  c == '"' || c == '\x27' || c == '\x60' || c == '\\' || c == '['

/-- 幅のない改行禁止の空白で、White_Space には入らない。 -/
def byteOrderMark : Char := '\ufeff'

/-- 語を切る文字。区切りの文字には使えない。 -/
def isBreaking (c : Char) : Bool :=
  isBlank c || isStructural c || c == byteOrderMark

def trimStart (s : List Char) : List Char := s.dropWhile isBlank

def trimEnd (s : List Char) : List Char := (s.reverse.dropWhile isBlank).reverse

def trim (s : List Char) : List Char := trimEnd (trimStart s)

def isAllBlank (s : List Char) : Bool := s.all isBlank

/-- 区切りの間の部分。空の部分も残すので、少なくとも一つある。 -/
def split (separator : Char) : List Char → List (List Char)
  | [] => [[]]
  | c :: s =>
    if c = separator then [] :: split separator s
    else
      match split separator s with
      | [] => [[c]]
      | part :: parts => (c :: part) :: parts

end GroupedVariants.Text
