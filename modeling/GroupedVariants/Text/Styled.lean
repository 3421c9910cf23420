import GroupedVariants.Text.Numeral

/-!
# 端末での文字の飾り
-/

namespace GroupedVariants.Text

inductive Style where
  | red
  | green
  | yellow
  | dim
  | boldCyan
  deriving DecidableEq, Repr

/-- 飾りの番号。二つ以上は `;` で並べる。 -/
def Style.code : Style → List Char
  | red => "31".toList
  | green => "32".toList
  | yellow => "33".toList
  | dim => "2".toList
  | boldCyan => "1;36".toList

def escape (code : List Char) : List Char := '\x1b' :: '[' :: code ++ ['m']

def resetCode : List Char := escape ['0']

/-- 文の中で飾りが解かれるたびに、飾り `code` を掛け直す。 -/
def restyle (code : List Char) : List Char → List Char
  | '\x1b' :: '[' :: '0' :: 'm' :: s => resetCode ++ code ++ restyle code s
  | c :: s => c :: restyle code s
  | [] => []

/-- 飾りを使わないときは、文をそのまま返す。 -/
def styled (enabled : Bool) (style : Style) (s : List Char) : List Char :=
  if enabled then escape style.code ++ restyle (escape style.code) s ++ resetCode else s

end GroupedVariants.Text
