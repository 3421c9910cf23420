import GroupedVariants.Text.Numeral
import GroupedVariants.Text.Width

/-!
# 計測に使う文書
-/

namespace GroupedVariants.Sample

open Text (decimal)

/-- `p-0` から始まる `n` 個の項目。 -/
def items (n : Nat) : List (List Char) := (List.range n).map fun i => 'p' :: '-' :: decimal i

def flatLine (k n : Nat) : List Char :=
  "<div class=\"flex items-center md".toList ++ decimal (k % 5) ++ ":(".toList ++
    List.intercalate [','] (items n) ++ ") text-sm\">\n".toList

/-- `n` 個の項目の平らな群を一つずつ持つ行を `groups` 行。 -/
def flatMarkup (groups n : Nat) : List Char := (List.range groups).flatMap (flatLine · n)

def nestedOpening (d : Nat) : List Char :=
  'v' :: decimal d ++ ":(a-".toList ++ decimal d ++ [',']

/-- `depth` 重に入れ子になった一つの群。 -/
def nestedMarkup (depth : Nat) : List Char :=
  (List.range depth).flatMap nestedOpening ++ "leaf".toList ++ List.replicate depth ')'

def plainLine : List Char :=
  "<div class=\"flex items-center hover:bg-red-500 md:p-4\">text</div>\n".toList

/-- 群のない、`bytes` バイトを超える文書。 -/
def plainMarkup (bytes : Nat) : List Char :=
  (List.replicate (bytes / Text.byteLength plainLine + 1) plainLine).flatten

end GroupedVariants.Sample
