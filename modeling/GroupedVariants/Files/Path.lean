import GroupedVariants.Text.Parts

/-!
# パスの綴り
-/

namespace GroupedVariants.Files

abbrev Name := List Char

def slash : Char := '/'

/-- 今の場所を指す名。 -/
def here : Name := ['.']

/-- 一つ上を指す名。 -/
def parent : Name := ['.', '.']

def isAbsolute (path : List Char) : Bool := path.head? == some slash

/-- 絶対パスは根から、ほかは `origin` からたどる。 -/
def startOf (origin : List Name) (path : List Char) : List Name :=
  if isAbsolute path then [] else origin

/-- たどる名の並び。斜線で終わるパスは、その先がディレクトリであることを求める。 -/
def steps (path : List Char) : List Name :=
  (Text.split slash path).filter (!·.isEmpty) ++ (if path.getLast? = some slash then [here] else [])

/-- 末尾の斜線と `.` を除いた最後の名。 -/
def lastName? (path : List Char) : Option Name :=
  match ((Text.split slash path).filter fun n => !n.isEmpty && n != here).getLast? with
  | some n => if n = parent then none else some n
  | none => none

/-- 最後の点の先。名の頭の点は拡張子を始めない。 -/
def Name.extension? (n : Name) : Option (List Char) :=
  let after := (n.reverse.takeWhile (· != '.')).reverse
  if after.length + 1 < n.length then some after else none

def extension? (path : List Char) : Option (List Char) := lastName? path >>= Name.extension?

/-- `root` から下る名の並びの、`root` に続けた綴り。 -/
def join (root : List Char) (names : List Name) : List Char :=
  let below := List.intercalate [slash] names
  if root.isEmpty || root.getLast? == some slash then root ++ below else root ++ slash :: below

/-! ## 拡張子による選別 -/

/-- ASCII の大小を問わずに等しい。 -/
def sameExceptCase (s t : List Char) : Bool := s.map Char.toLower == t.map Char.toLower

def accepts (extensions : List String) (path : List Char) : Bool :=
  match extension? path with
  | some e => extensions.any fun allowed => sameExceptCase allowed.toList e
  | none => false

end GroupedVariants.Files
