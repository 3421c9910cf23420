import GroupedVariants.Files.Access
import GroupedVariants.Log.Record
import GroupedVariants.Text.Numeral

/-!
# 読むものを探す
-/

namespace GroupedVariants

/-- 文を読み出すところ。 -/
inductive Input where
  | stdin
  | file (path : List Char)
  deriving DecidableEq, Repr

def Input.label : Input → List Char
  | stdin => "<stdin>".toList
  | file path => path

namespace Files

/-- 文字の番号による辞書式の順。 -/
def Name.le : Name → Name → Bool
  | [], _ => true
  | _ :: _, [] => false
  | c :: s, d :: t => if c = d then Name.le s t else c.toNat < d.toNat

/-- 名ごとに比べた辞書式の順。 -/
def namesLe : List Name → List Name → Bool
  | [], _ => true
  | _ :: _, [] => false
  | m :: p, n :: q => if m = n then namesLe p q else m.le n

def sortByNames (paths : List (List Name)) : List (List Name) := paths.mergeSort namesLe

/-- ディレクトリ `path` の下に現れたもののうち、拡張子の合う普通のファイルを、名の順に並べる。 -/
def collect (extensions : List String) (path : List Char) (yielded : List (List Name × Entry)) :
    List (List Name) :=
  sortByNames ((yielded.filter fun y =>
    y.2.bytes?.isSome && accepts extensions (join path y.1)).map (·.1))

namespace Tree

/-- ディレクトリ `path` の下の、拡張子の合う普通のファイル。 -/
def discover (tree : Tree) (extensions : List String) (path : List Char) : List (List Name) :=
  match tree.locate path with
  | .ok p =>
    match tree.root.at? p with
    | some e => collect extensions path e.entries
    | none => []
  | .error _ => []

def walk (tree : Tree) (extensions : List String) (path : List Char) : List (List Char) :=
  (tree.discover extensions path).map (join path)

def inputsAt (tree : Tree) (extensions : List String) (path : List Char) : List Input :=
  if tree.isDirectoryAt path then (tree.walk extensions path).map .file else [.file path]

/-- パスが一つもなければ標準入力を読む。 -/
def inputs (tree : Tree) (extensions : List String) (paths : List (List Char)) : List Input :=
  if paths.isEmpty then [.stdin] else paths.flatMap (tree.inputsAt extensions)

def walkRecord? (tree : Tree) (extensions : List String) (path : List Char) :
    Option Log.Record :=
  if tree.isDirectoryAt path then
    some ⟨.debug, "vgroup::commands",
      "walked directory dir=".toList ++ path ++ " files=".toList ++
        Text.decimal (tree.walk extensions path).length⟩
  else none

def walkRecords (tree : Tree) (extensions : List String) (paths : List (List Char)) :
    List Log.Record :=
  paths.filterMap (tree.walkRecord? extensions)

end Tree

end Files

end GroupedVariants
