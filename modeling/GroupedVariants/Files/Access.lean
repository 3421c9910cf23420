import GroupedVariants.Files.Tree
import GroupedVariants.Text.Width

/-!
# パスで指した先の読み書き
-/

namespace GroupedVariants.Files

/-- 読み書きできない理由。 -/
inductive Fault where
  | missing
  | notDirectory
  | isDirectory
  | nameTooLong
  | tooManyLinks
  | nulInName
  | notText
  deriving DecidableEq, Repr

def Fault.message : Fault → String
  | missing => "No such file or directory (os error 2)"
  | notDirectory => "Not a directory (os error 20)"
  | isDirectory => "Is a directory (os error 21)"
  | nameTooLong => "File name too long (os error 36)"
  | tooManyLinks => "Too many levels of symbolic links (os error 40)"
  | nulInName => "file name contained an unexpected NUL byte"
  | notText => "stream did not contain valid UTF-8"

/-- 一つのパスでたどれるリンクの数。 -/
def linkLimit : Nat := 40

/-- 一つの名の長さの限り。 -/
def nameLimit : Nat := 255

/-- パスの長さはこれに届かない。 -/
def pathLimit : Nat := 4096

/--
ディレクトリ `origin` から `names` をたどり、リンクを含まない名の並びを返す。根の一つ上は根である。
`links` はまだたどれるリンクの数。
-/
def Entry.resolve (root : Entry) (links : Nat) (origin : List Name) (names : List Name) :
    Except Fault (List Name) :=
  match names with
  | [] => .ok origin
  | n :: rest =>
    if n = here then root.resolve links origin rest
    else if n = parent then root.resolve links origin.dropLast rest
    else if nameLimit < Text.byteLength n then .error .nameTooLong
    else
      match root.at? (origin ++ [n]) with
      | none => .error .missing
      | some (.directory _) => root.resolve links (origin ++ [n]) rest
      | some (.file _) => if rest.isEmpty then .ok (origin ++ [n]) else .error .notDirectory
      | some (.link target) =>
        match links with
        | 0 => .error .tooManyLinks
        | links + 1 => root.resolve links (startOf origin target) (steps target ++ rest)
termination_by (links, names.length)

namespace Tree

def locate (tree : Tree) (path : List Char) : Except Fault (List Name) :=
  if path.contains '\x00' then .error .nulInName
  else if pathLimit ≤ Text.byteLength path then .error .nameTooLong
  else if path.isEmpty then .error .missing
  else tree.root.resolve linkLimit (startOf tree.current path) (steps path)

def isDirectoryAt (tree : Tree) (path : List Char) : Bool :=
  match tree.locate path with
  | .ok p => (tree.root.at? p).any Entry.isDirectory
  | .error _ => false

def readText (tree : Tree) (path : List Char) : Except Fault (List Char) := do
  match tree.root.at? (← tree.locate path) with
  | some (.file bytes) =>
    match String.fromUTF8? bytes with
    | some s => return s.toList
    | none => throw .notText
  | _ => throw .isDirectory

/-- すでにあるファイルの内容を替える。 -/
def writeText (tree : Tree) (path : List Char) (text : List Char) : Tree :=
  match tree.locate path with
  | .ok p => { tree with root := tree.root.put p (.file (String.ofList text).toUTF8) }
  | .error _ => tree

end Tree

end GroupedVariants.Files
