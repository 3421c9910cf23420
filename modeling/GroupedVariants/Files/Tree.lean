import GroupedVariants.Files.Path

/-!
# ファイルの木
-/

namespace GroupedVariants.Files

inductive Entry where
  | file (bytes : ByteArray)
  | link (target : List Char)
  | directory (members : List (Name × Entry))

namespace Entry

def empty : Entry := .directory []

def isDirectory : Entry → Bool
  | directory _ => true
  | _ => false

def members : Entry → List (Name × Entry)
  | directory ms => ms
  | _ => []

def member? (e : Entry) (n : Name) : Option Entry := e.members.lookup n

/-- 名をそのままたどった先。リンクの先には進まない。 -/
def at? : Entry → List Name → Option Entry
  | e, [] => some e
  | e, n :: p =>
    match e.member? n with
    | some e => at? e p
    | none => none

/-! ## 下にあるものの一覧 -/

mutual

/-- 自らと下にあるすべてのものと、そこまでの名の並び。リンクはたどらない。 -/
def entries : Entry → List (List Name × Entry)
  | file bytes => [([], file bytes)]
  | link target => [([], link target)]
  | directory ms => ([], directory ms) :: entriesOf ms

def entriesOf : List (Name × Entry) → List (List Name × Entry)
  | [] => []
  | (n, e) :: ms => (entries e).map (fun y => (n :: y.1, y.2)) ++ entriesOf ms

end

def bytes? : Entry → Option ByteArray
  | file bytes => some bytes
  | _ => none

/-- 下にある普通のファイル。 -/
def regularFiles (e : Entry) : List (List Name × ByteArray) :=
  e.entries.filterMap fun y => y.2.bytes?.map (y.1, ·)

/-! ## 書き換え -/

/-- 名 `n` の先を `f` で改める。`f` には今ある先を渡し、`none` は取り除くことを指す。 -/
def alter (n : Name) (f : Option Entry → Option Entry) : List (Name × Entry) → List (Name × Entry)
  | [] => ((f none).map (n, ·)).toList
  | (k, e) :: ms =>
    if k = n then ((f (some e)).map (n, ·)).toList ++ ms else (k, e) :: alter n f ms

/-- そこにあるものを `e` に替える。足りない親は作る。 -/
def put : Entry → List Name → Entry → Entry
  | _, [], e => e
  | root, n :: p, e =>
    .directory (alter n (fun old => some (put (old.getD empty) p e)) root.members)

def remove : Entry → List Name → Entry
  | _, [] => empty
  | .directory ms, [n] => .directory (alter n (fun _ => none) ms)
  | .directory ms, n :: p => .directory (alter n (·.map (remove · p)) ms)
  | e, _ => e

/-- `before` と内容の違う普通のファイル。 -/
def changesSince (after before : Entry) : List (List Name × ByteArray) :=
  after.regularFiles.filter fun f =>
    match before.at? f.1 with
    | some (.file bytes) => bytes != f.2
    | _ => true

end Entry

/-- 木の全体と、根から名をたどって指した今のディレクトリ。 -/
structure Tree where
  root : Entry
  current : List Name

end GroupedVariants.Files
