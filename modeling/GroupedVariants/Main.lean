import GroupedVariants.Program

/-!
# 端末からの実行

名指されたパスの通るところと、着いた先の下とを読み取って実行し、内容の変わったファイルだけを書き戻す。
-/

open GroupedVariants

namespace GroupedVariants.Terminal

open Files

/-- 根から `p` をたどった場所の綴り。 -/
def spelling (p : List Name) : String := String.ofList (join [slash] p)

def place (p : List Name) := do
  return (← IO.currentDir) / spelling p

def typeAt? (p : List Name) : IO (Option IO.FS.FileType) := do
  try
    return some (← (← place p).symlinkMetadata).type
  catch _ => return none

/-- 場所 `p` のリンクの先。先がなければ `none` で、たどり終えられないリンクは自らを指すものとする。 -/
def linkTarget? (p : List Name) : IO (Option (List Char)) := do
  try
    discard (← place p).metadata
    return some (← IO.FS.realPath (← place p)).toString.toList
  catch
    | .noFileOrDirectory .. => return none
    | _ => return some (spelling p).toList

/-- 場所 `p` と、その下にあるもの。 -/
partial def readBelow (p : List Name) : IO (Option Entry) := do
  match ← typeAt? p with
  | some .dir =>
    let members ← (← (← place p).readDir).filterMapM fun e => do
      let name := e.fileName.toList
      return (← readBelow (p ++ [name])).map (name, ·)
    return some (.directory members.toList)
  | some .symlink => return (← linkTarget? p).map .link
  | some .file => return some (.file (← IO.FS.readBinFile (← place p)))
  | _ => return none

/-- ディレクトリ `origin` から `names` をたどって通るものと、着いた先の下にあるものを、`root` に加える。 -/
partial def readAlong (root : Entry) (origin : List Name) : List Name → IO Entry
  | [] => do
    match ← readBelow origin with
    | some e => return root.put origin e
    | none => return root
  | n :: rest => do
    if n = here then
      readAlong root origin rest
    else if n = parent then
      readAlong root origin.dropLast rest
    else
      let p := origin ++ [n]
      match ← typeAt? p with
      | none => return root
      | some .dir =>
        let root := if (root.at? p).isSome then root else root.put p .empty
        readAlong root p rest
      | some .symlink =>
        match ← linkTarget? p with
        | none => return root
        | some target =>
          let root := root.put p (.link target)
          if target = (spelling p).toList then
            return root
          else
            readAlong root (startOf origin target) (steps target ++ rest)
      | _ => return root.put p (.file (← IO.FS.readBinFile (← place p)))

def readTree (paths : List (List Char)) : IO Tree := do
  let top ← IO.currentDir
  let current := (steps top.toString.toList).filter (· != here)
  let root ← paths.foldlM
    (fun root path => readAlong root (startOf current path) (steps path)) Entry.empty
  return { root, current }

def readEnvironment : IO Environment := do
  let values ← Program.watched.mapM fun name => do
    return (← IO.getEnv name).map fun value => (name, value.toUTF8)
  return values.filterMap id

def writeChanges (before after : Entry) : IO Unit := do
  for (p, bytes) in after.changesSince before do
    IO.FS.writeBinFile (← place p) bytes

end GroupedVariants.Terminal

def main (args : List String) : IO UInt32 := do
  let words := args.map String.toList
  let env ← Terminal.readEnvironment
  let tree ← Terminal.readTree (Program.namedPaths words env)
  let stdin ←
    if Program.readsStdin words env then (← IO.getStdin).readBinToEnd else pure ByteArray.empty
  let o := Program.run words env { tree, stdin }
  Terminal.writeChanges tree.root o.tree.root
  IO.print (String.ofList o.stdout)
  IO.eprint (String.ofList o.stderr)
  return o.code.toUInt32
