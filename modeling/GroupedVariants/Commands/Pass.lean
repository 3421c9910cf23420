import GroupedVariants.Files.Discovery
import GroupedVariants.Json.Value
import GroupedVariants.Transformer

/-!
# 入力を順に読み、展開するか、調べるか、範囲を示す
-/

namespace GroupedVariants

/-- 文を読み出す先。 -/
structure Sources where
  tree : Files.Tree
  stdin : ByteArray := ByteArray.empty

/-- 読めなかった入力と、その理由。 -/
structure ReadFault where
  input : Input
  cause : Files.Fault
  deriving DecidableEq, Repr

def ReadFault.message (f : ReadFault) : List Char :=
  match f.input with
  | .stdin => f.cause.message.toList
  | .file path =>
    "failed to read '".toList ++ path ++ "': ".toList ++ f.cause.message.toList

namespace Input

def read (s : Sources) : Input → Except ReadFault (List Char)
  | stdin =>
    match String.fromUTF8? s.stdin with
    | some text => .ok text.toList
    | none => .error ⟨stdin, .notText⟩
  | file path => (s.tree.readText path).mapError (⟨file path, ·⟩)

end Input

/-- 読んだ入力と、そのときの文。 -/
structure Reading where
  input : Input
  text : List Char
  deriving DecidableEq, Repr

/-- 入力を順に読み、読めないものがあればそこで止まった結果。 -/
structure Pass where
  readings : List Reading
  fault? : Option ReadFault
  sources : Sources

namespace Pass

/-- 一つ読むたびに `edit` で先を改める。 -/
def run (edit : Reading → Sources → Sources) (s : Sources) : List Input → Pass
  | [] => ⟨[], none, s⟩
  | i :: is =>
    match i.read s with
    | .error f => ⟨[], some f, s⟩
    | .ok text =>
      let rest := run edit (edit ⟨i, text⟩ s) is
      { rest with readings := ⟨i, text⟩ :: rest.readings }

/-- 読むだけで何も改めない。 -/
def inspect (s : Sources) (is : List Input) : Pass := run (fun _ s => s) s is

/-- 最後まで読めたときにだけ答えがある。 -/
def result {α : Type} (p : Pass) (answer : α) : Except ReadFault α :=
  match p.fault? with
  | some f => .error f
  | none => .ok answer

end Pass

/-- 調べた入力の数と、展開で変わる入力の名。 -/
structure Report where
  scanned : Nat
  changed : List (List Char)
  deriving DecidableEq, Repr

namespace Transformer

/-! ## 展開 -/

def changes (t : Transformer) (text : List Char) : Bool := (t.rewrite? text).isSome

def report (t : Transformer) (readings : List Reading) : Report :=
  ⟨readings.length, (readings.filter fun r => t.changes r.text).map (·.input.label)⟩

/-- 展開で変わるファイルの内容を、展開した文に替える。 -/
def rewriteInPlace (t : Transformer) (r : Reading) (s : Sources) : Sources :=
  match r.input, t.rewrite? r.text with
  | .file path, some text => { s with tree := s.tree.writeText path text }
  | _, _ => s

def expandPass (t : Transformer) (write : Bool) (s : Sources) (is : List Input) : Pass :=
  Pass.run (fun r s => if write then t.rewriteInPlace r s else s) s is

/-- 読んだ文のうち、ファイルに書き戻さずに出すもの。 -/
def isPrinted (write : Bool) (i : Input) : Bool :=
  match i with
  | .stdin => true
  | .file _ => !write

def expansion (t : Transformer) (write : Bool) (readings : List Reading) : List Char :=
  readings.flatMap fun r => if isPrinted write r.input then t.expand r.text else []

/-! ## 検査 -/

/-- 文は改めず、範囲の有無だけを見る。 -/
def survey (t : Transformer) (readings : List Reading) : Report :=
  ⟨readings.length,
    (readings.filter fun r => !(t.findMatches r.text).isEmpty).map (·.input.label)⟩

end Transformer

/-! ## 範囲の一覧 -/

def Match.toJson (m : Match) : Json.Value :=
  .record [("start", .ofNat m.start), ("end", .ofNat m.stop), ("content", .ofText m.content)]

namespace Transformer

def matchesJson (t : Transformer) (text : List Char) : Json.Value :=
  .array ((t.findMatches text).map Match.toJson)

def readingJson (t : Transformer) (r : Reading) : Json.Value :=
  .record [("source", .ofText r.input.label), ("matches", t.matchesJson r.text)]

/-- 入力ごとに一つの文書。 -/
def listing (t : Transformer) (indented : Bool) (readings : List Reading) : List Char :=
  readings.flatMap fun r =>
    let v := t.readingJson r
    (if indented then v.pretty 0 else v.compact) ++ ['\n']

end Transformer

end GroupedVariants
