import GroupedVariants.CommandLine.Grammar
import GroupedVariants.Config.Layers

/-!
# 引数の読み方

引数から離れて書かれた値は、次の引数が別のものだと分かるまで確かめない。
-/

namespace GroupedVariants.CommandLine

/-- 一文字の値が読めない理由。 -/
inductive CharFault where
  | empty
  | tooMany
  deriving DecidableEq, Repr

def CharFault.message : CharFault → String
  | empty => "cannot parse char from empty string"
  | tooMany => "too many characters in string"

inductive Fault where
  | unexpectedArgument (shown : Word)
  | missingValue (shown : String)
  | surplusValue (value : Word) (s : Switch)
  | repeated (s : Switch)
  | invalidChar (value : Word) (s : Switch) (cause : CharFault)
  | unrecognizedCommand (w : Word)
  | commandRequired
  deriving DecidableEq, Repr

def Fault.message : Fault → List Char
  | unexpectedArgument shown => "unexpected argument '".toList ++ shown ++ "' found".toList
  | missingValue shown => ("a value is required for '" ++ shown ++ "' but none was supplied").toList
  | surplusValue value s =>
    "unexpected value '".toList ++ value ++
      ("' for '" ++ s.shown ++ "' found; no more were expected").toList
  | repeated s => ("the argument '" ++ s.shown ++ "' cannot be used multiple times").toList
  | invalidChar value s cause =>
    "invalid value '".toList ++ value ++ ("' for '" ++ s.shown ++ "': " ++ cause.message).toList
  | unrecognizedCommand w => "unrecognized subcommand '".toList ++ w ++ ['\x27']
  | commandRequired => "'vgroup' requires a subcommand but one was not provided".toList

/-- 命令を実行せずに終わる理由。`asked` でない説明は、引数が足りないことを示す。 -/
inductive Stop where
  | help (topic : Topic) (asked : Bool)
  | version
  | fault (f : Fault)
  deriving DecidableEq, Repr

/-! ## 確かめた引数 -/

structure Given where
  config : Option Word := none
  flags : Overrides := fun _ => none
  write : Bool := false
  pretty : Bool := false
  paths : List Word := []

namespace Given

def isEmpty (g : Given) : Bool := g.config.isNone && Role.all.all fun r => (g.flags r).isNone

def setFlag (g : Given) (r : Role) (c : Char) : Given :=
  { g with flags := fun r' => if r' = r then some c else g.flags r' }

def addPath (g : Given) (w : Word) : Except Fault Given :=
  if w.isEmpty then .error (.missingValue pathsShown) else .ok { g with paths := g.paths ++ [w] }

/-- 値のある引数。同じものは一度しか使えない。 -/
def setValue (g : Given) (s : Switch) (value : Word) : Except Fault Given :=
  match s with
  | .config =>
    if g.config.isSome then .error (.repeated s)
    else if value.isEmpty then .error (.missingValue s.shown)
    else .ok { g with config := some value }
  | .delimiter r =>
    if (g.flags r).isSome then .error (.repeated s)
    else
      match value with
      | [] => .error (.invalidChar value s .empty)
      | [c] => .ok (g.setFlag r c)
      | _ => .error (.invalidChar value s .tooMany)
  | _ => .ok g

def turnOn (g : Given) (scope : Scope) (s : Switch) : Except Stop Given :=
  match s with
  | .help => .error (.help (.scope scope) true)
  | .version => .error .version
  | .write => if g.write then .error (.fault (.repeated s)) else .ok { g with write := true }
  | .pretty => if g.pretty then .error (.fault (.repeated s)) else .ok { g with pretty := true }
  | _ => .ok g

end Given

/-! ## 読みかけの状態 -/

/-- まだ確かめていない引数。 -/
inductive Pending where
  | value (s : Switch) (given : Option Word)
  | paths (ws : List Word)
  deriving DecidableEq, Repr

structure Reader where
  given : Given := {}
  pending : Option Pending := none
  /-- `--` より後 -/
  trailing : Bool := false

namespace Reader

def awaited? (r : Reader) : Option Switch :=
  match r.pending with
  | some (.value s none) => some s
  | _ => none

/-- 読みかけのものを確かめる。 -/
def settle (r : Reader) : Except Fault Given :=
  match r.pending with
  | none => .ok r.given
  | some (.value s none) => .error (.missingValue s.shown)
  | some (.value s (some w)) => r.given.setValue s w
  | some (.paths ws) => ws.foldlM Given.addPath r.given

def settled (r : Reader) : Except Stop Reader :=
  match r.settle with
  | .ok g => .ok { r with given := g, pending := none }
  | .error f => .error (.fault f)

/-- 名の付いた引数を、添えられた値とともに読む。 -/
def useSwitch (scope : Scope) (r : Reader) (s : Switch) (attached : Option Word) :
    Except Stop Reader := do
  let r ← r.settled
  match s.valueName?, attached with
  | some _, some value =>
    match r.given.setValue s value with
    | .ok g => return { r with given := g }
    | .error f => throw (.fault f)
  | some _, none => return { r with pending := some (.value s none) }
  | none, _ => return { r with given := ← r.given.turnOn scope s }

/-- `--` に続く名と、`=` で添えた値。 -/
def readLong (scope : Scope) (r : Reader) (body : Word) : Except Stop Reader :=
  let name := body.takeWhile (· != '=')
  let attached := if name.length < body.length then some (body.drop (name.length + 1)) else none
  match scope.ofLong? name, attached with
  | none, _ => .error (.fault (.unexpectedArgument ('-' :: '-' :: name)))
  | some s, some value =>
    if s.valueName?.isSome then r.useSwitch scope s attached
    else .error (.fault (.surplusValue value s))
  | some s, none => r.useSwitch scope s none

/-- 一文字の名の並び。値を取るものの先は、そのまま値になる。 -/
def readShort (scope : Scope) : Reader → Word → Except Stop Reader
  | r, [] => .ok r
  | r, c :: rest =>
    match scope.ofShort? c with
    | none => .error (.fault (.unexpectedArgument ['-', c]))
    | some s =>
      if s.valueName?.isSome then
        match rest with
        | [] => r.useSwitch scope s none
        | '=' :: value => r.useSwitch scope s (some value)
        | value => r.useSwitch scope s (some value)
      else do
        readShort scope (← r.useSwitch scope s none) rest

/-- 名の付かない引数は、パスを取る命令でだけ使える。 -/
def readWord (scope : Scope) (r : Reader) (w : Word) : Except Stop Reader :=
  if scope.takesPaths then
    match r.pending with
    | some (.paths ws) => .ok { r with pending := some (.paths (ws ++ [w])) }
    | _ => do return { ← r.settled with pending := some (.paths [w]) }
  else if scope ≠ .top || (r.trailing && (Topic.ofName? w).isSome) then
    .error (.fault (.unexpectedArgument w))
  else .error (.fault (.unrecognizedCommand w))

def readArgument (scope : Scope) (r : Reader) (w : Word) : Except Stop Reader :=
  if r.trailing then r.readWord scope w
  else
    match w with
    | ['-', '-'] => .ok { r with trailing := true }
    | '-' :: '-' :: body => r.readLong scope body
    | '-' :: c :: rest => r.readShort scope (c :: rest)
    | _ =>
      match r.awaited? with
      | some s => .ok { r with pending := some (.value s (some w)) }
      | none => r.readWord scope w

end Reader

/-! ## 引数の並び -/

/-- `help` に続く名を順に探す。 -/
def helpStop : List Word → Stop
  | [] => .help (.scope .top) true
  | w :: rest =>
    match Topic.ofName? w, rest with
    | none, _ => .fault (.unrecognizedCommand w)
    | some topic, [] => .help topic true
    | some _, w :: _ => .fault (.unrecognizedCommand w)

/-- 命令の名か引数の終わりまで読む。 -/
def readTop (r : Reader) : List Word → Except Stop (Reader × Option (Scope × List Word))
  | [] => .ok (r, none)
  | w :: rest =>
    match if r.trailing || r.awaited?.isSome then none else Topic.ofName? w with
    | some .help => .error (helpStop rest)
    | some (.scope s) => .ok (r, some (s, rest))
    | none => do readTop (← r.readArgument .top w) rest

def commandOf (g : Given) : Scope → Option Command
  | .top => none
  | .expand => some (.expand g.write g.paths)
  | .check => some (.check g.paths)
  | .spans => some (.spans g.pretty g.paths)
  | .repl => some .repl
  | .config => some .config

def readCommand (scope : Scope) (ws : List Word) : Except Stop (Option Command) := do
  let r ← (← ws.foldlM (Reader.readArgument scope) {}).settled
  return commandOf r.given scope

structure Invocation where
  config : Option Word
  flags : Overrides
  command : Command

/-- 引数にない設定ファイルのパスを補う。 -/
def Given.withSetting (g : Given) (setting : Option Word) : Except Stop Given :=
  match g.config, setting with
  | none, some path =>
    match g.setValue .config path with
    | .ok g => .ok g
    | .error f => .error (.fault f)
  | _, _ => .ok g

/-- `setting` は環境変数にある設定ファイルのパス。 -/
def parse (setting : Option Word) (ws : List Word) : Except Stop Invocation := do
  let (r, found) ← readTop {} ws
  let command ← match found with
    | some (scope, rest) => readCommand scope rest
    | none => pure none
  let g ← (← r.settled).given.withSetting setting
  match command with
  | some command => return ⟨g.config, g.flags, command⟩
  | none => throw (if g.isEmpty then .help (.scope .top) false else .fault .commandRequired)

end GroupedVariants.CommandLine
