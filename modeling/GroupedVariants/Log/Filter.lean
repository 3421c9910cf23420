import GroupedVariants.Log.Record
import GroupedVariants.Text.Parts

/-!
# 記録の選び方

指定は読点で区切り、部分の名ごとに残す重さを決める。
-/

namespace GroupedVariants.Log

/-- `least` より軽い記録は残さない。`none` は何も残さない。 -/
structure Directive where
  /-- 対象とする部分の名の頭。空ならすべて -/
  target : List Char
  least : Option Level
  deriving DecidableEq, Repr

abbrev Filter := List Directive

namespace Directive

def covers (d : Directive) (r : Record) : Bool := d.target.isPrefixOf r.target.toList

def admits (d : Directive) (r : Record) : Bool :=
  match d.least with
  | some l => l.weight ≤ r.level.weight
  | none => false

/-! ## 読み方 -/

/-- 重さの名か、重い順の番号。零は何も残さない。 -/
def least? (s : List Char) : Option (Option Level) :=
  match String.ofList (s.map Char.toLower) with
  | "off" | "0" => some none
  | "error" | "1" => some (some .error)
  | "warn" | "2" => some (some .warn)
  | "info" | "3" => some (some .info)
  | "debug" | "4" => some (some .debug)
  | "trace" | "5" => some (some .trace)
  | _ => none

def isTargetChar (c : Char) : Bool :=
  c.isAlphanum || c == '_' || c == ':' || c == '-' || 0x80 ≤ c.toNat

/-- 部分の名か、角括弧で囲んだ区間の名。 -/
inductive Head where
  | target (name : List Char)
  | span (name : List Char)

def head? : List Char → Option (Head × List Char)
  | '[' :: r =>
    let name := r.takeWhile (· != ']')
    match r.drop name.length with
    | ']' :: r => some (.span name, r)
    | _ => none
  | s =>
    let name := s.takeWhile isTargetChar
    if name.isEmpty then none else some (.target name, s.drop name.length)

/-- 先頭の一つか二つの名と、その先。 -/
def heads? (s : List Char) : Option (List Head × List Char) :=
  match head? s with
  | none => none
  | some (a, r) =>
    match head? r with
    | some (b, r) => some ([a, b], r)
    | none => some ([a], r)

def Head.target? : Head → Option (List Char)
  | .target name => some name
  | .span _ => none

def Head.isSpan : Head → Bool
  | .target _ => false
  | .span name => !name.isEmpty

/-- 名の後の重さ。省くとすべてを残す。 -/
def suffix? : List Char → Option (Option Level)
  | [] | ['='] => some (some .trace)
  | '=' :: s => least? s
  | _ => none

/-- 区間の指定は、区間に属さない記録には効かないので、何も加えない。 -/
def parse? (s : List Char) : Option (Option Directive) :=
  match least? s with
  | some least => some (some ⟨[], least⟩)
  | none => do
    let (heads, r) ← heads? s
    let least ← suffix? r
    if heads.any Head.isSpan then return none
    return some ⟨(heads.findSome? Head.target?).getD [], least⟩

end Directive

namespace Filter

def atLeast (l : Level) : Filter := [⟨[], some l⟩]

/-- 一つも指定がなければ、最も重い記録だけを残す。 -/
def parse? (s : List Char) : Option Filter :=
  let parts := (Text.split ',' s).filter (!·.isEmpty)
  if parts.isEmpty then some (atLeast .error)
  else (parts.mapM Directive.parse?).map (·.filterMap id)

/-- 指定がないか読めなければ、警告より重い記録を残す。 -/
def ofVariable (value : Option (List Char)) : Filter := (value >>= parse?).getD (atLeast .warn)

/-- 二つのうち、対象の名の長い方。同じ長さなら後のもの。 -/
def narrower (best : Option Directive) (d : Directive) : Option Directive :=
  match best with
  | some b => if d.target.length < b.target.length then best else some d
  | none => some d

def allows (f : Filter) (r : Record) : Bool :=
  ((f.filter (·.covers r)).foldl narrower none).any (·.admits r)

/-- 残す記録を一行ずつ書いたもの。 -/
def write (f : Filter) (rs : List Record) : List Char :=
  (rs.filter f.allows).flatMap Record.line

end Filter

end GroupedVariants.Log
