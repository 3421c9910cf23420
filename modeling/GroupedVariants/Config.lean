import GroupedVariants.Delimiters
import GroupedVariants.Yaml.Document
import GroupedVariants.Yaml.Layout

/-!
# 設定と、その YAML での書き方
-/

namespace GroupedVariants

/-- 何も指定しないときに調べる拡張子。 -/
def defaultExtensions : List String :=
  ["html", "js", "jsx", "ts", "tsx", "vue", "svelte", "astro", "md", "mdx"]

structure Config where
  delimiters : Delimiters := {}
  /-- 点を含まない拡張子 -/
  extensions : List String := defaultExtensions
  deriving DecidableEq, Repr

namespace Config

/-! ## 書き方 -/

def layout (c : Config) : Yaml.Layout :=
  .record [
    ("transform".toList, .record (Role.all.map fun r =>
      (r.name.toList, .scalar ⟨[c.delimiters.get r], .singleQuoted⟩))),
    ("files".toList, .record [
      ("extensions".toList, .list (c.extensions.map fun e => ⟨e.toList, .ofText e.toList⟩))])]

def toYaml (c : Config) : String :=
  match c.layout with
  | .record fields => String.ofList (Yaml.Layout.writeFields 0 fields)
  | _ => ""

/-! ## 読み方

知らない鍵は読み飛ばし、同じ鍵が二度あれば読めない。
-/

/-- 鍵ごとの読み方 `set` で、組を初めの値から順に埋める。鍵は文字列でなければならない。 -/
def readFields {α : Type} (known : List (List Char))
    (set : α → List Char → Yaml.Node → Option α) (seen : List (List Char)) (a : α) :
    List (Yaml.Node × Yaml.Node) → Option α
  | [] => some a
  | (k, v) :: es => do
    let name ← k.text?
    if name ∈ known then
      if name ∈ seen then none
      else readFields known set (name :: seen) (← set a name v) es
    else readFields known set seen a es

def charOf? (n : Yaml.Node) : Option Char :=
  match n.text? with
  | some [c] => some c
  | _ => none

def setDelimiter (d : Delimiters) (name : List Char) (v : Yaml.Node) : Option Delimiters := do
  match Role.all.find? fun r => r.name.toList == name with
  | some r => return d.set (← charOf? v) r
  | none => return d

def readDelimiters (n : Yaml.Node) : Option Delimiters := do
  readFields (Role.all.map (·.name.toList)) setDelimiter [] {} (← n.entries?)

def readExtensions (n : Yaml.Node) : Option (List String) := do
  (← n.items?).mapM fun x => x.text?.map String.ofList

def readFiles (n : Yaml.Node) : Option (List String) := do
  readFields ["extensions".toList] (fun _ _ v => readExtensions v) [] defaultExtensions
    (← n.entries?)

def setSection (c : Config) (name : List Char) (v : Yaml.Node) : Option Config :=
  if name == "transform".toList then (readDelimiters v).map ({ c with delimiters := · })
  else (readFiles v).map ({ c with extensions := · })

def ofNode? (n : Yaml.Node) : Option Config := do
  readFields ["transform".toList, "files".toList] setSection [] {} (← n.entries?)

/-- 設定が読めない理由。 -/
inductive Unreadable where
  | syntaxFault (f : Yaml.Fault)
  | unexpectedValue

def Unreadable.message : Unreadable → String
  | syntaxFault f => f.message
  | unexpectedValue => "a value has an unexpected type, or a key is repeated"

/-- 空白だけの文書には値がない。 -/
def document (text : List Char) : Except Yaml.Fault (Option Yaml.Node) :=
  if Text.isAllBlank text then .ok none else Yaml.parse text

/-- 値のない文書は、何も指定しない設定。 -/
def ofYaml (s : String) : Except Unreadable Config :=
  match document s.toList with
  | .error f => .error (.syntaxFault f)
  | .ok none => .ok {}
  | .ok (some n) =>
    match ofNode? n with
    | some c => .ok c
    | none => .error .unexpectedValue

end Config

end GroupedVariants
