import GroupedVariants.Yaml.Node
import GroupedVariants.Yaml.Plain
import GroupedVariants.Yaml.DoubleQuoted
import GroupedVariants.Yaml.Literal

/-!
# 文書を読み進める目印
-/

namespace GroupedVariants.Yaml

structure Cursor where
  rest : List Char
  position : Position := {}
  /-- 括弧の外で、ここから鍵や並びの項目を始めてよい -/
  fresh : Bool := true
  /-- 名札の付いた値。新しいものが先頭 -/
  anchors : List (List Char × Node) := []
  /-- 宣言された札の略号 -/
  handles : List (List Char) := []

namespace Cursor

def column (c : Cursor) : Nat := c.position.column

/-- 改行を含まない先頭の `n` 文字を読む。 -/
def take (c : Cursor) (n : Nat) : Cursor :=
  { c with rest := c.rest.drop n, position := c.position.skip n, fresh := false }

/-- 先頭の一文字を読み、その先では鍵や項目を始めてよい。 -/
def takeIndicator (c : Cursor) : Cursor := { c.take 1 with fresh := true }

def atEnd (c : Cursor) : Bool := c.rest.isEmpty

def atMark (c : Cursor) : Bool := c.column == 0 && atDocumentMark c.rest

/-- 空白か行の終わりが続く `ch`。 -/
def atIndicator (c : Cursor) (ch : Char) : Bool :=
  match c.rest with
  | x :: r => x == ch && atBlank r
  | [] => false

def at? (c : Cursor) (ch : Char) : Bool := c.rest.head? == some ch

/-- 注釈の中を読み飛ばす。 -/
def gapFrom (flow comment : Bool) (c : Cursor) : (p : Position) → (fresh : Bool) → List Char → Cursor
  | p, fresh, [] => { c with rest := [], position := p, fresh := fresh }
  | p, fresh, ch :: r =>
    if isBreak ch then gapFrom flow false c p.nextLine (fresh || !flow) r
    else if comment then gapFrom flow true c p.next fresh r
    else if ch == '\ufeff' && p.column == 0 then gapFrom flow false c p.next fresh r
    else if ch == ' ' || (ch == '\t' && (flow || !fresh)) then gapFrom flow false c p.next fresh r
    else if ch == '#' then gapFrom flow true c p.next fresh r
    else { c with rest := ch :: r, position := p, fresh := fresh }

/-- 次の語まで空白と改行と注釈を読み飛ばす。括弧の外では改行の後に鍵を始めてよい。 -/
def skipGap (flow : Bool) (c : Cursor) : Cursor := gapFrom flow false c c.position c.fresh c.rest

def bind (c : Cursor) (name : List Char) (n : Node) : Cursor :=
  { c with anchors := (name, n) :: c.anchors }

def bind? (c : Cursor) (name : Option (List Char)) (n : Node) : Cursor :=
  match name with
  | some name => c.bind name n
  | none => c

def ofScanned (c : Cursor) (x : Scanned) (fresh : Bool) : Cursor :=
  { c with rest := x.rest, position := x.position, fresh := fresh }

end Cursor

/-! ## 名札と札 -/

/-- 値に添えた名札と札。 -/
structure Properties where
  anchor : Option (List Char) := none
  tagged : Bool := false

def Properties.any (p : Properties) : Bool := p.anchor.isSome || p.tagged

/-- 名札の名の直後に来てよい文字。 -/
def endsName : List Char → Bool
  | [] => true
  | c :: r => atBlank (c :: r) || c == '?' || c == ':' || c == ',' || c == ']' || c == '}' ||
      c == '%' || c == '@' || c == '\x60'

/-- 記号 `&` か `*` とその名。 -/
def readName (c : Cursor) : Except Fault (List Char × Cursor) :=
  let name := (c.rest.drop 1).takeWhile isNameChar
  let c := c.take (name.length + 1)
  if name.isEmpty || !endsName c.rest then .error .badName else .ok (name, c)

def isTagChar (c : Char) : Bool :=
  isNameChar c || c == ';' || c == '/' || c == '?' || c == ':' || c == '@' || c == '&' ||
    c == '=' || c == '+' || c == '$' || c == '.' || c == '!' || c == '~' || c == '*' ||
    c == '\x27' || c == '(' || c == ')' || c == '%'

/-- 百分率記号の後には二桁の十六進数が来る。 -/
def escapesAreWhole : List Char → Bool
  | [] => true
  | '%' :: a :: b :: r => (Text.natOf? 16 [a, b]).isSome && escapesAreWhole r
  | '%' :: _ => false
  | _ :: r => escapesAreWhole r

/-- 略号 `!`、`!!`、`!name!` のどれかと、その先。 -/
def splitHandle (s : List Char) : List Char × List Char :=
  let name := (s.drop 1).takeWhile isNameChar
  match s.drop (name.length + 1) with
  | '!' :: r => ('!' :: name ++ ['!'], r)
  | _ => (['!'], s.drop 1)

/-- 札は値の読み方を変えないので、形だけを確かめて読み飛ばす。 -/
def skipTag (flow : Bool) (c : Cursor) : Except Fault Cursor :=
  match c.rest.drop 1 with
  | '<' :: r =>
    let uri := r.takeWhile fun ch => isTagChar ch || ch == ',' || ch == '[' || ch == ']'
    match r.drop uri.length with
    | '>' :: r' =>
      if uri.isEmpty || !escapesAreWhole uri then .error .badTag
      else if atBlank r' || (flow && r'.head? == some ',') then .ok (c.take (uri.length + 3))
      else .error .badTag
    | _ => .error .badTag
  | _ =>
    let (handle, r) := splitHandle c.rest
    let suffix := r.takeWhile isTagChar
    let r' := r.drop suffix.length
    if (handle.length > 1 && suffix.isEmpty) || !escapesAreWhole suffix then .error .badTag
    else if handle.length > 2 && !c.handles.contains handle then .error .unknownTagHandle
    else if atBlank r' || (flow && r'.head? == some ',') then
      .ok (c.take (handle.length + suffix.length))
    else .error .badTag

/-- 名札か札を一つ読む。同じ種のものを二つは読まない。 -/
def readProperty (flow : Bool) (held : Properties) (c : Cursor) :
    Except Fault (Option (Properties × Cursor)) :=
  if c.at? '&' && held.anchor.isNone then do
    let (name, c) ← readName c
    return some ({ held with anchor := some name }, c.bind name .cycle)
  else if c.at? '!' && !held.tagged then do
    return some ({ held with tagged := true }, ← skipTag flow c)
  else .ok none

def readAlias (c : Cursor) : Except Fault (Node × Cursor) := do
  let (name, c) ← readName c
  match c.anchors.lookup name with
  | some n => return (n, c)
  | none => throw .unknownAlias

end GroupedVariants.Yaml
