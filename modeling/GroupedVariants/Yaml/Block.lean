import GroupedVariants.Yaml.Flow

/-!
# 字下げで書いた値

`floor` は囲む並びや組の字下げより一つ深い桁。値はそれより浅い桁では始まらない。
-/

namespace GroupedVariants.Yaml

/-- 鍵になれる、一行の値。名札や札だけの鍵は空の値。 -/
def readKeyContent (fuel floor : Nat) (props : Properties) (c : Cursor) :
    Except Fault (Option (Node × Cursor)) := do
  if c.at? '*' && !props.any then
    return some (← readAlias c)
  else if c.at? '[' || c.at? '\x7b' then
    match ← readFlowContent fuel floor c with
    | some (n, c) => return some (n, { c with fresh := false })
    | none => return none
  else
    match ← readInlineScalar false floor c with
    | some x => return some x
    | none => if props.any then return some (.empty, c) else return none

/-- 名札と札を読み進め、鍵の中身に至る。 -/
def readKeyFrom (fuel floor : Nat) (props : Properties) (c : Cursor) :
    Except Fault (Option (Node × Cursor)) :=
  match fuel with
  | 0 => .error .tooDeep
  | fuel + 1 => do
    match ← readProperty false props c with
    | some (props, c') =>
      let c' := c'.skipGap false
      if c'.position.line != c.position.line then return none
      else readKeyFrom fuel floor props c'
    | none =>
      match ← readKeyContent fuel floor props c with
      | some (n, c) => return some (n, c.bind? props.anchor n)
      | none => return none

/-- ここから鍵が始まっていれば、その鍵と `:` の位置。 -/
def readKey? (fuel floor : Nat) (c : Cursor) : Except Fault (Option (Node × Cursor)) := do
  if !c.fresh then return none
  match ← readKeyFrom fuel floor {} c with
  | none => return none
  | some (n, c') =>
    let c' := c'.skipGap false
    if c'.atIndicator ':' && keyFits c c' then return some (n, c') else return none

/-- ここには値が書かれていない。`indentless` は囲む組と同じ桁の並びを許すこと。 -/
def isAbsent (floor : Nat) (indentless : Bool) (c : Cursor) : Bool :=
  c.atEnd || c.atMark || c.column + 1 < floor ||
    (c.column + 1 == floor && !(c.at? '|' || c.at? '>' || (indentless && c.atIndicator '-')))

mutual

/-- 一つの値。書かれていなければ空の値。 -/
def readBlockNode (fuel floor : Nat) (indentless : Bool) (props : Properties) (c : Cursor) :
    Except Fault (Node × Cursor) :=
  match fuel with
  | 0 => .error .tooDeep
  | fuel + 1 => do
    let c := c.skipGap false
    if isAbsent floor indentless c then return (.empty, c.bind? props.anchor .empty)
    let (n, c) ← readBlockContent fuel floor indentless props c
    return (n, c.bind? props.anchor n)

/-- 値の中身。`c` は語の頭にある。 -/
def readBlockContent (fuel floor : Nat) (indentless : Bool) (props : Properties) (c : Cursor) :
    Except Fault (Node × Cursor) :=
  match fuel with
  | 0 => .error .tooDeep
  | fuel + 1 => do
    if c.atIndicator '-' then
      if !c.fresh then throw .misplacedIndicator
      let (xs, c) ← readBlockItems fuel c.column (c.column + 1 == floor) c
      return (.sequence xs, c)
    else if c.atIndicator '?' then
      if !c.fresh then throw .misplacedIndicator
      let (es, c) ← readBlockEntries fuel c.column c
      return (.mapping es, c)
    else if c.atIndicator ':' then throw .misplacedIndicator
    else
      match ← readKey? fuel floor c with
      | some _ =>
        let (es, c) ← readBlockEntries fuel c.column c
        return (.mapping es, c)
      | none =>
        match ← readProperty false props c with
        | some (props', c) => readBlockNode fuel floor indentless props' c
        | none =>
          if c.at? '|' || c.at? '>' then
            let x ← Literal.read (c.at? '>') floor c.position.next (c.rest.drop 1)
            return (.scalar x.text false, c.ofScanned x true)
          else if c.at? '*' && !props.any then readAlias c
          else if c.at? '[' || c.at? '\x7b' then
            match ← readFlowContent fuel floor c with
            | some (n, c) => return (n, { c with fresh := false })
            | none => throw .unexpectedCharacter
          else
            match ← readInlineScalar false floor c with
            | some x => return x
            | none => throw .unexpectedCharacter

/-- 桁 `column` に並ぶ項目。`c` は初めの `-` にある。 -/
def readBlockItems (fuel column : Nat) (indentless : Bool) (c : Cursor) :
    Except Fault (List Node × Cursor) :=
  match fuel with
  | 0 => .error .tooDeep
  | fuel + 1 => do
    let (n, c) ← readBlockNode fuel (column + 1) false {} c.takeIndicator
    let c := c.skipGap false
    if c.atEnd || c.atMark || c.column < column then return ([n], c)
    else if c.column == column && c.atIndicator '-' && c.fresh then
      let (ns, c) ← readBlockItems fuel column indentless c
      return (n :: ns, c)
    else if indentless then return ([n], c)
    else throw .missingEntry

/-- 桁 `column` に並ぶ鍵と値。`c` は初めの鍵の頭にある。 -/
def readBlockEntries (fuel column : Nat) (c : Cursor) :
    Except Fault (List (Node × Node) × Cursor) :=
  match fuel with
  | 0 => .error .tooDeep
  | fuel + 1 => do
    let (e, c) ← readBlockEntry fuel column c
    let c := c.skipGap false
    if c.atEnd || c.atMark || c.column < column then return ([e], c)
    else if c.column != column then throw .missingKey
    else
      let (es, c) ← readBlockEntries fuel column c
      return (e :: es, c)

def readBlockEntry (fuel column : Nat) (c : Cursor) :
    Except Fault ((Node × Node) × Cursor) :=
  match fuel with
  | 0 => .error .tooDeep
  | fuel + 1 => do
    if c.atIndicator '?' then
      if !c.fresh then throw .misplacedIndicator
      let (k, c) ← readBlockNode fuel (column + 1) true {} c.takeIndicator
      let c := c.skipGap false
      if c.column == column && c.atIndicator ':' && c.fresh && !c.atMark then
        let (v, c) ← readBlockNode fuel (column + 1) true {} c.takeIndicator
        return ((k, v), c)
      else return ((k, .empty), c)
    else
      match ← readKey? fuel (column + 1) c with
      | some (k, c) =>
        let (v, c) ← readBlockNode fuel (column + 1) true {} (c.take 1)
        return ((k, v), c)
      | none => throw .missingKey

end

end GroupedVariants.Yaml
