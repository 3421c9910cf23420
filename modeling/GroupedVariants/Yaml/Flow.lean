import GroupedVariants.Yaml.Cursor

/-!
# 括弧で書いた値
-/

namespace GroupedVariants.Yaml

/-- 引用符の値か裸の値。どちらでもなければ `none`。 -/
def readInlineScalar (flow : Bool) (floor : Nat) (c : Cursor) :
    Except Fault (Option (Node × Cursor)) :=
  match c.rest with
  | '\x27' :: r => do
    let x ← SingleQuoted.read .none c.position.next r
    return some (.scalar x.text false, c.ofScanned x false)
  | '"' :: r => do
    let x ← DoubleQuoted.read .none c.position.next r
    return some (.scalar x.text false, c.ofScanned x false)
  | s =>
    if Plain.canStart flow s then do
      let (x, gap) ← Plain.read flow floor .none c.position s
      return some (.scalar x.text true, c.ofScanned x gap.hasBreak)
    else .ok none

/-- 鍵は一行に収まり、`:` まで千二十四文字を超えない。 -/
def keyFits (start : Cursor) (c : Cursor) : Bool :=
  start.position.line == c.position.line && c.column ≤ start.column + 1024

def atFlowEnd (closing : Char) (c : Cursor) : Bool := c.at? ',' || c.at? closing

mutual

/-- 括弧の中の一つの値。`c` は語の頭にある。 -/
def readFlowNode (fuel floor : Nat) (props : Properties) (c : Cursor) :
    Except Fault (Node × Cursor) :=
  match fuel with
  | 0 => .error .tooDeep
  | fuel + 1 => do
    if c.atMark then throw .unclosedCollection
    match ← readProperty true props c with
    | some (props, c) => readFlowNode fuel floor props (c.skipGap true)
    | none =>
      if c.at? '*' && !props.any then readAlias c
      else
        match ← readFlowContent fuel floor c with
        | some (n, c) => return (n, c.bind? props.anchor n)
        | none =>
          if props.any && (c.at? ',' || c.at? ':' || c.at? '?' || c.at? ']' || c.at? '}') then
            return (.empty, c.bind? props.anchor .empty)
          else throw .unexpectedCharacter

/-- 括弧か、引用符か、裸の値。 -/
def readFlowContent (fuel floor : Nat) (c : Cursor) : Except Fault (Option (Node × Cursor)) :=
  match fuel with
  | 0 => .error .tooDeep
  | fuel + 1 => do
    if c.at? '[' then
      let (xs, c) ← readFlowItems fuel floor ((c.take 1).skipGap true)
      return some (.sequence xs, c)
    else if c.at? '\x7b' then
      let (es, c) ← readFlowEntries fuel floor ((c.take 1).skipGap true)
      return some (.mapping es, c)
    else readInlineScalar true floor c

/-- `:` の先の値。何も書かれていなければ空の値。 -/
def readFlowValue (fuel floor : Nat) (closing : Char) (c : Cursor) :
    Except Fault (Node × Cursor) :=
  match fuel with
  | 0 => .error .tooDeep
  | fuel + 1 =>
    let c := (c.take 1).skipGap true
    if atFlowEnd closing c then .ok (.empty, c)
    else (readFlowNode fuel floor {} c).map fun (n, c) => (n, c.skipGap true)

/-- `?` の先の鍵と、`:` があればその値。 -/
def readExplicitPair (fuel floor : Nat) (closing : Char) (c : Cursor) :
    Except Fault ((Node × Node) × Cursor) :=
  match fuel with
  | 0 => .error .tooDeep
  | fuel + 1 => do
    let c := (c.take 1).skipGap true
    let (k, c) ←
      if atFlowEnd closing c || c.at? ':' then pure (Node.empty, c)
      else (readFlowNode fuel floor {} c).map fun (n, c) => (n, c.skipGap true)
    if c.at? ':' then
      let (v, c) ← readFlowValue fuel floor closing c
      return ((k, v), c)
    else return ((k, .empty), c)

/-- 閉じ括弧までの並び。鍵と値の対は一つだけの組になる。 -/
def readFlowItems (fuel floor : Nat) (c : Cursor) : Except Fault (List Node × Cursor) :=
  match fuel with
  | 0 => .error .tooDeep
  | fuel + 1 => do
    if c.at? ']' then return ([], c.take 1)
    let (n, c) ←
      if c.at? '?' then
        if atFlowEnd ']' ((c.take 1).skipGap true) || ((c.take 1).skipGap true).at? ':' then
          throw .misplacedIndicator
        let (e, c) ← readExplicitPair fuel floor ']' c
        pure (Node.mapping [e], c)
      else
        let start := c
        let (k, c) ← readFlowNode fuel floor {} c
        let c := c.skipGap true
        if c.at? ':' then
          if !keyFits start c then throw .misplacedIndicator
          let (v, c) ← readFlowValue fuel floor ']' c
          pure (Node.mapping [(k, v)], c)
        else pure (k, c)
    if c.at? ',' then
      let (ns, c) ← readFlowItems fuel floor ((c.take 1).skipGap true)
      return (n :: ns, c)
    else if c.at? ']' then return ([n], c.take 1)
    else throw .unclosedCollection

def readFlowEntries (fuel floor : Nat) (c : Cursor) :
    Except Fault (List (Node × Node) × Cursor) :=
  match fuel with
  | 0 => .error .tooDeep
  | fuel + 1 => do
    if c.at? '\x7d' then return ([], c.take 1)
    let (e, c) ←
      if c.at? '?' then readExplicitPair fuel floor '\x7d' c
      else
        let start := c
        let (k, c) ← readFlowNode fuel floor {} c
        let c := c.skipGap true
        if c.at? ':' then
          if !keyFits start c then throw .misplacedIndicator
          let (v, c) ← readFlowValue fuel floor '\x7d' c
          pure ((k, v), c)
        else pure ((k, Node.empty), c)
    if c.at? ',' then
      let (es, c) ← readFlowEntries fuel floor ((c.take 1).skipGap true)
      return (e :: es, c)
    else if c.at? '\x7d' then return ([e], c.take 1)
    else throw .unclosedCollection

end

end GroupedVariants.Yaml
