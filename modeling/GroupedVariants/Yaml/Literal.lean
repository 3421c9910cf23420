import GroupedVariants.Yaml.SingleQuoted

/-!
# 行を並べた値
-/

namespace GroupedVariants.Yaml.Literal

/-- 末尾の改行の扱い。 -/
inductive Chomp where
  | strip
  | clip
  | keep
  deriving DecidableEq, Repr

/-! ## 書き方 -/

/-- 字下げの一段の幅。 -/
def step : Nat := 2

def endsWithBreak (s : List Char) : Bool := s.getLast?.any isBreak

def chompOf (s : List Char) : Chomp :=
  if !endsWithBreak s then .strip
  else if s.length = 1 || endsWithBreak s.dropLast then .keep
  else .clip

def Chomp.hint : Chomp → List Char
  | strip => ['-']
  | clip => []
  | keep => ['+']

/-- 空白か改行で始まる値には字下げの幅を明記する。 -/
def indentHint : List Char → List Char
  | [] => []
  | c :: _ => if c == ' ' || isBreak c then ['2'] else []

def writeLines (indent : Nat) (atStart : Bool) : List Char → List Char
  | [] => []
  | c :: r =>
    if isBreak c then c :: writeLines indent true r
    else
      (if atStart then SingleQuoted.indentation indent else []) ++ c :: writeLines indent false r

def write (indent : Nat) (s : List Char) : List Char :=
  '|' :: indentHint s ++ (chompOf s).hint ++ '\n' :: writeLines indent true s

/-! ## 読み方 -/

structure Header where
  chomp : Chomp := .clip
  /-- 明記した字下げの幅。零は明記がないこと -/
  increment : Nat := 0

def chompMark? : Char → Option Chomp
  | '-' => some .strip
  | '+' => some .keep
  | _ => none

def increment? (c : Char) : Option Nat :=
  if '1' ≤ c && c ≤ '9' then some (c.toNat - 0x30) else none

/-- 記号の先の、末尾の扱いと字下げの幅。どちらが先でもよい。 -/
def readHeader : List Char → Except Fault (Header × List Char)
  | [] => .ok ({}, [])
  | a :: r =>
    match chompMark? a with
    | some k =>
      match r with
      | [] => .ok (⟨k, 0⟩, [])
      | b :: r' =>
        if b == '0' then .error .badBlockHeader
        else
          match increment? b with
          | some n => .ok (⟨k, n⟩, r')
          | none => .ok (⟨k, 0⟩, b :: r')
    | none =>
      if a == '0' then .error .badBlockHeader
      else
        match increment? a with
        | none => .ok ({}, a :: r)
        | some n =>
          match r with
          | [] => .ok (⟨.clip, n⟩, [])
          | b :: r' =>
            match chompMark? b with
            | some k => .ok (⟨k, n⟩, r')
            | none => .ok (⟨.clip, n⟩, b :: r')

/-- 見出しの行の残りは、空白と注釈だけ。 -/
def finishHeader (p : Position) (s : List Char) : Except Fault (List Char × Position) :=
  let s := s.dropWhile isInlineBlank
  let s := if s.head? == some '#' then s.dropWhile (!isBreak ·) else s
  match s with
  | [] => .ok ([], p)
  | c :: r => if isBreak c then .ok (r, p.nextLine) else .error .badBlockHeader

/-- 空の行を読み飛ばした結果。`widest` は読み飛ばした間隔の最も大きい桁。 -/
structure Blanks where
  breaks : List Char
  widest : Nat
  rest : List Char
  position : Position

/-- 字下げの間隔と空の行を読む。零の `indent` は幅が未定のこと。 -/
def readBlanks (indent widest : Nat) (breaks : List Char) (p : Position) :
    List Char → Except Fault Blanks
  | [] => .ok ⟨breaks, max widest p.column, [], p⟩
  | c :: r =>
    if (indent == 0 || p.column < indent) && c == ' ' then
      readBlanks indent widest breaks p.next r
    else if (indent == 0 || p.column < indent) && c == '\t' then .error .tabIndentation
    else if isBreak c then readBlanks indent (max widest p.column) (breaks ++ [c]) p.nextLine r
    else .ok ⟨breaks, max widest p.column, c :: r, p⟩

/-- 読みかけの値の末尾。`lead` は直前の行の改行、`breaks` はその後の空の行の改行。 -/
structure Tail where
  lead : List Char
  breaks : List Char
  leadBlank : Bool

/-- 行と行の間に入る綴り。 -/
def joint (folded : Bool) (t : Tail) (trailBlank : Bool) : List Char :=
  (if folded && t.lead == ['\n'] && !t.leadBlank && !trailBlank then
    (if t.breaks.isEmpty then [' '] else [])
  else t.lead) ++ t.breaks

/-- 桁が `indent` の行を続く限り読む。`fuel` は行の数を抑える。 -/
def readLines (fuel : Nat) (folded : Bool) (indent : Nat) (t : Tail) (p : Position)
    (s : List Char) : Except Fault (Scanned × Tail) :=
  match fuel, s with
  | 0, _ | _, [] => .ok (⟨[], s, p⟩, t)
  | fuel + 1, c :: r =>
    if p.column != indent then .ok (⟨[], c :: r, p⟩, t)
    else
      let blank := isInlineBlank c
      let line := (c :: r).takeWhile (!isBreak ·)
      let before := joint folded t blank ++ line
      match (c :: r).dropWhile (!isBreak ·) with
      | [] => .ok (⟨before, [], p.skip line.length⟩, ⟨[], [], blank⟩)
      | b :: r => do
        let x ← readBlanks indent 0 [] p.nextLine r
        let y ← readLines fuel folded indent ⟨[b], x.breaks, blank⟩ x.position x.rest
        return (y.1.precededBy before, y.2)

def chomped (k : Chomp) (t : Tail) : List Char :=
  match k with
  | .strip => []
  | .clip => t.lead
  | .keep => t.lead ++ t.breaks

/-- 記号の先から読む。`floor` は値の字下げの下限。 -/
def read (folded : Bool) (floor : Nat) (p : Position) (s : List Char) : Except Fault Scanned := do
  let (h, s) ← readHeader s
  let (s, p) ← finishHeader p s
  let given := if h.increment == 0 then 0 else (floor - 1) + h.increment
  let x ← readBlanks given 0 [] p s
  let indent := if given == 0 then max (max x.widest floor) 1 else given
  let (y, t) ← readLines (s.length + 1) folded indent ⟨[], x.breaks, false⟩ x.position x.rest
  return { y with text := y.text ++ chomped h.chomp t }

end GroupedVariants.Yaml.Literal
