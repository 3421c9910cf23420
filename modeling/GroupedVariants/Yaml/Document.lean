import GroupedVariants.Yaml.Block

/-!
# 文書全体の読み取り
-/

namespace GroupedVariants.Yaml

/-! ## 文書の前の指示 -/

/-- 九桁までの数。 -/
def readVersionNumber (s : List Char) : Except Fault (Nat × List Char) :=
  let digits := s.takeWhile Text.isDigit
  match Text.natOf? 10 digits with
  | some n => if digits.length ≤ 9 then .ok (n, s.drop digits.length) else .error .badDirective
  | none => .error .badDirective

/-- 版は一・一か一・二。 -/
def readVersion (s : List Char) : Except Fault (List Char) := do
  let (major, r) ← readVersionNumber (s.dropWhile isInlineBlank)
  match r with
  | '.' :: r =>
    let (minor, r) ← readVersionNumber r
    if major == 1 && (minor == 1 || minor == 2) then return r else throw .badDirective
  | _ => throw .badDirective

/-- 札の略号の宣言。 -/
def readHandle (s : List Char) : Except Fault (List Char × List Char) :=
  let s := s.dropWhile isInlineBlank
  if s.head? != some '!' then .error .badDirective
  else
    let (handle, r) := splitHandle s
    if !(r.head?.any isInlineBlank) then .error .badDirective
    else
      let r := r.dropWhile isInlineBlank
      let uri := r.takeWhile fun ch => isTagChar ch || ch == ',' || ch == '[' || ch == ']'
      let r := r.drop uri.length
      if uri.isEmpty || !escapesAreWhole uri || !atBlank r then .error .badDirective
      else .ok (handle, r)

/-- 指示の行の残りは、空白と注釈だけ。 -/
def finishDirective (s : List Char) : Except Fault (List Char) :=
  let s := s.dropWhile isInlineBlank
  let s := if s.head? == some '#' then s.dropWhile (!isBreak ·) else s
  match s with
  | [] => .ok []
  | c :: r => if isBreak c then .ok r else .error .badDirective

/-- 次の行の頭へ移る。 -/
def Cursor.toLine (c : Cursor) (rest : List Char) : Cursor :=
  { c with rest := rest, position := c.position.nextLine, fresh := true }

/-- 行頭の指示を読み、文書の始まりの印に至る。指示は同じものを二度書けない。 -/
def readDirectives (fuel : Nat) (versioned : Bool) (c : Cursor) : Except Fault Cursor :=
  match fuel with
  | 0 => .error .tooDeep
  | fuel + 1 => do
    let c := c.skipGap false
    if c.column == 0 && c.at? '%' then
      let s := c.rest.drop 1
      let name := s.takeWhile isNameChar
      let r := s.drop name.length
      if !atBlank r then throw .badDirective
      else if name == "YAML".toList then
        if versioned then throw .badDirective
        readDirectives fuel true (c.toLine (← finishDirective (← readVersion r)))
      else if name == "TAG".toList then
        let (handle, r) ← readHandle r
        if c.handles.contains handle then throw .badDirective
        readDirectives fuel versioned
          { c.toLine (← finishDirective r) with handles := handle :: c.handles }
      else throw .badDirective
    else if c.column == 0 && atDocumentStart c.rest then return c
    else throw .badDirective

/-! ## 文書 -/

/-- 終わりの印を読み飛ばし、その先に何もないことを確かめる。 -/
def expectEnd (fuel : Nat) (c : Cursor) : Except Fault Unit :=
  match fuel with
  | 0 => .error .tooDeep
  | fuel + 1 =>
    let c := c.skipGap false
    if c.atEnd then .ok ()
    else if c.column == 0 && atDocumentEnd c.rest then expectEnd fuel (c.take 3)
    else if c.column == 0 && atDocumentStart c.rest then .error .moreThanOneDocument
    else .error .unexpectedCharacter

/-- 始まりの印の先の値。指示がなければ印は省ける。 -/
def readRoot (fuel : Nat) (c : Cursor) : Except Fault (Node × Cursor) := do
  if c.column == 0 && c.at? '%' then
    let c ← readDirectives fuel false c
    readBlockNode fuel 0 false {} (c.take 3)
  else if c.column == 0 && atDocumentStart c.rest then readBlockNode fuel 0 false {} (c.take 3)
  else if c.atMark then throw .unexpectedCharacter
  else readBlockNode fuel 0 false {} c

/-- 一つの文書の値。空白と注釈だけの文書には値がない。 -/
def parse (text : List Char) : Except Fault (Option Node) := do
  if !text.all isAllowed then throw .disallowedCharacter
  let s := unifyBreaks text
  let s := if s.head? == some '\ufeff' then s.drop 1 else s
  let c := Cursor.skipGap false { rest := s }
  if c.atEnd then return none
  let fuel := 8 * s.length + 16
  let (n, c) ← readRoot fuel c
  expectEnd fuel c
  return some n

end GroupedVariants.Yaml
