import GroupedVariants.Yaml.Character

/-!
# 文書の中の位置
-/

namespace GroupedVariants.Yaml

/-- 行と桁。どちらも零から数える。 -/
structure Position where
  line : Nat := 0
  column : Nat := 0
  deriving DecidableEq, Repr

namespace Position

def next (p : Position) : Position := { p with column := p.column + 1 }

def nextLine (p : Position) : Position := ⟨p.line + 1, 0⟩

def skip (p : Position) (n : Nat) : Position := { p with column := p.column + n }

end Position

/-- 読めない文書である理由。 -/
inductive Fault where
  | disallowedCharacter
  | unclosedQuote
  | unknownEscape
  | badCodePoint
  | tabIndentation
  | misplacedIndicator
  | unexpectedCharacter
  | missingKey
  | missingEntry
  | unclosedCollection
  | badName
  | badTag
  | unknownTagHandle
  | unknownAlias
  | badBlockHeader
  | badDirective
  | moreThanOneDocument
  | tooDeep
  deriving DecidableEq, Repr

def Fault.message : Fault → String
  | disallowedCharacter => "control characters are not allowed"
  | unclosedQuote => "a quoted scalar does not end"
  | unknownEscape => "unknown escape in a quoted scalar"
  | badCodePoint => "an escape names no character"
  | tabIndentation => "a tab stands where indentation is expected"
  | misplacedIndicator => "an indicator is not allowed here"
  | unexpectedCharacter => "no value can start here"
  | missingKey => "a mapping key is missing"
  | missingEntry => "a sequence entry is missing"
  | unclosedCollection => "a flow collection does not end"
  | badName => "an anchor or alias has no valid name"
  | badTag => "a tag is malformed"
  | unknownTagHandle => "a tag has an undeclared handle"
  | unknownAlias => "an alias has no anchor"
  | badBlockHeader => "a block scalar header is malformed"
  | badDirective => "a directive is malformed"
  | moreThanOneDocument => "more than one document"
  | tooDeep => "the document is nested too deeply"

/-- 読み取った文字列と、その先と、そこの位置。 -/
structure Scanned where
  text : List Char
  rest : List Char
  position : Position
  deriving DecidableEq, Repr

def Scanned.precededBy (s : List Char) (x : Scanned) : Scanned := { x with text := s ++ x.text }

/-- 値の途中の、まだ値に加えていない空白。 -/
inductive Gap where
  | none
  | blanks (s : List Char)
  /-- 初めの改行と、その先の改行 -/
  | breaks (first : Option Char) (more : List Char)
  deriving DecidableEq, Repr

namespace Gap

def addBlank (g : Gap) (c : Char) : Gap :=
  match g with
  | none => blanks [c]
  | blanks s => blanks (s ++ [c])
  | breaks f m => breaks f m

def addBreak (g : Gap) (c : Char) : Gap :=
  match g with
  | breaks f m => breaks f (m ++ [c])
  | _ => breaks (some c) []

def hasBreak : Gap → Bool
  | breaks _ _ => true
  | _ => false

def isNone : Gap → Bool
  | none => true
  | _ => false

/-- 値に加わる綴り。一つの改行は間隔になり、続く改行は一つ減る。 -/
def folded : Gap → List Char
  | none => []
  | blanks s => s
  | breaks (some '\n') [] => [' ']
  | breaks (some '\n') more => more
  | breaks (some c) more => c :: more
  | breaks .none more => more

end Gap

end GroupedVariants.Yaml
