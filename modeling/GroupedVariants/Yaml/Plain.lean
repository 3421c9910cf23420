import GroupedVariants.Yaml.Position

/-!
# 裸の値
-/

namespace GroupedVariants.Yaml.Plain

/-- 裸の値をここから始められる。`flow` は括弧の中。 -/
def canStart (flow : Bool) : List Char → Bool
  | [] => false
  | c :: r =>
    if c == '-' then !atBlank r
    else if c == '?' || c == ':' then !flow && !atBlank r
    else !isInlineBlank c && !isBreak c && !isLeadIndicator c

/-- 空でない文字 `c` の前で値が終わる。 -/
def stopsAt (flow : Bool) (limit : Nat) (g : Gap) (p : Position) (c : Char) (r : List Char) : Bool :=
  (g.hasBreak && !flow && p.column < limit) ||
    (p.column = 0 && atDocumentMark (c :: r)) ||
    (c == '#' && !g.isNone) ||
    (c == ':' && atBlank r) ||
    (flow && isFlowIndicator c)

/-- 括弧の中の、値の続きとも区切りとも取れない `:`。 -/
def isAmbiguous (flow : Bool) (c : Char) (r : List Char) : Bool :=
  flow && c == ':' &&
    match r with
    | [] => false
    | x :: _ => isFlowIndicator x || x == '?'

/-- 桁が `limit` に満たない行で終わる。終わったところの空白も共に返す。 -/
def read (flow : Bool) (limit : Nat) (g : Gap) (p : Position) :
    List Char → Except Fault (Scanned × Gap)
  | [] => .ok (⟨[], [], p⟩, g)
  | c :: r =>
    if isInlineBlank c then
      if g.hasBreak && p.column < limit && c == '\t' then .error .tabIndentation
      else read flow limit (g.addBlank c) p.next r
    else if isBreak c then read flow limit (g.addBreak c) p.nextLine r
    else if stopsAt flow limit g p c r then .ok (⟨[], c :: r, p⟩, g)
    else if isAmbiguous flow c r then .error .misplacedIndicator
    else
      (read flow limit .none p.next r).map fun x => (x.1.precededBy (g.folded ++ [c]), x.2)

end GroupedVariants.Yaml.Plain
