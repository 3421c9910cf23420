import GroupedVariants.Delimiters
import GroupedVariants.Json.Reader

/-!
# 区切り文字の JSON での書き方
-/

namespace GroupedVariants.Delimiters

def toJson (d : Delimiters) : Json.Value :=
  .record (Role.all.map fun r => (r.name, .ofText [d.get r]))

/-- 一文字の文字列だけが文字になる。 -/
def charOf? (v : Json.Value) : Option Char :=
  match v.text? with
  | some [c] => some c
  | _ => none

def roleOfName? (name : List Char) : Option Role :=
  Role.all.find? fun r => r.name.toList == name

/-- 宣言の順に並べた文字で、足りない分は元のまま。多すぎる並びは読めない。 -/
def readSequence? (d : Delimiters) : List Role → List Json.Value → Option Delimiters
  | _, [] => some d
  | [], _ :: _ => none
  | r :: rs, v :: vs => do readSequence? (d.set (← charOf? v) r) rs vs

/-- 知らない名は値によらず読み飛ばし、同じ役が二度あれば読めない。 -/
def readMembers? (d : Delimiters) (seen : List Role) :
    List (List Char × Json.Value) → Option Delimiters
  | [] => some d
  | (k, v) :: ms => do
    match roleOfName? (← Json.decode k) with
    | none => readMembers? d seen ms
    | some r =>
      if r ∈ seen then none else readMembers? (d.set (← charOf? v) r) (r :: seen) ms

def ofJson? : Json.Value → Option Delimiters
  | .array vs => readSequence? {} Role.all vs
  | .object ms => readMembers? {} [] ms
  | _ => none

def parseJson? (s : List Char) : Option Delimiters := do ofJson? (← Json.Value.parse? s)

end GroupedVariants.Delimiters
