import GroupedVariants.Yaml.Scalar

/-!
# 字下げによる文書の書き方
-/

namespace GroupedVariants.Yaml

structure Scalar where
  text : List Char
  style : Style

inductive Layout where
  | scalar (s : Scalar)
  | list (items : List Scalar)
  | record (fields : List (List Char × Layout))

namespace Layout

/-- 行を終える。改行で終わる値はそのまま次の行に続く。 -/
def endLine (s : List Char) : List Char := if Literal.endsWithBreak s then s else s ++ ['\n']

def writeItem (indent : Nat) (s : Scalar) : List Char :=
  SingleQuoted.indentation indent ++ '-' :: ' ' ::
    endLine (writeScalar (indent + Literal.step) s.text s.style)

mutual

/-- 鍵の `:` の先。並びは鍵と同じ桁に書く。 -/
def writeValue (indent : Nat) : Layout → List Char
  | scalar s => ' ' :: endLine (writeScalar (indent + Literal.step) s.text s.style)
  | list [] => " []\n".toList
  | list (s :: ss) => '\n' :: (s :: ss).flatMap (writeItem indent)
  | record fields => '\n' :: writeFields (indent + Literal.step) fields

def writeFields (indent : Nat) : List (List Char × Layout) → List Char
  | [] => []
  | (k, v) :: fields =>
    SingleQuoted.indentation indent ++ k ++ ':' :: writeValue indent v ++
      writeFields indent fields

end

end Layout

end GroupedVariants.Yaml
