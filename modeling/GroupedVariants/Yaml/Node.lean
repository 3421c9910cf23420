/-!
# YAML の値の木
-/

namespace GroupedVariants.Yaml

inductive Node where
  /-- `plain` は引用符も記号もなしに書かれたこと -/
  | scalar (text : List Char) (plain : Bool)
  | sequence (items : List Node)
  | mapping (entries : List (Node × Node))
  /-- 自身を含む値への参照 -/
  | cycle

namespace Node

/-- 何も書かれていないところの値。 -/
def empty : Node := scalar [] true

def isEmpty : Node → Bool
  | scalar [] true => true
  | _ => false

/-- 値の綴り。数や真偽に見えるものも、そのまま文字列として読む。 -/
def text? : Node → Option (List Char)
  | scalar s _ => some s
  | _ => none

/-- 何も書かれていなければ空の並びと読む。 -/
def items? : Node → Option (List Node)
  | sequence xs => some xs
  | n => if n.isEmpty then some [] else none

/-- 何も書かれていなければ空の組と読む。 -/
def entries? : Node → Option (List (Node × Node))
  | mapping es => some es
  | n => if n.isEmpty then some [] else none

end Node

end GroupedVariants.Yaml
