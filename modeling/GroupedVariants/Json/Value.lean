import GroupedVariants.Json.Quoted

/-!
# JSON の値と、その書き方
-/

namespace GroupedVariants.Json

/-- 数と文字列は綴りのまま持つ。文字列の綴りは引用符の内側。 -/
inductive Value where
  | null
  | bool (b : Bool)
  | number (written : List Char)
  | string (written : List Char)
  | array (elements : List Value)
  | object (members : List (List Char × Value))

namespace Value

def ofNat (n : Nat) : Value := .number (Text.decimal n)

def ofText (s : List Char) : Value := .string (encode s)

/-- 名を文字列で与えた組。 -/
def record (members : List (String × Value)) : Value :=
  .object (members.map fun (k, v) => (encode k.toList, v))

def text? : Value → Option (List Char)
  | string written => decode written
  | _ => none

def quoted (written : List Char) : List Char := '"' :: written ++ ['"']

/-! ## 詰めた書き方 -/

mutual

def compact : Value → List Char
  | null => "null".toList
  | bool true => "true".toList
  | bool false => "false".toList
  | number written => written
  | string written => quoted written
  | array elements => '[' :: compactElements elements ++ [']']
  | object members => '{' :: compactMembers members ++ ['}']

def compactElements : List Value → List Char
  | [] => []
  | [v] => compact v
  | v :: vs => compact v ++ ',' :: compactElements vs

def compactMembers : List (List Char × Value) → List Char
  | [] => []
  | [(k, v)] => quoted k ++ ':' :: compact v
  | (k, v) :: ms => quoted k ++ ':' :: compact v ++ ',' :: compactMembers ms

end

/-! ## 字下げした書き方 -/

def newline (depth : Nat) : List Char := '\n' :: List.replicate (2 * depth) ' '

mutual

/-- 要素のある並びと組は、一段深い行に一つずつ書く。 -/
def pretty (depth : Nat) : Value → List Char
  | null => "null".toList
  | bool true => "true".toList
  | bool false => "false".toList
  | number written => written
  | string written => quoted written
  | array [] => ['[', ']']
  | array (v :: vs) =>
      '[' :: newline (depth + 1) ++ prettyElements (depth + 1) (v :: vs) ++ newline depth ++ [']']
  | object [] => ['{', '}']
  | object (m :: ms) =>
      '{' :: newline (depth + 1) ++ prettyMembers (depth + 1) (m :: ms) ++ newline depth ++ ['}']

def prettyElements (depth : Nat) : List Value → List Char
  | [] => []
  | [v] => pretty depth v
  | v :: vs => pretty depth v ++ ',' :: newline depth ++ prettyElements depth vs

def prettyMembers (depth : Nat) : List (List Char × Value) → List Char
  | [] => []
  | [(k, v)] => quoted k ++ ':' :: ' ' :: pretty depth v
  | (k, v) :: ms =>
      quoted k ++ ':' :: ' ' :: pretty depth v ++ ',' :: newline depth ++ prettyMembers depth ms

end

end Value

end GroupedVariants.Json
