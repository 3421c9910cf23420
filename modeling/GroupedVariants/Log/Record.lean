/-!
# 動作の記録
-/

namespace GroupedVariants.Log

inductive Level where
  | trace
  | debug
  | info
  | warn
  | error
  deriving DecidableEq, Repr

namespace Level

/-- 重いほど大きい。 -/
def weight : Level → Nat
  | trace => 0
  | debug => 1
  | info => 2
  | warn => 3
  | error => 4

def name : Level → String
  | trace => "TRACE"
  | debug => "DEBUG"
  | info => "INFO"
  | warn => "WARN"
  | error => "ERROR"

end Level

structure Record where
  level : Level
  /-- 記録を残した部分の名 -/
  target : String
  text : List Char
  deriving DecidableEq, Repr

def Record.line (r : Record) : List Char :=
  (r.level.name ++ " " ++ r.target ++ ": ").toList ++ r.text ++ ['\n']

end GroupedVariants.Log
