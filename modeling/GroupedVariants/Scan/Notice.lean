import GroupedVariants.Scan.Machine

/-!
# 走査の途中で起きたことの記録
-/

namespace GroupedVariants.Scan

inductive Notice where
  /-- 一番外の群が閉じた -/
  | expanded (start stop : Nat)
  /-- 群が壊れて、字のまま残った -/
  | malformed (position depth : Nat)
  /-- 群の中で文が終わった -/
  | unfinished (depth : Nat)
  deriving DecidableEq, Repr

def Machine.notice? (m : Machine) : Action → Option Notice
  | .close =>
    match m.stack with
    | [f] => some (.expanded f.start m.offset)
    | _ => none
  | .abandon => some (.malformed m.offset m.stack.length)
  | _ => none

def noticesFrom (d : Delimiters) (m : Machine) : List Char → List Notice
  | [] => if m.stack.isEmpty then [] else [.unfinished m.stack.length]
  | c :: rest => (m.notice? (action d m.state c)).toList ++ noticesFrom d (m.feed d c) rest

def notices (d : Delimiters) (text : List Char) : List Notice := noticesFrom d .start text

end GroupedVariants.Scan
