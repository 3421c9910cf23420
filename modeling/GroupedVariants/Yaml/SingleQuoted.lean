import GroupedVariants.Yaml.Position

/-!
# 一重引用符の値
-/

namespace GroupedVariants.Yaml.SingleQuoted

def indentation (n : Nat) : List Char := List.replicate n ' '

/-- 改行の後は `indent` だけ字下げし、続く改行の頭には折り返しで消える一つを足す。 -/
def writeBody (indent : Nat) (afterBreak : Bool) : List Char → List Char
  | [] => if afterBreak then indentation indent else []
  | c :: r =>
    if isBreak c then
      (if !afterBreak && c == '\n' then ['\n'] else []) ++ c :: writeBody indent true r
    else
      (if afterBreak then indentation indent else []) ++
        (if c == '\x27' then ['\x27', '\x27'] else [c]) ++ writeBody indent false r

def write (indent : Nat) (s : List Char) : List Char :=
  '\x27' :: writeBody indent false s ++ ['\x27']

/-- 開く引用符の先から読む。 -/
def read (g : Gap) (p : Position) : List Char → Except Fault Scanned
  | [] => .error .unclosedQuote
  | '\x27' :: '\x27' :: r =>
      (read .none (p.skip 2) r).map (·.precededBy (g.folded ++ ['\x27']))
  | '\x27' :: r => .ok ⟨g.folded, r, p.next⟩
  | c :: r =>
    if isInlineBlank c then read (g.addBlank c) p.next r
    else if isBreak c then read (g.addBreak c) p.nextLine r
    else if p.column = 0 && atDocumentMark (c :: r) then .error .unclosedQuote
    else (read .none p.next r).map (·.precededBy (g.folded ++ [c]))

end GroupedVariants.Yaml.SingleQuoted
