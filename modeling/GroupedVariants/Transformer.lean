import GroupedVariants.Scan.Machine

/-!
# 文の書き換え
-/

namespace GroupedVariants

/-- `text` は位置 `cursor` から先の文。範囲の外はそのまま写し、範囲は閉じ文字まで置き換える。 -/
def splice (closing : Char) : List Match → (cursor : Nat) → (text : List Char) → List Char
  | [], _, text => text
  | m :: ms, cursor, text =>
    let next := m.stop + closing.utf8Size
    Text.takeBytes (m.start - cursor) text ++ m.content ++
      splice closing ms next (Text.dropBytes (next - cursor) text)

/-- 展開できる範囲があれば、それらを展開した文。 -/
def Delimiters.rewrite? (d : Delimiters) (text : List Char) : Option (List Char) :=
  match d.findMatches text with
  | [] => none
  | ms => some (splice d.closing ms 0 text)

def Delimiters.expand (d : Delimiters) (text : List Char) : List Char :=
  (d.rewrite? text).getD text

/-- 検査を通った区切り文字。 -/
structure Transformer where
  delimiters : Delimiters
  checked : delimiters.check = .ok ()

namespace Transformer

def default : Transformer := ⟨{}, rfl⟩

def ofDelimiters (d : Delimiters) : Except Delimiters.Fault Transformer :=
  match h : d.check with
  | .ok () => .ok ⟨d, h⟩
  | .error e => .error e

def findMatches (t : Transformer) (text : List Char) : List Match := t.delimiters.findMatches text

def rewrite? (t : Transformer) (text : List Char) : Option (List Char) :=
  t.delimiters.rewrite? text

def expand (t : Transformer) (text : List Char) : List Char := t.delimiters.expand text

end Transformer

end GroupedVariants
