/-!
# 閉じた群と、その展開
-/

namespace GroupedVariants

/-- 展開できた範囲。`stop` は閉じ文字の先頭のバイト位置。 -/
structure Match where
  start : Nat
  stop : Nat
  content : List Char
  deriving DecidableEq, Repr

/-- 閉じた群。`lead` は項目に冠する語で、その終わりは変種の文字。 -/
structure Group where
  lead : List Char
  start : Nat
  stop : Nat
  items : List (List Char)
  deriving DecidableEq, Repr

/-- 群の項目のそれぞれに `lead` を冠したもの。 -/
def Group.words (g : Group) : List (List Char) := g.items.map (g.lead ++ ·)

def Group.toMatch (g : Group) : Match :=
  ⟨g.start, g.stop, List.intercalate [' '] g.words⟩

/-- 開いたままの群。 -/
structure Frame where
  lead : List Char
  start : Nat
  items : List (List Char) := []
  children : List Group := []
  deriving DecidableEq, Repr

namespace Frame

def addItem (f : Frame) (item : List Char) : Frame := { f with items := f.items ++ [item] }

def addChild (f : Frame) (g : Group) : Frame := { f with children := f.children ++ [g] }

/-- 内側の群として閉じる。自身の子は親に渡らない。 -/
def close (f : Frame) (stop : Nat) : Group := ⟨f.lead, f.start, stop, f.items⟩

/-- 一番外の群として閉じる。子の項目は、子の冠を付けて自身の項目に続く。 -/
def flatten (f : Frame) (stop : Nat) : Group :=
  ⟨f.lead, f.start, stop, f.items ++ f.children.flatMap Group.words⟩

end Frame

end GroupedVariants
