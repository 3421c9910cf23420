import GroupedVariants.Delimiters
import GroupedVariants.Group
import GroupedVariants.Text.Width

/-!
# 群を探す機械

文字を一つずつ読み、開いた群を積む。読んだ位置はバイトで数える。
-/

namespace GroupedVariants.Scan

/-- 読みかけの語。`read` は新しい文字が先頭。 -/
structure Word where
  start : Nat
  read : List Char
  deriving DecidableEq, Repr

namespace Word

def empty : Word := ⟨0, []⟩

def push (w : Word) (c : Char) : Word := { w with read := c :: w.read }

def text (w : Word) : List Char := w.read.reverse

end Word

inductive State where
  /-- 語と語の間 -/
  | idle
  /-- 群の外の語の中 -/
  | word (w : Word)
  /-- 群の外の語の、変種の文字の直後 -/
  | variant (w : Word)
  /-- 群の中の、項目の頭 -/
  | itemStart
  /-- 項目の中 -/
  | item (w : Word)
  /-- 項目の、変種の文字の直後 -/
  | itemVariant (w : Word)
  /-- 内側の群が閉じた直後 -/
  | afterGroup
  deriving DecidableEq, Repr

namespace State

def inGroup : State → Bool
  | idle | word _ | variant _ => false
  | itemStart | item _ | itemVariant _ | afterGroup => true

def pending : State → Word
  | word w | variant w | item w | itemVariant w => w
  | idle | itemStart | afterGroup => .empty

end State

inductive Action where
  /-- 語を捨てて、間に戻る -/
  | leave
  /-- この文字から語を始める -/
  | begin
  | extend
  /-- 語を変種の文字で延ばす -/
  | mark
  | enter
  | separate
  | close
  /-- 開いた群をすべて捨てる -/
  | abandon
  deriving DecidableEq, Repr

/-- 状態と文字から次の動作を決める表。 -/
def action (d : Delimiters) : State → Char → Action
  | .idle, c => if Text.isBreaking c then .leave else .begin
  | .word _, c =>
      if c = d.variant then .mark else if Text.isBreaking c then .leave else .extend
  | .variant _, c =>
      if c = d.opening then .enter else if Text.isBreaking c then .leave else .extend
  | .itemStart, c => if Text.isBreaking c || c = d.closing then .abandon else .begin
  | .item _, c =>
      if c = d.separator then .separate
      else if c = d.variant then .mark
      else if c = d.closing then .close
      else .extend
  | .itemVariant _, c =>
      if c = d.opening then .enter else if Text.isBreaking c then .abandon else .extend
  | .afterGroup, c =>
      if Text.isBreaking c then .abandon
      else if c = d.closing then .close
      else if c = d.separator then .separate
      else .abandon

/-- `stack` は内側の群が先頭。 -/
structure Machine where
  state : State := .idle
  offset : Nat := 0
  stack : List Frame := []
  found : List Match := []
  deriving DecidableEq, Repr

namespace Machine

def start : Machine := {}

def reading (m : Machine) (w : Word) : Machine :=
  { m with state := if m.state.inGroup then .item w else .word w }

def marked (m : Machine) (w : Word) : Machine :=
  { m with state := if m.state.inGroup then .itemVariant w else .variant w }

/-- 群を開く。読みかけの語は変種の文字で終わっている。 -/
def enter (m : Machine) : Machine :=
  { m with
    state := .itemStart
    stack := ⟨m.state.pending.text, m.state.pending.start, [], []⟩ :: m.stack }

/-- 項目を読みかけているなら、それを一番内の群に加える。 -/
def finishItem (m : Machine) : List Frame :=
  match m.state, m.stack with
  | .item w, f :: fs => f.addItem w.text :: fs
  | _, fs => fs

def separate (m : Machine) : Machine :=
  { m with state := .itemStart, stack := m.finishItem }

/-- 親があれば閉じた群を渡し、なければ展開する。 -/
def close (m : Machine) : Machine :=
  match m.finishItem with
  | [] => { m with state := .idle, stack := [] }
  | [f] =>
      { m with state := .idle, stack := [], found := m.found ++ [(f.flatten m.offset).toMatch] }
  | f :: parent :: rest =>
      { m with state := .afterGroup, stack := parent.addChild (f.close m.offset) :: rest }

/-- 開いた群を捨てる。すでに閉じた子は、外の群のものから順に展開する。 -/
def abandon (m : Machine) : Machine :=
  { m with
    state := .idle
    stack := []
    found := m.found ++ (m.stack.reverse.flatMap (·.children)).map Group.toMatch }

def perform (m : Machine) (c : Char) : Action → Machine
  | .leave => { m with state := .idle }
  | .begin => m.reading ⟨m.offset, [c]⟩
  | .extend => m.reading (m.state.pending.push c)
  | .mark => m.marked (m.state.pending.push c)
  | .enter => m.enter
  | .separate => m.separate
  | .close => m.close
  | .abandon => m.abandon

def advance (m : Machine) (c : Char) : Machine := { m with offset := m.offset + c.utf8Size }

def feed (d : Delimiters) (m : Machine) (c : Char) : Machine :=
  (m.perform c (action d m.state c)).advance c

def run (d : Delimiters) (m : Machine) (text : List Char) : Machine := text.foldl (feed d) m

end Machine

end GroupedVariants.Scan

namespace GroupedVariants.Delimiters

/-- 展開できる範囲。文の終わりまで閉じない群は何も加えない。 -/
def findMatches (d : Delimiters) (text : List Char) : List Match :=
  (Scan.Machine.start.run d text).found

end GroupedVariants.Delimiters

namespace GroupedVariants.Scan

/-- 文の初めの部分の長さと、そこまでで展開できる範囲。 -/
structure Stage where
  length : Nat
  found : List Match
  deriving DecidableEq, Repr

/-- 範囲の並びが `last` から変わるたびに一段を加える。`seen` はそれまでに読んだ部分。 -/
def stagesFrom (d : Delimiters) (seen : List Char) (last : List Match) :
    List Char → List Stage
  | [] => []
  | c :: rest =>
    let seen := seen ++ [c]
    let found := d.findMatches seen
    if found = last then stagesFrom d seen last rest
    else ⟨Text.byteLength seen, found⟩ :: stagesFrom d seen found rest

def stages (d : Delimiters) (text : List Char) : List Stage := stagesFrom d [] [] text

end GroupedVariants.Scan
