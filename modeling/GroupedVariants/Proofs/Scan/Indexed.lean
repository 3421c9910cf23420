import GroupedVariants.Proofs.Scan.Opening
import GroupedVariants.Proofs.Scan.Table

/-!
# 語を二つの位置で覚える機械

読みかけの語を、その始まりと変種の文字の位置だけで覚え、語が要るときに文から切り出す。
位置は語を読み終えても古いまま残るが、使われるときには必ずその語を指している。
-/

namespace GroupedVariants

open Text

/-- 開き文字の先の位置。 -/
def Frame.contentStart (d : Delimiters) (f : Frame) : Nat :=
  f.start + byteLength f.lead + d.opening.utf8Size

namespace Scan

variable {d : Delimiters} {text before word after : List Char} {c : Char} {k : List Frame}
  {ms : List Match} {a b lo hi mid : Nat} {f parent : Frame}

/-! ## 機械 -/

/-- 空でない語の切り出し。文字の途中や文の外では切れない。 -/
def cutWord? (text : List Char) (a b : Nat) : Option (List Char) :=
  (slice? text a b).filter fun w => !w.isEmpty

theorem cutWord?_append (h : word ≠ []) (before after : List Char) :
    cutWord? (before ++ word ++ after) (byteLength before) (byteLength (before ++ word)) =
      some word := by
  rw [cutWord?, slice?_append]
  simp [h]

structure Indexed where
  mode : Mode := .idle
  stack : List Frame := []
  found : List Match := []
  wordStart : Nat := 0
  markStart : Nat := 0

namespace Indexed

def openGroup? (d : Delimiters) (text : List Char) (g : Indexed) : Option Indexed := do
  let lead ← cutWord? text g.wordStart (g.markStart + d.variant.utf8Size)
  return { g with mode := .itemStart, stack := ⟨lead, g.wordStart, [], []⟩ :: g.stack }

/-- 読みかけの項目を一番内の群に加える。開いた群がなければ失敗する。 -/
def finishItem? (text : List Char) (offset : Nat) (g : Indexed) : Option (List Frame) :=
  match g.stack with
  | [] => none
  | f :: k => (cutWord? text g.wordStart offset).map fun item => f.addItem item :: k

def pushItem? (text : List Char) (offset : Nat) (g : Indexed) : Option Indexed :=
  (g.finishItem? text offset).map fun k => { g with mode := .itemStart, stack := k }

/-- 一番内の群を閉じる。開いた群がなければ失敗する。 -/
def closeStack? (offset : Nat) (g : Indexed) : List Frame → Option Indexed
  | [] => none
  | [f] =>
      some { g with
        mode := .idle, stack := [], found := g.found ++ [(f.flatten offset).toMatch] }
  | f :: parent :: k =>
      some { g with mode := .afterGroup, stack := parent.addChild (f.close offset) :: k }

def closeGroup? (text : List Char) (offset : Nat) (hasWord : Bool) (g : Indexed) :
    Option Indexed :=
  (if hasWord then g.finishItem? text offset else some g.stack).bind (g.closeStack? offset)

def abortGroups (g : Indexed) : Indexed :=
  { g with mode := .idle, stack := [], found := g.found ++ salvage g.stack }

/-- 文 `text` の位置 `offset` にある文字 `c` を読む。 -/
def feed? (d : Delimiters) (text : List Char) (g : Indexed) (offset : Nat) (c : Char) :
    Option Indexed :=
  match g.mode with
  | .idle => some (if isBreaking c then g else { g with mode := .word, wordStart := offset })
  | .word =>
      some (if c = d.variant then { g with mode := .variant, markStart := offset }
        else if isBreaking c then { g with mode := .idle }
        else g)
  | .variant =>
      if c = d.opening then g.openGroup? d text
      else some { g with mode := if isBreaking c then .idle else .word }
  | .itemStart =>
      some (if isBreaking c || c = d.closing then g.abortGroups
        else { g with mode := .item, wordStart := offset })
  | .item =>
      if c = d.separator then g.pushItem? text offset
      else if c = d.variant then some { g with mode := .itemVariant, markStart := offset }
      else if c = d.closing then g.closeGroup? text offset true
      else some g
  | .itemVariant =>
      if c = d.opening then g.openGroup? d text
      else some (if isBreaking c then g.abortGroups else { g with mode := .item })
  | .afterGroup =>
      if isBreaking c then some g.abortGroups
      else if c = d.closing then g.closeGroup? text offset false
      else if c = d.separator then some { g with mode := .itemStart }
      else some g.abortGroups

/-- 文 `text` の位置 `offset` から続く文字を順に読む。 -/
def run? (d : Delimiters) (text : List Char) (g : Indexed) (offset : Nat) :
    List Char → Option Indexed
  | [] => some g
  | c :: s => (g.feed? d text offset c).bind fun g => g.run? d text (offset + c.utf8Size) s

end Indexed

/-! ## 語の始まり -/

def Mode.isFresh : Mode → Bool
  | .idle | .itemStart => true
  | _ => false

def Mode.isReading : Mode → Bool
  | .word | .variant | .item | .itemVariant => true
  | _ => false

def Mode.isMarked : Mode → Bool
  | .variant | .itemVariant => true
  | _ => false

/-- 文 `text` を読み終えた機械の、状態の種類。 -/
def modeAfter (d : Delimiters) (text : List Char) : Mode := (Machine.start.run d text).state.mode

/-- 語の間か項目の頭にある機械が、`before` に続く `word` を途切れずに一つの語として読む。 -/
structure Began (d : Delimiters) (before word : List Char) : Prop where
  fresh : (modeAfter d before).isFresh
  ne : word ≠ []
  reading : ∀ u v, word = u ++ v → u ≠ [] → (modeAfter d (before ++ u)).isReading

namespace Began

theorem first (hfresh : (modeAfter d before).isFresh)
    (hreading : (modeAfter d (before ++ [c])).isReading) : Began d before [c] := by
  refine ⟨hfresh, List.cons_ne_nil c [], fun u v huv hu => ?_⟩
  obtain ⟨rfl, -⟩ : u = [c] ∧ v = [] := by
    cases u with
    | nil => exact absurd rfl hu
    | cons x u => simp_all
  exact hreading

theorem snoc (h : Began d before word)
    (hreading : (modeAfter d (before ++ (word ++ [c]))).isReading) :
    Began d before (word ++ [c]) := by
  refine ⟨h.fresh, List.append_ne_nil_of_left_ne_nil h.ne [c], fun u v huv hu => ?_⟩
  rcases List.eq_nil_or_concat v with rfl | ⟨v, x, rfl⟩
  · rw [List.append_nil] at huv
    rwa [← huv]
  · rw [List.concat_eq_append, ← List.append_assoc] at huv
    exact h.reading u v (List.append_inj_left' huv rfl) hu

end Began

/-! ## 群を開いた所より後にあるもの -/

/-- 群の子も、次に開いた群も、位置 `hi` も、群の開き文字より後にある。一番内の群が先頭。 -/
def Beyond (d : Delimiters) : List Frame → (hi : Nat) → Prop
  | [], _ => True
  | f :: k, hi =>
      f.contentStart d ≤ hi ∧ (∀ g ∈ f.children, f.contentStart d ≤ g.start) ∧ Beyond d k f.start

namespace Beyond

theorem mono (h : Beyond d k mid) (hm : mid ≤ hi) : Beyond d k hi := by
  cases k with
  | nil => trivial
  | cons f k => exact ⟨Nat.le_trans h.1 hm, h.2⟩

theorem addItem (h : Beyond d (f :: k) hi) (item : List Char) : Beyond d (f.addItem item :: k) hi :=
  h

theorem addChild (h : Beyond d (f :: parent :: k) hi) (stop : Nat) :
    Beyond d (parent.addChild (f.close stop) :: k) hi := by
  obtain ⟨hf, -, hp, hchildren, hk⟩ := h
  have hstart : f.start ≤ f.contentStart d := by
    rw [Frame.contentStart]
    omega
  refine ⟨Nat.le_trans hp (Nat.le_trans hstart hf), fun g hg => ?_, hk⟩
  rcases List.mem_append.mp hg with hg | hg
  · exact hchildren g hg
  · obtain rfl := List.mem_singleton.mp hg
    exact hp

end Beyond

/-- 読みかけの語があればその始まり、なければ読んだ所。 -/
def Machine.bound (m : Machine) : Nat :=
  if m.state.mode.isReading then m.state.pending.start else m.offset

def Indexed.bound (text : List Char) (g : Indexed) : Nat :=
  if g.mode.isReading then g.wordStart else byteLength text

theorem Sound.stacked {m : Machine} (h : Sound d text m) :
    ∃ lo, Laid d text 0 m.found lo ∧ Stacked d text lo m.stack m.bound := by
  cases h with
  | @fresh k ms lo hl hs => exact ⟨lo, hl, by cases k <;> exact hs⟩
  | @within w k ms lo hl hs => exact ⟨lo, hl, by cases k <;> exact hs⟩
  | @marking w k ms lo hl hs => exact ⟨lo, hl, by cases k <;> exact hs⟩
  | @afterGroup f k ms lo hl hs => exact ⟨lo, hl, hs⟩

/-! ## 二つの機械の対応 -/

def Mode.state (w : Word) : Mode → State
  | .idle => .idle
  | .word => .word w
  | .variant => .variant w
  | .itemStart => .itemStart
  | .item => .item w
  | .itemVariant => .itemVariant w
  | .afterGroup => .afterGroup

def Indexed.word? (text : List Char) (g : Indexed) : Option Word :=
  if g.mode.isReading then
    (cutWord? text g.wordStart (byteLength text)).map fun w => ⟨g.wordStart, w.reverse⟩
  else some .empty

/-- 文 `text` を読み終えた `g` の表す、読みかけの語を持つ機械。 -/
def Indexed.machine? (text : List Char) (g : Indexed) : Option Machine :=
  (g.word? text).map fun w => ⟨g.mode.state w, byteLength text, g.stack, g.found⟩

/--
文 `text` を読み終えた二つの機械が、同じ積みと同じ範囲を持つ。
語の途中では、位置 `wordStart` からの文が読みかけの語である。語の外では、二つの位置は何を指していてもよい。
-/
inductive Charts (d : Delimiters) (text : List Char) : Indexed → Prop
  | fresh {k : List Frame} {ms : List Match} {a b : Nat}
      (run : Machine.start.run d text = ⟨.fresh k, byteLength text, k, ms⟩)
      (beyond : Beyond d k (byteLength text)) :
      Charts d text ⟨(State.fresh k).mode, k, ms, a, b⟩
  | within {before word : List Char} {k : List Frame} {ms : List Match} {b : Nat}
      (source : text = before ++ word) (began : Began d before word)
      (run : Machine.start.run d text =
        ⟨.within ⟨byteLength before, word.reverse⟩ k, byteLength text, k, ms⟩)
      (beyond : Beyond d k (byteLength before)) :
      Charts d text ⟨(State.within .empty k).mode, k, ms, byteLength before, b⟩
  | marking {before word : List Char} {k : List Frame} {ms : List Match}
      (source : text = before ++ (word ++ [d.variant]))
      (began : Began d before (word ++ [d.variant]))
      (run : Machine.start.run d text =
        ⟨.marking ⟨byteLength before, (word ++ [d.variant]).reverse⟩ k, byteLength text, k, ms⟩)
      (beyond : Beyond d k (byteLength before)) :
      Charts d text
        ⟨(State.marking .empty k).mode, k, ms, byteLength before, byteLength (before ++ word)⟩
  | afterGroup {f : Frame} {k : List Frame} {ms : List Match} {a b : Nat}
      (run : Machine.start.run d text = ⟨.afterGroup, byteLength text, f :: k, ms⟩)
      (beyond : Beyond d (f :: k) (byteLength text)) :
      Charts d text ⟨.afterGroup, f :: k, ms, a, b⟩

namespace Charts

theorem run_snoc {m : Machine} (h : Machine.start.run d text = m) (c : Char) :
    Machine.start.run d (text ++ [c]) = m.feed d c := by
  rw [Machine.run_append, h]
  rfl

theorem modeAfter_eq {m : Machine} (h : Machine.start.run d text = m) :
    modeAfter d text = m.state.mode := by
  rw [modeAfter, h]

/-- 群の外では読み飛ばすか語を始め、群の中では項目を始めるか群をすべて捨てる。 -/
theorem feed_fresh (run : Machine.start.run d text = ⟨.fresh k, byteLength text, k, ms⟩)
    (beyond : Beyond d k (byteLength text)) (c : Char) (after : List Char) :
    ∃ g, Indexed.feed? d (text ++ c :: after) ⟨(State.fresh k).mode, k, ms, a, b⟩
        (byteLength text) c = some g ∧ Charts d (text ++ [c]) g := by
  have hfresh : (modeAfter d text).isFresh := by
    rw [modeAfter_eq run]
    cases k <;> rfl
  have hbegin (hrun : Machine.start.run d (text ++ [c]) =
        ⟨.within ⟨byteLength text, [c]⟩ k, byteLength (text ++ [c]), k, ms⟩) :
      Charts d (text ++ [c]) ⟨(State.within .empty k).mode, k, ms, byteLength text, b⟩ := by
    refine .within rfl (.first hfresh ?_) hrun beyond
    rw [modeAfter_eq hrun]
    cases k <;> rfl
  have hrun := run_snoc run c
  cases k with
  | nil =>
      rw [State.fresh, Machine.feed_idle, byteLength_snoc] at hrun
      change ∃ g, some (if isBreaking c then _ else _) = some g ∧ _
      by_cases hb : isBreaking c
      · rw [if_pos hb] at hrun ⊢
        exact ⟨_, rfl, .fresh (k := []) hrun trivial⟩
      · rw [if_neg hb] at hrun ⊢
        exact ⟨_, rfl, hbegin hrun⟩
  | cons f k =>
      rw [State.fresh, Machine.feed_itemStart, byteLength_snoc] at hrun
      change ∃ g, some (if isBreaking c || c = d.closing then _ else _) = some g ∧ _
      by_cases hb : isBreaking c || c = d.closing
      · rw [if_pos hb] at hrun ⊢
        exact ⟨_, rfl, .fresh (k := []) hrun trivial⟩
      · rw [if_neg hb] at hrun ⊢
        exact ⟨_, rfl, hbegin hrun⟩

/-- 一番内の群が、閉じ文字を読んで閉じる。 -/
theorem closed (run : Machine.start.run d (text ++ [d.closing]) =
      Machine.closed d (byteLength text) ms (f :: k))
    (beyond : Beyond d (f :: k) (byteLength text)) (g : Indexed) (hfound : g.found = ms) :
    ∃ g', g.closeStack? (byteLength text) (f :: k) = some g' ∧
      Charts d (text ++ [d.closing]) g' := by
  subst hfound
  cases k with
  | nil =>
      rw [Machine.closed, byteLength_snoc] at run
      exact ⟨_, rfl, .fresh (k := []) run trivial⟩
  | cons parent k =>
      rw [Machine.closed, byteLength_snoc] at run
      exact ⟨_, rfl, .afterGroup run
        ((beyond.addChild (byteLength text)).mono (byteLength_le_snoc text d.closing))⟩

theorem finishItem?_eq (hword : word ≠ []) (before after : List Char) (g : Indexed)
    (hstack : g.stack = f :: k) (hstart : g.wordStart = byteLength before) :
    g.finishItem? (before ++ word ++ after) (byteLength (before ++ word)) =
      some (f.addItem word :: k) := by
  rw [Indexed.finishItem?, hstack, hstart]
  simp only [cutWord?_append hword]
  rfl

theorem grow (began : Began d before word)
    (run : Machine.start.run d (before ++ word ++ [c]) =
      ⟨.within (Word.push ⟨byteLength before, word.reverse⟩ c) k,
        byteLength (before ++ word ++ [c]), k, ms⟩)
    (beyond : Beyond d k (byteLength before)) :
    Charts d (before ++ word ++ [c])
      ⟨(State.within .empty k).mode, k, ms, byteLength before, b⟩ := by
  rw [Word.push, ← List.reverse_concat] at run
  rw [List.append_assoc] at run ⊢
  refine .within rfl (began.snoc ?_) run beyond
  rw [modeAfter_eq run]
  cases k <;> rfl

theorem mark (began : Began d before word)
    (run : Machine.start.run d (before ++ word ++ [d.variant]) =
      ⟨.marking (Word.push ⟨byteLength before, word.reverse⟩ d.variant) k,
        byteLength (before ++ word ++ [d.variant]), k, ms⟩)
    (beyond : Beyond d k (byteLength before)) :
    Charts d (before ++ word ++ [d.variant])
      ⟨(State.marking .empty k).mode, k, ms, byteLength before, byteLength (before ++ word)⟩ := by
  rw [Word.push, ← List.reverse_concat] at run
  rw [List.append_assoc] at run ⊢
  refine .marking rfl (began.snoc ?_) run beyond
  rw [modeAfter_eq run]
  cases k <;> rfl

/-- 語の中では、語を延ばすか終える。項目は、区切りの文字でも閉じ文字でも終わる。 -/
theorem feed_within (began : Began d before word)
    (run : Machine.start.run d (before ++ word) =
      ⟨.within ⟨byteLength before, word.reverse⟩ k, byteLength (before ++ word), k, ms⟩)
    (beyond : Beyond d k (byteLength before)) (c : Char) (after : List Char) :
    ∃ g, Indexed.feed? d (before ++ word ++ c :: after)
        ⟨(State.within .empty k).mode, k, ms, byteLength before, b⟩ (byteLength (before ++ word))
        c = some g ∧
      Charts d (before ++ word ++ [c]) g := by
  have hle : byteLength before ≤ byteLength (before ++ word) := by simp
  have hle' := Nat.le_trans hle (byteLength_le_snoc (before ++ word) c)
  have hrun := run_snoc run c
  cases k with
  | nil =>
      rw [State.within, Machine.feed_word, byteLength_snoc] at hrun
      change ∃ g, some (if c = d.variant then _ else if isBreaking c then _ else _) = some g ∧ _
      by_cases hv : c = d.variant
      · subst hv
        rw [if_pos rfl] at hrun ⊢
        exact ⟨_, rfl, mark (k := []) began hrun trivial⟩
      rw [if_neg hv] at hrun ⊢
      by_cases hb : isBreaking c
      · rw [if_pos hb] at hrun ⊢
        exact ⟨_, rfl, .fresh (k := []) hrun trivial⟩
      · rw [if_neg hb] at hrun ⊢
        exact ⟨_, rfl, grow (k := []) began hrun trivial⟩
  | cons f k =>
      rw [State.within, Machine.feed_item, byteLength_snoc, Word.text, List.reverse_reverse] at hrun
      have hitem := finishItem?_eq began.ne before (c :: after)
        ⟨(State.within .empty (f :: k)).mode, f :: k, ms, byteLength before, b⟩ rfl rfl
      change ∃ g, (if c = d.separator then Indexed.pushItem? _ _ _ else if c = d.variant then _
        else if c = d.closing then _ else _) = some g ∧ _
      by_cases hs : c = d.separator
      · rw [if_pos hs] at hrun ⊢
        rw [Indexed.pushItem?, hitem]
        exact ⟨_, rfl, .fresh (k := f.addItem word :: k) hrun ((beyond.mono hle').addItem word)⟩
      rw [if_neg hs] at hrun ⊢
      by_cases hv : c = d.variant
      · subst hv
        rw [if_pos rfl] at hrun ⊢
        exact ⟨_, rfl, mark (k := f :: k) began hrun beyond⟩
      rw [if_neg hv] at hrun ⊢
      by_cases hc : c = d.closing
      · subst hc
        rw [if_pos rfl] at hrun ⊢
        rw [Indexed.closeGroup?, if_pos rfl, hitem]
        exact closed hrun ((beyond.mono hle).addItem word) _ rfl
      · rw [if_neg hc] at hrun ⊢
        exact ⟨_, rfl, grow (k := f :: k) began hrun beyond⟩

theorem entered (hlead : word ≠ [])
    (run : Machine.start.run d (before ++ word ++ [d.opening]) =
      ⟨.itemStart, byteLength (before ++ word ++ [d.opening]),
        ⟨word, byteLength before, [], []⟩ :: k, ms⟩)
    (beyond : Beyond d k (byteLength before)) (after : List Char) (g : Indexed)
    (hg : g = ⟨g.mode, k, ms, byteLength before, g.markStart⟩)
    (hmark : g.markStart + d.variant.utf8Size = byteLength (before ++ word)) :
    ∃ g', g.openGroup? d (before ++ word ++ after) = some g' ∧
      Charts d (before ++ word ++ [d.opening]) g' := by
  have hcut := cutWord?_append hlead before after
  rw [hg, Indexed.openGroup?]
  simp only [hmark, hcut]
  refine ⟨_, rfl, .fresh (k := _ :: k) run ⟨Nat.le_of_eq ?_, by simp, beyond⟩⟩
  simp only [Frame.contentStart, byteLength_append, byteLength_singleton]

/-- 変種の文字の直後では、群を開くか、語を延ばすか終える。 -/
theorem feed_marking (began : Began d before (word ++ [d.variant]))
    (run : Machine.start.run d (before ++ (word ++ [d.variant])) =
      ⟨.marking ⟨byteLength before, (word ++ [d.variant]).reverse⟩ k,
        byteLength (before ++ (word ++ [d.variant])), k, ms⟩)
    (beyond : Beyond d k (byteLength before)) (c : Char) (after : List Char) :
    ∃ g, Indexed.feed? d (before ++ (word ++ [d.variant]) ++ c :: after)
        ⟨(State.marking .empty k).mode, k, ms, byteLength before, byteLength (before ++ word)⟩
        (byteLength (before ++ (word ++ [d.variant]))) c = some g ∧
      Charts d (before ++ (word ++ [d.variant]) ++ [c]) g := by
  have hmark : byteLength (before ++ word) + d.variant.utf8Size =
      byteLength (before ++ (word ++ [d.variant])) := by
    rw [← List.append_assoc, byteLength_snoc]
  have hrun := run_snoc run c
  cases k with
  | nil =>
      rw [State.marking, Machine.feed_variant, byteLength_snoc, Word.text,
        List.reverse_reverse] at hrun
      change ∃ g, (if c = d.opening then Indexed.openGroup? _ _ _ else
        some ⟨if isBreaking c then _ else _, _, _, _, _⟩) = some g ∧ _
      by_cases ho : c = d.opening
      · subst ho
        rw [if_pos rfl] at hrun ⊢
        exact entered began.ne hrun trivial _ _ rfl hmark
      rw [if_neg ho] at hrun ⊢
      by_cases hb : isBreaking c
      · rw [if_pos hb] at hrun ⊢
        exact ⟨_, rfl, .fresh (k := []) hrun trivial⟩
      · rw [if_neg hb] at hrun ⊢
        exact ⟨_, rfl, grow (k := []) began hrun trivial⟩
  | cons f k =>
      rw [State.marking, Machine.feed_itemVariant, byteLength_snoc, Word.text,
        List.reverse_reverse] at hrun
      change ∃ g, (if c = d.opening then Indexed.openGroup? _ _ _ else
        some (if isBreaking c then _ else _)) = some g ∧ _
      by_cases ho : c = d.opening
      · subst ho
        rw [if_pos rfl] at hrun ⊢
        exact entered began.ne hrun beyond _ _ rfl hmark
      rw [if_neg ho] at hrun ⊢
      by_cases hb : isBreaking c
      · rw [if_pos hb] at hrun ⊢
        exact ⟨_, rfl, .fresh (k := []) hrun trivial⟩
      · rw [if_neg hb] at hrun ⊢
        exact ⟨_, rfl, grow (k := f :: k) began hrun beyond⟩

/-- 内側の群が閉じた直後では、項目を終えるか、外の群を閉じるか、群をすべて捨てる。 -/
theorem feed_afterGroup
    (run : Machine.start.run d text = ⟨.afterGroup, byteLength text, f :: k, ms⟩)
    (beyond : Beyond d (f :: k) (byteLength text)) (c : Char) (after : List Char) :
    ∃ g, Indexed.feed? d (text ++ c :: after) ⟨.afterGroup, f :: k, ms, a, b⟩ (byteLength text)
        c = some g ∧ Charts d (text ++ [c]) g := by
  have hrun := run_snoc run c
  rw [Machine.feed_afterGroup, byteLength_snoc] at hrun
  change ∃ g, (if isBreaking c then _ else if c = d.closing then Indexed.closeGroup? _ _ _ _ else
    if c = d.separator then _ else _) = some g ∧ _
  by_cases hb : isBreaking c
  · rw [if_pos hb] at hrun ⊢
    exact ⟨_, rfl, .fresh (k := []) hrun trivial⟩
  rw [if_neg hb] at hrun ⊢
  by_cases hc : c = d.closing
  · subst hc
    rw [if_pos rfl] at hrun ⊢
    exact closed hrun beyond _ rfl
  rw [if_neg hc] at hrun ⊢
  by_cases hs : c = d.separator
  · rw [if_pos hs] at hrun ⊢
    exact ⟨_, rfl, .fresh (k := f :: k) hrun (beyond.mono (byteLength_le_snoc text c))⟩
  · rw [if_neg hs] at hrun ⊢
    exact ⟨_, rfl, .fresh (k := []) hrun trivial⟩

variable {g : Indexed}

/-- 一文字を読むと、切り出しに失敗せず、対応が保たれる。 -/
theorem feed (h : Charts d text g) (c : Char) (after : List Char) :
    ∃ g', g.feed? d (text ++ c :: after) (byteLength text) c = some g' ∧
      Charts d (text ++ [c]) g' := by
  cases h with
  | fresh run beyond => exact feed_fresh run beyond c after
  | within source began run beyond =>
      subst source
      exact feed_within began run beyond c after
  | marking source began run beyond =>
      subst source
      exact feed_marking began run beyond c after
  | afterGroup run beyond => exact feed_afterGroup run beyond c after

theorem run (h : Charts d text g) (s after : List Char) :
    ∃ g', g.run? d (text ++ (s ++ after)) (byteLength text) s = some g' ∧
      Charts d (text ++ s) g' := by
  induction s generalizing text g with
  | nil => exact ⟨g, rfl, by rwa [List.append_nil]⟩
  | cons c s ih =>
      obtain ⟨g', hfeed, hg'⟩ := h.feed c (s ++ after)
      obtain ⟨g'', hrun, hg''⟩ := ih hg'
      refine ⟨g'', ?_, by simpa using hg''⟩
      rw [Indexed.run?, List.cons_append, hfeed, byteLength_snoc]
      simpa using hrun

theorem start : Charts d [] {} := .fresh (k := []) rfl trivial

/-! ### 語の始まりか、読んだ所 -/

theorem stack_eq (h : Charts d text g) :
    (Machine.start.run d text).stack = g.stack ∧ (Machine.start.run d text).found = g.found := by
  cases h with
  | fresh run | within _ _ run | marking _ _ run | afterGroup run =>
      rw [run]
      exact ⟨rfl, rfl⟩

/-- 切り出した語を読みかけの語とすると、元の機械になる。 -/
theorem machine?_eq (h : Charts d text g) : g.machine? text = some (Machine.start.run d text) := by
  cases h with
  | @fresh k _ _ _ run =>
      rw [run]
      cases k <;> rfl
  | @within before word k _ _ source began run =>
      have hcut := cutWord?_append began.ne before []
      rw [List.append_nil, ← source] at hcut
      rw [run, Indexed.machine?, Indexed.word?]
      cases k <;> simp [State.within, State.mode, Mode.isReading, Mode.state, hcut]
  | @marking before word k _ source began run =>
      have hcut := cutWord?_append began.ne before []
      rw [List.append_nil, ← source] at hcut
      rw [run, Indexed.machine?, Indexed.word?]
      cases k <;> simp [State.marking, State.mode, Mode.isReading, Mode.state, hcut]
  | afterGroup run =>
      rw [run]
      rfl

theorem bound_eq (h : Charts d text g) :
    (Machine.start.run d text).bound = g.bound text := by
  cases h with
  | @fresh k _ _ _ run => rw [run]; cases k <;> rfl
  | @within _ _ k _ _ _ _ run => rw [run]; cases k <;> rfl
  | @marking _ _ k _ _ _ run => rw [run]; cases k <;> rfl
  | afterGroup run => rw [run]; rfl

theorem beyond (h : Charts d text g) : Beyond d g.stack (g.bound text) := by
  cases h with
  | @fresh k _ _ _ _ beyond => cases k <;> exact beyond
  | @within _ _ k _ _ _ _ _ beyond => cases k <;> exact beyond
  | @marking _ _ k _ _ _ _ beyond => cases k <;> exact beyond
  | afterGroup _ beyond => exact beyond

end Charts

/-! ## 積みと二つの位置のありかた -/

theorem Laid.stop_le (h : Laid d text lo ms hi) : ∀ m ∈ ms, m.stop + d.closing.utf8Size ≤ hi := by
  induction ms generalizing lo with
  | nil => simp
  | cons m ms ih => exact List.forall_mem_cons.mpr ⟨h.2.2.le, ih h.2.2⟩

theorem Stacked.start_lt (h : Stacked d text lo k hi) : ∀ f ∈ k, f.start < hi := by
  induction k generalizing hi with
  | nil => simp
  | cons f k ih =>
      obtain ⟨⟨top, htop, hle⟩, -, hl⟩ := h
      have hlt : f.start < hi := hl.le
      refine List.forall_mem_cons.mpr ⟨hlt, fun f' hf' => ?_⟩
      exact Nat.lt_of_lt_of_le (ih htop f' hf') (Nat.le_trans hle (Nat.le_of_lt hlt))

theorem Stacked.pairwise_start (h : Stacked d text lo k hi) :
    k.Pairwise fun f below => below.start < f.start := by
  induction k generalizing hi with
  | nil => exact .nil
  | cons f k ih =>
      obtain ⟨⟨top, htop, hle⟩, -, -⟩ := h
      exact .cons (fun f' hf' => Nat.lt_of_lt_of_le (htop.start_lt f' hf') hle) (ih htop)

/-- 群の閉じた子が、開き文字の先から、次に開いた群の始まりか位置 `hi` までの間に、重ならずに順に並ぶ。 -/
def Nested (d : Delimiters) : List Frame → (hi : Nat) → Prop
  | [], _ => True
  | f :: k, hi =>
      f.children.Pairwise (fun g g' => g.stop + d.closing.utf8Size ≤ g'.start) ∧
        (∀ g ∈ f.children, f.contentStart d ≤ g.start ∧ g.start < g.stop ∧
          g.stop + d.closing.utf8Size ≤ hi) ∧
        Nested d k f.start

theorem Stacked.nested (h : Stacked d text lo k hi) (hb : Beyond d k hi) : Nested d k hi := by
  induction k generalizing hi with
  | nil => trivial
  | cons f k ih =>
      obtain ⟨⟨top, htop, hle⟩, -, hl⟩ := h
      obtain ⟨-, hchildren, hbelow⟩ := hb
      refine ⟨List.pairwise_map.mp hl.pairwise, fun g hg => ?_, ih (htop.mono hle) hbelow⟩
      have hmem : g.toMatch ∈ f.children.map Group.toMatch := List.mem_map_of_mem hg
      exact ⟨hchildren g hg, (hl.placed _ hmem).2.lt, hl.stop_le _ hmem⟩

theorem Nested.mono (h : Nested d k mid) (hm : mid ≤ hi) : Nested d k hi := by
  cases k with
  | nil => trivial
  | cons f k =>
      obtain ⟨hpairwise, hchildren, hk⟩ := h
      refine ⟨hpairwise, fun g hg => ?_, hk⟩
      obtain ⟨hlow, hlt, hhigh⟩ := hchildren g hg
      exact ⟨hlow, hlt, Nat.le_trans hhigh hm⟩

/-- 冠は群の始まりから変種の文字までの切り出しで、その直後に開き文字がある。 -/
structure Led (d : Delimiters) (text : List Char) (f : Frame) : Prop where
  cut : slice? text f.start (f.start + byteLength f.lead) = some f.lead
  variant : f.lead.getLast? = some d.variant
  opening : CharAt text (f.start + byteLength f.lead) d.opening

theorem led_of_opens {stop : Nat} (h : Opens d text f.start stop f.lead) : Led d text f := by
  obtain ⟨before, word, after, hsource, hstart, hlead, -⟩ := h
  have htext : text = before ++ f.lead ++ d.opening :: after := by simp [hsource, hlead]
  have hend : f.start + byteLength f.lead = byteLength (before ++ f.lead) := by
    rw [byteLength_append, hstart]
  refine ⟨?_, by simp [hlead], before ++ f.lead, after, htext, hend.symm⟩
  rw [hend, ← hstart, htext]
  exact slice?_append before f.lead _

/-- 文 `text` を読み終えた機械の、積みと二つの位置のありかた。 -/
structure Indexed.Placed (d : Delimiters) (text : List Char) (g : Indexed) : Prop where
  stack_nil_iff : g.stack = [] ↔ g.mode = .idle ∨ g.mode = .word ∨ g.mode = .variant
  began : g.mode.isReading → ∃ before word, text = before ++ word ∧
    byteLength before = g.wordStart ∧ Began d before word
  afterFound : g.mode.isReading → ∀ x ∈ g.found, x.stop + d.closing.utf8Size ≤ g.wordStart
  afterOpening : g.mode.isReading → ∀ f ∈ g.stack.head?, f.contentStart d ≤ g.wordStart
  marked : g.mode.isMarked → g.wordStart ≤ g.markStart ∧ CharAt text g.markStart d.variant ∧
    g.markStart + d.variant.utf8Size = byteLength text
  led : ∀ f ∈ g.stack, Led d text f
  starts : g.stack.Pairwise fun f below => below.start < f.start
  children : Nested d g.stack (byteLength text)

namespace Charts

theorem stack_nil_iff {g : Indexed} (h : Charts d text g) :
    g.stack = [] ↔ g.mode = .idle ∨ g.mode = .word ∨ g.mode = .variant := by
  cases h with
  | @fresh k => cases k <;> simp [State.fresh, State.mode]
  | @within _ _ k => cases k <;> simp [State.within, State.mode]
  | @marking _ _ k => cases k <;> simp [State.marking, State.mode]
  | afterGroup => simp

theorem began {g : Indexed} (h : Charts d text g) (hreading : g.mode.isReading) :
    ∃ before word, text = before ++ word ∧ byteLength before = g.wordStart ∧
      Began d before word := by
  cases h with
  | @fresh k => cases k <;> cases hreading
  | within source began => exact ⟨_, _, source, rfl, began⟩
  | marking source began => exact ⟨_, _, source, rfl, began⟩
  | afterGroup => cases hreading

theorem marked {g : Indexed} (h : Charts d text g) (hmarked : g.mode.isMarked) :
    g.wordStart ≤ g.markStart ∧ CharAt text g.markStart d.variant ∧
      g.markStart + d.variant.utf8Size = byteLength text := by
  cases h with
  | @fresh k => cases k <;> cases hmarked
  | @within _ _ k => cases k <;> cases hmarked
  | @marking before word k ms source began =>
      rw [← List.append_assoc] at source
      subst source
      exact ⟨by simp, .last _ _, byteLength_snoc _ _⟩
  | afterGroup => cases hmarked

theorem bound_le {g : Indexed} (h : Charts d text g) : g.bound text ≤ byteLength text := by
  rw [Indexed.bound]
  split
  next hreading =>
      obtain ⟨before, word, rfl, hstart, -⟩ := h.began hreading
      rw [← hstart, byteLength_append]
      exact Nat.le_add_right _ _
  next => exact Nat.le_refl _

theorem placed {g : Indexed} (h : Charts d text g) : g.Placed d text := by
  have hsound : Sound d text (Machine.start.run d text) := Sound.start.run text
  have hanchored : Anchored d text (Machine.start.run d text) := Anchored.start.run text
  obtain ⟨lo, hl, hs⟩ := hsound.stacked
  have hopened := hanchored.opened
  obtain ⟨hstack, hfound⟩ := h.stack_eq
  rw [h.bound_eq, hstack] at hs
  rw [hfound] at hl
  rw [hstack] at hopened
  have hbound (hreading : g.mode.isReading) : g.bound text = g.wordStart := if_pos hreading
  refine ⟨h.stack_nil_iff, h.began, fun hreading x hx => ?_, fun hreading f hf => ?_, h.marked,
    fun f hf => led_of_opens (hopened f hf).self, hs.pairwise_start,
    (hs.nested h.beyond).mono h.bound_le⟩
  · rw [← hbound hreading]
    exact Nat.le_trans (hl.stop_le x hx) hs.le
  · rw [← hbound hreading]
    have hbeyond := h.beyond
    cases hk : g.stack with
    | nil =>
        rw [hk] at hf
        cases hf
    | cons f' k =>
        rw [hk] at hf hbeyond
        obtain rfl : f' = f := Option.some.inj hf
        exact hbeyond.1

end Charts

end Scan

/--
二つの位置だけで語を覚える機械は、文のどこまで読んでも、語の切り出しにも群を閉じることにも失敗しない。
位置の指す語を切り出すと、読みかけの語を持つ機械になる。
-/
theorem Delimiters.run?_indexed (d : Delimiters) (before after : List Char) :
    ∃ g, Scan.Indexed.run? d (before ++ after) {} 0 before = some g ∧
      g.machine? before = some (Scan.Machine.start.run d before) ∧ g.Placed d before := by
  obtain ⟨g, hrun, hg⟩ := Scan.Charts.start.run before after
  exact ⟨g, hrun, hg.machine?_eq, hg.placed⟩

/-- 内側の群が閉じても、二つの位置は内側の項目と冠を指したまま残る。 -/
example :
    let text := "dark:(a,lg:(b,c)".toList
    (Scan.Indexed.run? {} text {} 0 text).map (fun g => (g.mode, g.wordStart, g.markStart)) =
      some (.afterGroup, 14, 10) := by
  decide

end GroupedVariants
