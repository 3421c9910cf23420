import GroupedVariants.Scan.Machine

/-!
# 一文字を読むと機械がどう変わるか

状態ごとの等式を七つ置く。ほかの証明は `feed` の定義を開かず、これらを使う。
-/

namespace GroupedVariants.Scan

@[simp] theorem Word.text_push (w : Word) (c : Char) : (w.push c).text = w.text ++ [c] := by
  simp [Word.push, Word.text]

@[simp] theorem Word.start_push (w : Word) (c : Char) : (w.push c).start = w.start := rfl

/-- 群が壊れたときに展開される子。外の群のものから並ぶ。 -/
def salvage (k : List Frame) : List Match := (k.reverse.flatMap (·.children)).map Group.toMatch

@[simp] theorem salvage_nil : salvage [] = [] := rfl

@[simp] theorem salvage_cons (f : Frame) (k : List Frame) :
    salvage (f :: k) = salvage k ++ f.children.map Group.toMatch := by
  simp [salvage]

/-! ## 積みが定める状態

積みが空なら群の外、空でなければ群の中である。
-/

namespace State

/-- 語の頭。 -/
def fresh : List Frame → State
  | [] => .idle
  | _ :: _ => .itemStart

/-- 語の中。 -/
def within (w : Word) : List Frame → State
  | [] => .word w
  | _ :: _ => .item w

/-- 語の、変種の文字の直後。 -/
def marking (w : Word) : List Frame → State
  | [] => .variant w
  | _ :: _ => .itemVariant w

end State

namespace Machine

variable {d : Delimiters} {o : Nat} {k : List Frame} {ms : List Match} {w : Word} {c : Char}

/-- 積み `k` の一番内の群を、位置 `stop` の閉じ文字で閉じた後の機械。 -/
def closed (d : Delimiters) (stop : Nat) (ms : List Match) : (k : List Frame) → Machine
  | [] => ⟨.idle, stop + d.closing.utf8Size, [], ms⟩
  | [f] => ⟨.idle, stop + d.closing.utf8Size, [], ms ++ [(f.flatten stop).toMatch]⟩
  | f :: parent :: k =>
      ⟨.afterGroup, stop + d.closing.utf8Size, parent.addChild (f.close stop) :: k, ms⟩

/-! ## 群の外 -/

theorem feed_idle :
    feed d ⟨.idle, o, k, ms⟩ c =
      ⟨if Text.isBreaking c then .idle else .word ⟨o, [c]⟩, o + c.utf8Size, k, ms⟩ := by
  by_cases hb : Text.isBreaking c <;>
    simp [feed, action, hb, perform, reading, State.inGroup, advance]

theorem feed_word :
    feed d ⟨.word w, o, k, ms⟩ c =
      ⟨if c = d.variant then .variant (w.push c)
        else if Text.isBreaking c then .idle else .word (w.push c), o + c.utf8Size, k, ms⟩ := by
  by_cases hv : c = d.variant <;> by_cases hb : Text.isBreaking c <;>
    simp [feed, action, hv, hb, perform, reading, marked, State.inGroup, State.pending, advance]

theorem feed_variant :
    feed d ⟨.variant w, o, k, ms⟩ c =
      if c = d.opening then ⟨.itemStart, o + c.utf8Size, ⟨w.text, w.start, [], []⟩ :: k, ms⟩
      else ⟨if Text.isBreaking c then .idle else .word (w.push c), o + c.utf8Size, k, ms⟩ := by
  by_cases ho : c = d.opening <;> by_cases hb : Text.isBreaking c <;>
    simp [feed, action, ho, hb, perform, reading, enter, State.inGroup, State.pending, advance]

/-! ## 群の中 -/

theorem feed_itemStart :
    feed d ⟨.itemStart, o, k, ms⟩ c =
      if Text.isBreaking c || c = d.closing then ⟨.idle, o + c.utf8Size, [], ms ++ salvage k⟩
      else ⟨.item ⟨o, [c]⟩, o + c.utf8Size, k, ms⟩ := by
  by_cases h : Text.isBreaking c || c = d.closing <;>
    simp [feed, action, h, perform, reading, abandon, salvage, State.inGroup, advance]

theorem feed_item :
    feed d ⟨.item w, o, k, ms⟩ c =
      if c = d.separator then
        ⟨.itemStart, o + c.utf8Size, k.modifyHead (·.addItem w.text), ms⟩
      else if c = d.variant then ⟨.itemVariant (w.push c), o + c.utf8Size, k, ms⟩
      else if c = d.closing then closed d o ms (k.modifyHead (·.addItem w.text))
      else ⟨.item (w.push c), o + c.utf8Size, k, ms⟩ := by
  have hfinish : finishItem ⟨.item w, o, k, ms⟩ = k.modifyHead (·.addItem w.text) := by
    cases k <;> rfl
  by_cases hs : c = d.separator
  · simp [feed, action, hs, perform, separate, hfinish, advance]
  by_cases hv : c = d.variant
  · subst hv
    simp [feed, action, hs, perform, marked, State.inGroup, State.pending, advance]
  by_cases hc : c = d.closing
  · subst hc
    rcases k with _ | ⟨f, _ | ⟨g, k⟩⟩ <;>
      simp [feed, action, hs, hv, perform, close, hfinish, closed, advance]
  · simp [feed, action, hs, hv, hc, perform, reading, State.inGroup, State.pending, advance]

theorem feed_itemVariant :
    feed d ⟨.itemVariant w, o, k, ms⟩ c =
      if c = d.opening then ⟨.itemStart, o + c.utf8Size, ⟨w.text, w.start, [], []⟩ :: k, ms⟩
      else if Text.isBreaking c then ⟨.idle, o + c.utf8Size, [], ms ++ salvage k⟩
      else ⟨.item (w.push c), o + c.utf8Size, k, ms⟩ := by
  by_cases ho : c = d.opening <;> by_cases hb : Text.isBreaking c <;>
    simp [feed, action, ho, hb, perform, reading, enter, abandon, salvage, State.inGroup,
      State.pending, advance]

theorem feed_afterGroup :
    feed d ⟨.afterGroup, o, k, ms⟩ c =
      if Text.isBreaking c then ⟨.idle, o + c.utf8Size, [], ms ++ salvage k⟩
      else if c = d.closing then closed d o ms k
      else if c = d.separator then ⟨.itemStart, o + c.utf8Size, k, ms⟩
      else ⟨.idle, o + c.utf8Size, [], ms ++ salvage k⟩ := by
  by_cases hb : Text.isBreaking c
  · simp [feed, action, hb, perform, abandon, salvage, advance]
  by_cases hc : c = d.closing
  · subst hc
    rcases k with _ | ⟨f, _ | ⟨g, k⟩⟩ <;>
      simp [feed, action, hb, perform, close, finishItem, closed, advance]
  by_cases hs : c = d.separator
  · subst hs
    simp [feed, action, hb, hc, perform, separate, finishItem, advance]
  · simp [feed, action, hb, hc, hs, perform, abandon, salvage, advance]

/-! ## 読んだ位置 -/

theorem offset_perform (m : Machine) (c : Char) (a : Action) :
    (m.perform c a).offset = m.offset := by
  cases a with
  | close =>
      rw [perform, close]
      split <;> rfl
  | leave | begin | extend | mark | enter | separate | abandon => rfl

@[simp] theorem offset_feed (m : Machine) (c : Char) :
    (feed d m c).offset = m.offset + c.utf8Size := by
  rw [feed, advance, offset_perform]

/-! ## 文を続けて読む -/

@[simp] theorem run_nil (m : Machine) : m.run d [] = m := rfl

@[simp] theorem run_cons (m : Machine) (s : List Char) :
    m.run d (c :: s) = (feed d m c).run d s := rfl

@[simp] theorem run_append (m : Machine) (s t : List Char) :
    m.run d (s ++ t) = (m.run d s).run d t := List.foldl_append

end Machine

end GroupedVariants.Scan
