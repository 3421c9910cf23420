import GroupedVariants.Proofs.Scan.Step
import GroupedVariants.Proofs.Splice
import GroupedVariants.Transformer

/-!
# 見つけた範囲の並び方

見つけた範囲は文の中に順に並ぶ。開いた群も始まりの順に入れ子になり、閉じた子はその群の始まりの後、
次に開いた群の始まりの前に並ぶ。群が壊れたときに子を外のものから展開しても順が保たれるのは、このためである。
-/

namespace GroupedVariants

open Text

/-- 位置 `n` から、語を切らない文字が始まる。 -/
def WordAt (text : List Char) (n : Nat) : Prop :=
  ∃ c, CharAt text n c ∧ isBreaking c = false

theorem WordAt.append {text : List Char} {n : Nat} (h : WordAt text n) (more : List Char) :
    WordAt (text ++ more) n := by
  obtain ⟨c, hc, hb⟩ := h
  exact ⟨c, hc.append more, hb⟩

theorem WordAt.lt {text : List Char} {n : Nat} (h : WordAt text n) : n < byteLength text := by
  obtain ⟨c, hc, -⟩ := h
  have := hc.add_le
  have := c.utf8Size_pos
  omega

theorem WordAt.le {text : List Char} {n : Nat} (h : WordAt text n) : n ≤ byteLength text :=
  Nat.le_of_lt h.lt

/-- 範囲が、語の始まりから閉じ文字の手前までである。 -/
structure Match.Placed (d : Delimiters) (text : List Char) (m : Match) : Prop where
  lt : m.start < m.stop
  starts : WordAt text m.start
  stops : CharAt text m.stop d.closing

namespace Scan

variable {d : Delimiters} {text : List Char} {lo mid hi : Nat} {ms ns : List Match}
  {k : List Frame} {f : Frame}

/-- 範囲が位置 `lo` から `hi` までの間に順に、重ならずに並ぶ。 -/
def Laid (d : Delimiters) (text : List Char) (lo : Nat) : List Match → (hi : Nat) → Prop
  | [], hi => lo ≤ hi
  | m :: ms, hi =>
      lo ≤ m.start ∧ m.Placed d text ∧ Laid d text (m.stop + d.closing.utf8Size) ms hi

/-- 開いた群が位置 `lo` から `hi` までの間に入れ子になる。一番内の群が先頭。 -/
def Stacked (d : Delimiters) (text : List Char) (lo : Nat) : List Frame → (hi : Nat) → Prop
  | [], hi => lo ≤ hi
  | f :: k, hi =>
      (∃ top, Stacked d text lo k top ∧ top ≤ f.start) ∧ WordAt text f.start ∧
        Laid d text (f.start + 1) (f.children.map Group.toMatch) hi

namespace Laid

theorem mono (h : Laid d text lo ms mid) (hm : mid ≤ hi) : Laid d text lo ms hi := by
  induction ms generalizing lo with
  | nil => exact Nat.le_trans h hm
  | cons m ms ih => exact ⟨h.1, h.2.1, ih h.2.2⟩

theorem append (h : Laid d text lo ms mid) (h' : Laid d text mid ns hi) :
    Laid d text lo (ms ++ ns) hi := by
  induction ms generalizing lo with
  | nil =>
      have hlo : lo ≤ mid := h
      cases ns with
      | nil => exact Nat.le_trans hlo h'
      | cons n ns => exact ⟨Nat.le_trans hlo h'.1, h'.2⟩
  | cons m ms ih => exact ⟨h.1, h.2.1, ih h.2.2⟩

theorem extend (h : Laid d text lo ms hi) (more : List Char) :
    Laid d (text ++ more) lo ms hi := by
  induction ms generalizing lo with
  | nil => exact h
  | cons m ms ih =>
      obtain ⟨hlo, hp, hrest⟩ := h
      exact ⟨hlo, ⟨hp.lt, hp.starts.append more, hp.stops.append more⟩, ih hrest⟩

theorem le (h : Laid d text lo ms hi) : lo ≤ hi := by
  induction ms generalizing lo with
  | nil => exact h
  | cons m ms ih =>
      have := h.1
      have := h.2.1.lt
      have := ih h.2.2
      omega

theorem placed (h : Laid d text lo ms hi) : ∀ m ∈ ms, lo ≤ m.start ∧ m.Placed d text := by
  induction ms generalizing lo with
  | nil => simp
  | cons n ms ih =>
      intro m hm
      rcases List.mem_cons.mp hm with rfl | hm
      · exact ⟨h.1, h.2.1⟩
      · obtain ⟨hle, hp⟩ := ih h.2.2 m hm
        have := h.1
        have := h.2.1.lt
        exact ⟨by omega, hp⟩

/-- 並んだ範囲は、それより先の文を切り分ける。 -/
theorem spans (h : Laid d text lo ms hi) {before rest : List Char} (ht : text = before ++ rest)
    (hb : byteLength before = lo) : Spans d.closing lo ms rest := by
  induction ms generalizing lo before rest with
  | nil => exact .nil lo rest
  | cons m ms ih =>
      obtain ⟨hlo, hp, hrest⟩ := h
      obtain ⟨c, ⟨s, t, hs, hsn⟩, -⟩ := hp.starts
      obtain ⟨u, v, hu, hun⟩ := hp.stops
      have hlt := hp.lt
      obtain ⟨gap, hgap, hafter⟩ :=
        exists_append_of_byteLength_le (ht.symm.trans hs) (by omega)
      obtain ⟨body, hbody, hclose⟩ :=
        exists_append_of_byteLength_le (hs.symm.trans hu) (by omega)
      have hstart : m.start = lo + byteLength gap := by
        rw [← hsn, hgap, byteLength_append, hb]
      have hstop : m.stop = m.start + byteLength body := by
        rw [← hun, hbody, byteLength_append, hsn]
      have htext : text = (u ++ [d.closing]) ++ v := by simp [hu]
      have hnext : byteLength (u ++ [d.closing]) = m.stop + d.closing.utf8Size := by simp [hun]
      rw [hafter, hclose]
      exact .cons gap body v hstart hstop (ih hrest htext hnext)

end Laid

namespace Stacked

theorem mono (h : Stacked d text lo k mid) (hm : mid ≤ hi) : Stacked d text lo k hi := by
  cases k with
  | nil => exact Nat.le_trans h hm
  | cons f k => exact ⟨h.1, h.2.1, h.2.2.mono hm⟩

theorem extend (h : Stacked d text lo k hi) (more : List Char) :
    Stacked d (text ++ more) lo k hi := by
  induction k generalizing hi with
  | nil => exact h
  | cons f k ih =>
      obtain ⟨⟨top, htop, hle⟩, hw, hl⟩ := h
      exact ⟨⟨top, ih htop, hle⟩, hw.append more, hl.extend more⟩

theorem le (h : Stacked d text lo k hi) : lo ≤ hi := by
  induction k generalizing hi with
  | nil => exact h
  | cons f k ih =>
      obtain ⟨⟨top, htop, hle⟩, -, hl⟩ := h
      have := ih htop
      have := hl.le
      omega

/-- 積みの子を外のものから並べると、順に並ぶ。 -/
theorem salvage (h : Stacked d text lo k hi) : Laid d text lo (salvage k) hi := by
  induction k generalizing hi with
  | nil => exact h
  | cons f k ih =>
      obtain ⟨⟨top, htop, hle⟩, -, hl⟩ := h
      rw [salvage_cons]
      exact ((ih htop).mono (Nat.le_succ_of_le hle)).append hl

end Stacked

theorem Laid.pairwise (h : Laid d text lo ms hi) :
    ms.Pairwise fun a b => a.stop + d.closing.utf8Size ≤ b.start := by
  induction ms generalizing lo with
  | nil => exact .nil
  | cons m ms ih => exact .cons (fun n hn => (h.2.2.placed n hn).1) (ih h.2.2)

/-! ## 機械の不変条件 -/

/-- 文 `text` を読み終えた機械。読みかけの語は、積みの群がすべて始まった後で始まる。 -/
inductive Sound (d : Delimiters) (text : List Char) : Machine → Prop
  | fresh {k : List Frame} {ms : List Match} {lo : Nat} :
      Laid d text 0 ms lo → Stacked d text lo k (byteLength text) →
      Sound d text ⟨.fresh k, byteLength text, k, ms⟩
  | within {w : Word} {k : List Frame} {ms : List Match} {lo : Nat} :
      Laid d text 0 ms lo → Stacked d text lo k w.start → WordAt text w.start →
      Sound d text ⟨.within w k, byteLength text, k, ms⟩
  | marking {w : Word} {k : List Frame} {ms : List Match} {lo : Nat} :
      Laid d text 0 ms lo → Stacked d text lo k w.start → WordAt text w.start →
      Sound d text ⟨.marking w k, byteLength text, k, ms⟩
  | afterGroup {f : Frame} {k : List Frame} {ms : List Match} {lo : Nat} :
      Laid d text 0 ms lo → Stacked d text lo (f :: k) (byteLength text) →
      Sound d text ⟨.afterGroup, byteLength text, f :: k, ms⟩

namespace Sound

variable {m : Machine} {w : Word} {stop : Nat}

theorem abandoned (hl : Laid d text 0 ms lo) (hs : Stacked d text lo k (byteLength text)) :
    Sound d text ⟨.idle, byteLength text, [], ms ++ salvage k⟩ :=
  .fresh (k := []) (hl.append hs.salvage) (Nat.le_refl _)

theorem entered (hl : Laid d text 0 ms lo) (hs : Stacked d text lo k w.start)
    (hw : WordAt text w.start) :
    Sound d text ⟨.itemStart, byteLength text, ⟨w.text, w.start, [], []⟩ :: k, ms⟩ :=
  .fresh (k := _ :: k) hl ⟨⟨w.start, hs, Nat.le_refl _⟩, hw, hw.lt⟩

/-- 閉じ文字まで読むと、一番内の群は親の子になるか、展開される。 -/
theorem closed (hl : Laid d text 0 ms lo) (hs : Stacked d text lo (f :: k) stop)
    (hc : CharAt text stop d.closing) (ht : byteLength text = stop + d.closing.utf8Size) :
    Sound d text (Machine.closed d stop ms (f :: k)) := by
  obtain ⟨⟨top, htop, hle⟩, hw, hch⟩ := hs
  have hlt : f.start < stop := hch.le
  cases k with
  | nil =>
      -- 一番外の群は展開され、それまでに見つかった範囲の次に並ぶ。
      rw [Machine.closed, ← ht]
      refine .fresh (k := []) (hl.append ?_) (Nat.le_refl _)
      have hlo : lo ≤ top := htop
      exact ⟨Nat.le_trans hlo hle, ⟨hlt, hw, hc⟩, Nat.le_of_eq ht.symm⟩
  | cons parent k =>
      -- 内側の群は、親のそれまでの子の次に並ぶ。
      obtain ⟨hbelow, hwp, hchp⟩ := htop
      rw [Machine.closed, ← ht]
      refine .afterGroup hl ⟨hbelow, hwp, ?_⟩
      rw [Frame.addChild, List.map_append]
      exact hchp.append ⟨hle, ⟨hlt, hw, hc⟩, Nat.le_of_eq ht.symm⟩

/-! ### 一文字を読んでも保たれる -/

theorem feed_fresh (hl : Laid d text 0 ms lo) (hs : Stacked d text lo k (byteLength text))
    (c : Char) :
    Sound d (text ++ [c]) (Machine.feed d ⟨.fresh k, byteLength text, k, ms⟩ c) := by
  have hl := hl.extend [c]
  have hs := hs.extend [c]
  have hbegin (hb : isBreaking c = false) :
      Sound d (text ++ [c]) ⟨.within ⟨byteLength text, [c]⟩ k, byteLength (text ++ [c]), k, ms⟩ :=
    .within hl hs ⟨c, .last text c, hb⟩
  cases k with
  | nil =>
      rw [State.fresh, Machine.feed_idle, byteLength_snoc]
      cases hb : isBreaking c with
      | true => exact .fresh (k := []) hl (hs.mono (byteLength_le_snoc text c))
      | false => exact hbegin hb
  | cons f k =>
      rw [State.fresh, Machine.feed_itemStart, byteLength_snoc]
      split
      · exact abandoned hl (hs.mono (byteLength_le_snoc text c))
      · rename_i hc
        exact hbegin (by simp_all)

theorem feed_within (hl : Laid d text 0 ms lo) (hs : Stacked d text lo k w.start)
    (hw : WordAt text w.start) (c : Char) :
    Sound d (text ++ [c]) (Machine.feed d ⟨.within w k, byteLength text, k, ms⟩ c) := by
  have hl := hl.extend [c]
  have hs := hs.extend [c]
  have hw' := hw.append [c]
  cases k with
  | nil =>
      rw [State.within, Machine.feed_word, byteLength_snoc]
      split
      · exact .marking (k := []) hl hs hw'
      split
      · exact .fresh (k := []) hl (hs.mono hw'.le)
      · exact .within (k := []) hl hs hw'
  | cons f k =>
      rw [State.within, Machine.feed_item, byteLength_snoc]
      split
      · exact .fresh (k := _ :: k) hl (hs.mono hw'.le)
      split
      · exact .marking (k := _ :: k) hl hs hw'
      split
      · rename_i hc
        subst hc
        exact closed hl (hs.mono hw.le) (.last text _) (byteLength_snoc text _).symm
      · exact .within (k := _ :: k) hl hs hw'

theorem feed_marking (hl : Laid d text 0 ms lo) (hs : Stacked d text lo k w.start)
    (hw : WordAt text w.start) (c : Char) :
    Sound d (text ++ [c]) (Machine.feed d ⟨.marking w k, byteLength text, k, ms⟩ c) := by
  have hl := hl.extend [c]
  have hs := hs.extend [c]
  have hw := hw.append [c]
  cases k with
  | nil =>
      rw [State.marking, Machine.feed_variant, byteLength_snoc]
      split
      · exact entered hl hs hw
      split
      · exact .fresh (k := []) hl (hs.mono hw.le)
      · exact .within (k := []) hl hs hw
  | cons f k =>
      rw [State.marking, Machine.feed_itemVariant, byteLength_snoc]
      split
      · exact entered hl hs hw
      split
      · exact abandoned hl (hs.mono hw.le)
      · exact .within (k := _ :: k) hl hs hw

theorem feed_afterGroup (hl : Laid d text 0 ms lo)
    (hs : Stacked d text lo (f :: k) (byteLength text)) (c : Char) :
    Sound d (text ++ [c]) (Machine.feed d ⟨.afterGroup, byteLength text, f :: k, ms⟩ c) := by
  have hl := hl.extend [c]
  have hs := hs.extend [c]
  have hle := byteLength_le_snoc text c
  rw [Machine.feed_afterGroup, byteLength_snoc]
  split
  · exact abandoned hl (hs.mono hle)
  split
  · rename_i hc
    subst hc
    exact closed hl hs (.last text _) (byteLength_snoc text _).symm
  split
  · exact .fresh (k := _ :: _) hl (hs.mono hle)
  · exact abandoned hl (hs.mono hle)

theorem feed (h : Sound d text m) (c : Char) : Sound d (text ++ [c]) (m.feed d c) := by
  cases h with
  | fresh hl hs => exact feed_fresh hl hs c
  | within hl hs hw => exact feed_within hl hs hw c
  | marking hl hs hw => exact feed_marking hl hs hw c
  | afterGroup hl hs => exact feed_afterGroup hl hs c

theorem run (h : Sound d text m) (s : List Char) : Sound d (text ++ s) (m.run d s) := by
  induction s generalizing text m with
  | nil => simpa using h
  | cons c s ih => simpa using ih (h.feed c)

theorem start : Sound d [] .start :=
  have h : Laid d [] 0 [] 0 := Nat.le_refl 0
  .fresh (k := []) h (Nat.le_refl 0)

theorem laid (h : Sound d text m) : Laid d text 0 m.found (byteLength text) := by
  cases h with
  | fresh hl hs => exact hl.mono hs.le
  | within hl hs hw => exact hl.mono (Nat.le_trans hs.le hw.le)
  | marking hl hs hw => exact hl.mono (Nat.le_trans hs.le hw.le)
  | afterGroup hl hs => exact hl.mono hs.le

end Sound

end Scan

namespace Delimiters

theorem laid_findMatches (d : Delimiters) (text : List Char) :
    Scan.Laid d text 0 (d.findMatches text) (byteLength text) :=
  (Scan.Sound.start.run text).laid

theorem spans_findMatches (d : Delimiters) (text : List Char) :
    Spans d.closing 0 (d.findMatches text) text :=
  (d.laid_findMatches text).spans (List.nil_append text).symm rfl

end Delimiters

/-- 見つかる範囲はどれも語の頭から閉じ文字までで、順に、重ならずに並ぶ。嵌め込みの切り出しは失敗しない。 -/
theorem Transformer.findMatches_ordered (t : Transformer) (text : List Char) :
    (∀ m ∈ t.findMatches text,
      m.start < m.stop ∧ IsBoundary text m.start ∧ IsBoundary text m.stop ∧
        (∃ c, CharAt text m.start c ∧ isBreaking c = false) ∧
        CharAt text m.stop t.delimiters.closing ∧
        m.stop + t.delimiters.closing.utf8Size ≤ byteLength text) ∧
      (t.findMatches text).Pairwise
        (fun a b => a.stop + t.delimiters.closing.utf8Size ≤ b.start) ∧
      checkedSplice t.delimiters.closing text (t.findMatches text) 0 = some (t.expand text) := by
  have hl := t.delimiters.laid_findMatches text
  refine ⟨fun m hm => ?_, hl.pairwise, ?_⟩
  · obtain ⟨-, hp⟩ := hl.placed m hm
    obtain ⟨c, hc, hb⟩ := hp.starts
    exact ⟨hp.lt, hc.isBoundary, hp.stops.isBoundary, ⟨c, hc, hb⟩, hp.stops, hp.stops.add_le⟩
  · have hs := (t.delimiters.spans_findMatches text).checkedSplice_eq [] rfl
    rw [List.nil_append] at hs
    rw [t.expand_eq_splice]
    exact hs

end GroupedVariants
