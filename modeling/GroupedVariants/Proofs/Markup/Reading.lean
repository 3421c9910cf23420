import GroupedVariants.Proofs.Delimiters
import GroupedVariants.Proofs.Markup.Tree
import GroupedVariants.Proofs.Scan.Step

/-!
# 語と木を読んだ機械

どの補題も、外で開いている群の積み `k` を任意とする。積みが空なら群の外、空でなければ群の中である。
-/

namespace GroupedVariants.Markup

open Scan Scan.Machine Text

variable {d : Delimiters} {k : List Frame} {ms : List Match} {w : Word} {o : Nat}

/-! ## 一文字 -/

theorem feed_fresh_plain {c : Char} (hc : d.IsPlain c) :
    feed d ⟨State.fresh k, o, k, ms⟩ c = ⟨State.within ⟨o, [c]⟩ k, o + c.utf8Size, k, ms⟩ := by
  have hb := hc.1
  have hcl : c ≠ d.closing := hc.2 .closing
  cases k with
  | nil => simp [State.fresh, State.within, feed_idle, hb]
  | cons f k => simp [State.fresh, State.within, feed_itemStart, hb, hcl]

theorem feed_within_plain {c : Char} (hc : d.IsPlain c) :
    feed d ⟨State.within w k, o, k, ms⟩ c = ⟨State.within (w.push c) k, o + c.utf8Size, k, ms⟩ := by
  have hb := hc.1
  have hv : c ≠ d.variant := hc.2 .variant
  have hs : c ≠ d.separator := hc.2 .separator
  have hcl : c ≠ d.closing := hc.2 .closing
  cases k with
  | nil => simp [State.within, feed_word, hb, hv]
  | cons f k => simp [State.within, feed_item, hv, hs, hcl]

theorem feed_within_variant (hd : d.Usable) :
    feed d ⟨State.within w k, o, k, ms⟩ d.variant =
      ⟨State.marking (w.push d.variant) k, o + d.variant.utf8Size, k, ms⟩ := by
  cases k with
  | nil => simp [State.within, State.marking, feed_word]
  | cons f k => simp [State.within, State.marking, feed_item, hd.variant_ne_separator]

theorem feed_marking_plain {c : Char} (hc : d.IsPlain c) :
    feed d ⟨State.marking w k, o, k, ms⟩ c = ⟨State.within (w.push c) k, o + c.utf8Size, k, ms⟩ := by
  have hb := hc.1
  have ho : c ≠ d.opening := hc.2 .opening
  cases k with
  | nil => simp [State.within, State.marking, feed_variant, hb, ho]
  | cons f k => simp [State.within, State.marking, feed_itemVariant, hb, ho]

theorem feed_marking_opening :
    feed d ⟨State.marking w k, o, k, ms⟩ d.opening =
      ⟨.itemStart, o + d.opening.utf8Size, ⟨w.text, w.start, [], []⟩ :: k, ms⟩ := by
  cases k with
  | nil => simp [State.marking, feed_variant]
  | cons f k => simp [State.marking, feed_itemVariant]

/-! ## 語 -/

theorem run_within_plain {s : List Char} (hs : ∀ c ∈ s, d.IsPlain c) :
    run d ⟨State.within w k, o, k, ms⟩ s =
      ⟨State.within ⟨w.start, s.reverse ++ w.read⟩ k, o + byteLength s, k, ms⟩ := by
  induction s generalizing w o with
  | nil => rfl
  | cons c s ih =>
      rw [run_cons, feed_within_plain (hs c List.mem_cons_self),
        ih fun e he => hs e (List.mem_cons_of_mem c he)]
      simp [Word.push, byteLength, Nat.add_assoc]

theorem run_marked_segment (hd : d.Usable) (s : Segment d) :
    run d ⟨State.within w k, o, k, ms⟩ (d.variant :: s.chars) =
      ⟨State.within ⟨w.start, (d.variant :: s.chars).reverse ++ w.read⟩ k,
        o + byteLength (d.variant :: s.chars), k, ms⟩ := by
  obtain ⟨c, cs, hs⟩ := List.exists_cons_of_ne_nil s.nonempty
  have hp := s.plain
  rw [hs] at hp ⊢
  rw [run_cons, feed_within_variant hd, run_cons, feed_marking_plain (hp c List.mem_cons_self),
    run_within_plain fun e he => hp e (List.mem_cons_of_mem c he)]
  simp [Word.push, byteLength, Nat.add_assoc]

theorem run_marked_segments (hd : d.Usable) (ss : List (Segment d)) :
    run d ⟨State.within w k, o, k, ms⟩ (ss.flatMap (d.variant :: ·.chars)) =
      ⟨State.within ⟨w.start, (ss.flatMap (d.variant :: ·.chars)).reverse ++ w.read⟩ k,
        o + byteLength (ss.flatMap (d.variant :: ·.chars)), k, ms⟩ := by
  induction ss generalizing w o with
  | nil => rfl
  | cons s ss ih =>
      rw [List.flatMap_cons, run_append, run_marked_segment hd, ih]
      simp [byteLength, Nat.add_assoc]

theorem intercalate_cons (c : Char) (s : List Char) (ss : List (List Char)) :
    List.intercalate [c] (s :: ss) = s ++ ss.flatMap (c :: ·) := by
  induction ss generalizing s with
  | nil => simp [List.intercalate_singleton]
  | cons t ss ih => rw [List.intercalate_cons_cons, ih]; simp

theorem run_token (hd : d.Usable) (t : Token d) :
    run d ⟨State.fresh k, o, k, ms⟩ t.text =
      ⟨State.within ⟨o, t.text.reverse⟩ k, o + byteLength t.text, k, ms⟩ := by
  obtain ⟨s, ss, hss⟩ := List.exists_cons_of_ne_nil t.nonempty
  obtain ⟨c, cs, hs⟩ := List.exists_cons_of_ne_nil s.nonempty
  have hp := s.plain
  have ht : t.text = c :: (cs ++ ss.flatMap (d.variant :: ·.chars)) := by
    rw [Token.text, hss, List.map_cons, intercalate_cons, hs, List.flatMap_map]
    rfl
  rw [hs] at hp
  rw [ht, run_cons, feed_fresh_plain (hp c List.mem_cons_self), run_append,
    run_within_plain fun e he => hp e (List.mem_cons_of_mem c he), run_marked_segments hd]
  simp [byteLength, Nat.add_assoc]

theorem run_prefixed (hd : d.Usable) (t : Token d) :
    run d ⟨State.fresh k, o, k, ms⟩ t.prefixed =
      ⟨State.marking ⟨o, t.prefixed.reverse⟩ k, o + byteLength t.prefixed, k, ms⟩ := by
  rw [Token.prefixed, run_append, run_token hd, run_cons, run_nil, feed_within_variant hd]
  simp [Word.push, byteLength, Nat.add_assoc]

/-- 冠と開き文字を読むと、その冠の群が積まれる。 -/
theorem run_header (hd : d.Usable) (t : Token d) :
    run d ⟨State.fresh k, o, k, ms⟩ t.header =
      ⟨.itemStart, o + byteLength t.header, ⟨t.prefixed, o, [], []⟩ :: k, ms⟩ := by
  rw [Token.header, run_append, run_prefixed hd, run_cons, run_nil, feed_marking_opening]
  simp [Word.text, byteLength, Nat.add_assoc]

/-! ## 要素 -/

/-- 位置 `o` に書かれた木が閉じたもの。 -/
def Tree.closedAt (o : Nat) (t : Tree d) : Group :=
  ⟨t.lead.prefixed, o, o + byteLength t.head, tokensOf t.elements⟩

def groupsAt (o : Nat) (es : List (Element d)) : List Group :=
  (treesAt o es).map fun p => p.2.closedAt p.1

/-- 位置 `o` から書かれた要素 `es` を、開いた群 `f` に加えたもの。 -/
def gathered (o : Nat) (es : List (Element d)) (f : Frame) : Frame :=
  ⟨f.lead, f.start, f.items ++ tokensOf es, f.children ++ groupsAt o es⟩

/-- 要素を読み終えた機械。 -/
def Element.after (e : Element d) (o : Nat) (f : Frame) (k : List Frame) (ms : List Match) :
    Machine :=
  match e with
  | .token t => ⟨.item ⟨o, t.text.reverse⟩, o + byteLength t.text, f :: k, ms⟩
  | .group t => ⟨.afterGroup, o + byteLength t.render, f.addChild (t.closedAt o) :: k, ms⟩

theorem feed_after_separator (hd : d.Usable) (e : Element d) (f : Frame) :
    feed d (e.after o f k ms) d.separator =
      ⟨.itemStart, o + byteLength (e.render ++ [d.separator]), gathered o [e] f :: k, ms⟩ := by
  cases e with
  | token t =>
      simp [Element.after, feed_item, Element.render, gathered, Frame.addItem, tokensOf, groupsAt,
        treesAt, Word.text, byteLength, Nat.add_assoc]
  | group t =>
      have hcs : d.separator ≠ d.closing := hd.closing_ne_separator.symm
      simp [Element.after, feed_afterGroup, hd.separator_solid, hcs, Element.render, Tree.render,
        gathered, Frame.addChild, tokensOf, groupsAt, treesAt, byteLength, Nat.add_assoc]

theorem feed_after_closing (hd : d.Usable) (e : Element d) (f : Frame) :
    feed d (e.after o f k ms) d.closing =
      closed d (o + byteLength e.render) ms (gathered o [e] f :: k) := by
  cases e with
  | token t =>
      have hcv : d.closing ≠ d.variant := hd.variant_ne_closing.symm
      simp [Element.after, feed_item, hd.closing_ne_separator, hcv, Element.render, gathered,
        Frame.addItem, tokensOf, groupsAt, treesAt, Word.text]
  | group t =>
      simp [Element.after, feed_afterGroup, hd.closing_solid, Element.render, Tree.render,
        gathered, Frame.addChild, tokensOf, groupsAt, treesAt]

/-! ## 木 -/

theorem treesAt_cons (o : Nat) (e : Element d) (es : List (Element d)) :
    treesAt o (e :: es) = treesAt o [e] ++ treesAt (o + byteLength (e.render ++ [d.separator])) es := by
  cases e <;> simp [treesAt, Element.render, Tree.render, byteLength, Nat.add_assoc]

theorem gathered_nil (o : Nat) (f : Frame) : gathered o ([] : List (Element d)) f = f := by
  simp [gathered, tokensOf, groupsAt, treesAt]

theorem gathered_cons (o : Nat) (e : Element d) (es : List (Element d)) (f : Frame) :
    gathered o (e :: es) f =
      gathered (o + byteLength (e.render ++ [d.separator])) es (gathered o [e] f) := by
  have ht : tokensOf (e :: es) = tokensOf [e] ++ tokensOf es := List.filterMap_append (l := [e])
  simp [gathered, groupsAt, treesAt_cons o e es, ht]

/-- 木の群が、すべての要素を加えて閉じるときの形。 -/
def Tree.gathered (o : Nat) (t : Tree d) : Frame :=
  Markup.gathered (o + byteLength t.lead.header) t.elements
    ⟨t.lead.prefixed, o, [], []⟩

mutual
/-- 木を読むと、その群が積みの上で閉じる。 -/
theorem run_tree (hd : d.Usable) {k : List Frame} {ms : List Match} {o : Nat} : (t : Tree d) →
    run d ⟨State.fresh k, o, k, ms⟩ t.render = closed d (o + byteLength t.head) ms (t.gathered o :: k)
  | .node lead first rest => by
      have ht : (Tree.node lead first rest).render =
          lead.header ++ (first.render ++ (renderRest rest ++ [d.closing])) := by
        simp [Tree.render, Tree.head]
      rw [ht, run_append, run_header hd, run_append, run_element hd first, run_rest hd rest]
      simp [Tree.gathered, Tree.head, Tree.lead, Tree.elements, Nat.add_assoc]

theorem run_element (hd : d.Usable) {k : List Frame} {ms : List Match} {o : Nat} {f : Frame} :
    (e : Element d) → run d ⟨.itemStart, o, f :: k, ms⟩ e.render = e.after o f k ms
  | .token t => run_token hd t (k := f :: k)
  | .group t => by
      rw [Element.after, Tree.render, byteLength_append, ← Nat.add_assoc]
      exact run_tree hd t (k := f :: k)

/-- 続きの要素と閉じ文字を読むと、すべての要素を加えた群が閉じる。 -/
theorem run_rest (hd : d.Usable) {k : List Frame} {ms : List Match} {o : Nat} {f : Frame}
    {e : Element d} : (es : List (Element d)) →
    run d (e.after o f k ms) (renderRest es ++ [d.closing]) =
      closed d (o + byteLength (e.render ++ renderRest es)) ms (gathered o (e :: es) f :: k)
  | [] => by
      rw [renderRest, List.append_nil, List.nil_append, run_cons, run_nil, feed_after_closing hd]
  | e' :: es => by
      rw [renderRest, List.cons_append, run_cons, feed_after_separator hd, List.append_assoc,
        run_append, run_element hd e', run_rest hd es, gathered_cons o e (e' :: es)]
      simp [byteLength, Nat.add_assoc]
end

end GroupedVariants.Markup
