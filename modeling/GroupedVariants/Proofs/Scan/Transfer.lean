import GroupedVariants.Proofs.Scan.Step
import GroupedVariants.Proofs.Splice

/-!
# 文字と位置を移しても、機械の動きは変わらない

役の文字を役の文字に移す置き換えと、それに合わせた位置の移り先とを、機械の全体に及ぼす。一文字を読むことと
移すことは入れ替えられる。読み始める位置をずらすのは、文字を変えない場合である。
-/

namespace GroupedVariants

open Text

/-- 文字の置き換えと、それに伴う位置の移り先。 -/
structure Transfer where
  char : Char → Char
  offset : Nat → Nat

namespace Transfer

/-- 位置 `o` から文 `s` を読む間、移り先は移した文の長さの分だけ進む。 -/
def Follows (φ : Transfer) (o : Nat) (s : List Char) : Prop :=
  ∀ u v, s = u ++ v → φ.offset (o + byteLength u) = φ.offset o + byteLength (u.map φ.char)

namespace Follows

variable {φ : Transfer} {o : Nat} {c : Char} {s t : List Char}

theorem head (h : φ.Follows o (c :: s)) :
    φ.offset (o + c.utf8Size) = φ.offset o + (φ.char c).utf8Size := by
  simpa [byteLength] using h [c] s rfl

theorem left (h : φ.Follows o (s ++ t)) :
    φ.offset (o + byteLength s) = φ.offset o + byteLength (s.map φ.char) :=
  h s t rfl

theorem right (h : φ.Follows o (s ++ t)) : φ.Follows (o + byteLength s) t := by
  intro u v ht
  have hu := h (s ++ u) v (by rw [ht, List.append_assoc])
  rw [h.left, Nat.add_assoc, ← byteLength_append, hu, List.map_append, byteLength_append,
    Nat.add_assoc]

theorem tail (h : φ.Follows o (c :: s)) : φ.Follows (o + c.utf8Size) s := by
  have hs := right (s := [c]) h
  rwa [byteLength, byteLength, Nat.add_zero] at hs

end Follows

end Transfer

/-- 役の文字だけがその役の文字に移り、空白と、語を切るかどうかは変わらない。 -/
structure Delimiters.Renamed (d d' : Delimiters) (r : Char → Char) : Prop where
  role : ∀ p c, c = d.get p ↔ r c = d'.get p
  breaking : ∀ c, isBreaking (r c) = isBreaking c
  space : r ' ' = ' '

namespace Delimiters.Renamed

variable {d d' : Delimiters} {r : Char → Char}

theorem refl (d : Delimiters) : d.Renamed d id := ⟨fun _ _ => Iff.rfl, fun _ => rfl, rfl⟩

variable (h : d.Renamed d' r)
include h

theorem eq_variant (c : Char) : r c = d'.variant ↔ c = d.variant := (h.role .variant c).symm

theorem eq_opening (c : Char) : r c = d'.opening ↔ c = d.opening := (h.role .opening c).symm

theorem eq_closing (c : Char) : r c = d'.closing ↔ c = d.closing := (h.role .closing c).symm

theorem eq_separator (c : Char) : r c = d'.separator ↔ c = d.separator := (h.role .separator c).symm

theorem map_closing : r d.closing = d'.closing := (h.eq_closing _).mpr rfl

end Delimiters.Renamed

/-! ## 群と範囲 -/

def Match.transfer (φ : Transfer) (m : Match) : Match :=
  ⟨φ.offset m.start, φ.offset m.stop, m.content.map φ.char⟩

def Group.transfer (φ : Transfer) (g : Group) : Group :=
  ⟨g.lead.map φ.char, φ.offset g.start, φ.offset g.stop, g.items.map (·.map φ.char)⟩

def Frame.transfer (φ : Transfer) (f : Frame) : Frame :=
  ⟨f.lead.map φ.char, φ.offset f.start, f.items.map (·.map φ.char),
    f.children.map (Group.transfer φ)⟩

theorem map_intercalate (r : Char → Char) (sep : List Char) (l : List (List Char)) :
    (List.intercalate sep l).map r = List.intercalate (sep.map r) (l.map (·.map r)) := by
  induction l with
  | nil => rfl
  | cons s l ih =>
      cases l with
      | nil => simp [List.intercalate_singleton]
      | cons t l =>
          rw [List.intercalate_cons_cons, List.map_append, ih]
          simp [List.intercalate_cons_cons]

namespace Group

variable {φ : Transfer}

theorem words_transfer (g : Group) : (g.transfer φ).words = g.words.map (·.map φ.char) := by
  simp [words, transfer]

theorem toMatch_transfer (h : φ.char ' ' = ' ') (g : Group) :
    (g.transfer φ).toMatch = g.toMatch.transfer φ := by
  simp [toMatch, Match.transfer, words_transfer, map_intercalate, h]
  simp [transfer]

end Group

namespace Frame

variable {φ : Transfer} {f : Frame}

theorem addItem_transfer (item : List Char) :
    (f.addItem item).transfer φ = (f.transfer φ).addItem (item.map φ.char) := by
  simp [transfer, addItem]

theorem addChild_transfer (g : Group) :
    (f.addChild g).transfer φ = (f.transfer φ).addChild (g.transfer φ) := by
  simp [transfer, addChild]

theorem close_transfer (stop : Nat) :
    (f.close stop).transfer φ = (f.transfer φ).close (φ.offset stop) := rfl

theorem flatten_transfer (stop : Nat) :
    (f.flatten stop).transfer φ = (f.transfer φ).flatten (φ.offset stop) := by
  have hwords : (f.children.map (Group.transfer φ)).flatMap Group.words =
      (f.children.flatMap Group.words).map (·.map φ.char) := by
    simp [List.flatMap_map, List.map_flatMap, Group.words_transfer]
  rw [transfer, flatten, flatten, Group.transfer, hwords, List.map_append]

end Frame

namespace Scan

variable {d d' : Delimiters} {φ : Transfer} {ms : List Match}

/-! ## 機械 -/

def Word.transfer (φ : Transfer) (w : Word) : Word := ⟨φ.offset w.start, w.read.map φ.char⟩

def State.transfer (φ : Transfer) : State → State
  | .idle => .idle
  | .word w => .word (w.transfer φ)
  | .variant w => .variant (w.transfer φ)
  | .itemStart => .itemStart
  | .item w => .item (w.transfer φ)
  | .itemVariant w => .itemVariant (w.transfer φ)
  | .afterGroup => .afterGroup

theorem Word.text_transfer (w : Word) : (w.transfer φ).text = w.text.map φ.char :=
  List.map_reverse.symm

theorem salvage_transfer (h : φ.char ' ' = ' ') (k : List Frame) :
    salvage (k.map (Frame.transfer φ)) = (salvage k).map (Match.transfer φ) := by
  induction k with
  | nil => rfl
  | cons f k ih => simp [ih, Frame.transfer, Group.toMatch_transfer h]

namespace Machine

/-- 文字と位置を移し、その前に `ms` が見つかっていたことにした機械。 -/
def transfer (φ : Transfer) (ms : List Match) (m : Machine) : Machine :=
  ⟨m.state.transfer φ, φ.offset m.offset, m.stack.map (Frame.transfer φ),
    ms ++ m.found.map (Match.transfer φ)⟩

theorem transfer_modifyHead (s : List Char) (k : List Frame) :
    (k.map (Frame.transfer φ)).modifyHead (·.addItem (s.map φ.char)) =
      (k.modifyHead (·.addItem s)).map (Frame.transfer φ) := by
  cases k with
  | nil => rfl
  | cons f k => simp [Frame.addItem_transfer]

theorem closed_transfer (hs : φ.char ' ' = ' ') {stop : Nat}
    (ho : φ.offset (stop + d.closing.utf8Size) = φ.offset stop + d'.closing.utf8Size)
    (found : List Match) (k : List Frame) :
    (closed d stop found k).transfer φ ms =
      closed d' (φ.offset stop) (ms ++ found.map (Match.transfer φ)) (k.map (Frame.transfer φ)) := by
  rcases k with _ | ⟨f, _ | ⟨g, k⟩⟩ <;>
    simp [closed, transfer, State.transfer, ho, ← Group.toMatch_transfer hs, Frame.flatten_transfer,
      Frame.addChild_transfer, Frame.close_transfer]

theorem feed_transfer (h : d.Renamed d' φ.char) (m : Machine) (c : Char)
    (ho : φ.offset (m.offset + c.utf8Size) = φ.offset m.offset + (φ.char c).utf8Size) :
    (m.transfer φ ms).feed d' (φ.char c) = (m.feed d c).transfer φ ms := by
  obtain ⟨s, o, k, found⟩ := m
  dsimp only at ho
  have habandon : ms ++ found.map (Match.transfer φ) ++ salvage (k.map (Frame.transfer φ)) =
      ms ++ (found ++ salvage k).map (Match.transfer φ) := by simp [salvage_transfer h.space]
  have hclosing : d'.closing.utf8Size = (φ.char d.closing).utf8Size := by rw [h.map_closing]
  rw [transfer]
  dsimp only
  -- 移す前の文字についての条件は、移した文字についても同じに決まる。場合分けは両辺で一度に進む。
  cases s with
  | idle =>
      rw [State.transfer, feed_idle, feed_idle, ← ho, h.breaking]
      cases isBreaking c <;> rfl
  | word w =>
      rw [State.transfer, feed_word, feed_word, ← ho, h.breaking]
      simp only [h.eq_variant]
      split
      · rfl
      cases isBreaking c <;> rfl
  | variant w =>
      rw [State.transfer, feed_variant, feed_variant, ← ho, h.breaking]
      simp only [h.eq_opening]
      split
      · simp [transfer, State.transfer, Frame.transfer, Word.text_transfer]
        rfl
      cases isBreaking c <;> rfl
  | itemStart =>
      rw [State.transfer, feed_itemStart, feed_itemStart, ← ho, habandon, h.breaking]
      simp only [h.eq_closing]
      split <;> rfl
  | item w =>
      rw [State.transfer, feed_item, feed_item, ← ho, Word.text_transfer, transfer_modifyHead]
      simp only [h.eq_separator, h.eq_variant, h.eq_closing]
      split
      · rfl
      split
      · rfl
      split
      · rename_i hc
        subst hc
        exact (closed_transfer h.space (by rw [ho, hclosing]) found _).symm
      · rfl
  | itemVariant w =>
      rw [State.transfer, feed_itemVariant, feed_itemVariant, ← ho, habandon, h.breaking]
      simp only [h.eq_opening]
      split
      · simp [transfer, State.transfer, Frame.transfer, Word.text_transfer]
        rfl
      split <;> rfl
  | afterGroup =>
      rw [State.transfer, feed_afterGroup, feed_afterGroup, ← ho, habandon, h.breaking]
      simp only [h.eq_closing, h.eq_separator]
      split
      · rfl
      split
      · rename_i hc
        subst hc
        exact (closed_transfer h.space (by rw [ho, hclosing]) found k).symm
      split <;> rfl

theorem run_transfer (h : d.Renamed d' φ.char) {m : Machine} {s : List Char}
    (ho : φ.Follows m.offset s) :
    (m.transfer φ ms).run d' (s.map φ.char) = (m.run d s).transfer φ ms := by
  induction s generalizing m with
  | nil => rfl
  | cons c s ih =>
      have htail : φ.Follows (m.feed d c).offset s := by simpa using ho.tail
      rw [List.map_cons, run_cons, run_cons, feed_transfer h m c ho.head, ih htail]

end Machine

end Scan

/-! ## 嵌め込み -/

namespace Spans

variable {d d' : Delimiters} {φ : Transfer} {cursor : Nat} {ms : List Match} {rest : List Char}

theorem transfer (hd : d.Renamed d' φ.char) (h : Spans d.closing cursor ms rest)
    (ho : φ.Follows cursor rest) :
    Spans d'.closing (φ.offset cursor) (ms.map (Match.transfer φ)) (rest.map φ.char) ∧
      splice d'.closing (ms.map (Match.transfer φ)) (φ.offset cursor) (rest.map φ.char) =
        (splice d.closing ms cursor rest).map φ.char := by
  induction h with
  | nil cursor rest => exact ⟨.nil _ _, rfl⟩
  | @cons cursor m ms gap body rest hstart hstop _ ih =>
      have hgap := ho.left
      have hbody := ho.right.left
      have hclose := ho.right.right.head
      rw [← hstart] at hgap hbody hclose
      rw [← hstop] at hbody hclose
      rw [hd.map_closing] at hclose
      have htail := ho.right.right.tail
      rw [← hstart, ← hstop] at htail
      obtain ⟨hspans, hsplice⟩ := ih htail
      rw [hclose] at hspans hsplice
      simp only [List.map_append, List.map_cons, hd.map_closing]
      refine ⟨.cons _ _ _ hgap hbody hspans, ?_⟩
      rw [splice_cons (m := m.transfer φ) _ _ _ hgap hbody, splice_cons gap body rest hstart hstop]
      simp only [List.map_append, ← hsplice]
      rfl

end Spans

end GroupedVariants
