import GroupedVariants.Proofs.Scan.Emission

/-!
# 範囲を開いた所

どの群も、変種の文字の直後の開き文字で開かれる。開いた群と閉じた子のそれぞれが、自身の範囲の初めに開いた所を持つ。
-/

namespace GroupedVariants

open Text

/-- 位置 `start` から `lead` が続く。`lead` は変種の文字で終わり、その直後の開き文字は位置 `stop` までに終わる。 -/
inductive Opens (d : Delimiters) (text : List Char) (start stop : Nat) (lead : List Char) : Prop
  | mk (before word after : List Char)
      (source : text = before ++ (word ++ d.variant :: d.opening :: after))
      (starts : byteLength before = start) (leads : lead = word ++ [d.variant])
      (le : byteLength (before ++ (word ++ [d.variant, d.opening])) ≤ stop)

variable {d : Delimiters} {text : List Char}

namespace Opens

variable {lead : List Char} {start stop : Nat}

theorem extend (h : Opens d text start stop lead) (more : List Char) :
    Opens d (text ++ more) start stop lead := by
  obtain ⟨before, word, after, rfl, hstart, hlead, hle⟩ := h
  exact ⟨before, word, after ++ more, by simp, hstart, hlead, hle⟩

theorem mono (h : Opens d text start stop lead) {stop' : Nat} (hle : stop ≤ stop') :
    Opens d text start stop' lead := by
  obtain ⟨before, word, after, htext, hstart, hlead, hstop⟩ := h
  exact ⟨before, word, after, htext, hstart, hlead, Nat.le_trans hstop hle⟩

theorem exists_body {before body after : List Char}
    (h : Opens d (before ++ (body ++ after)) (byteLength before)
      (byteLength before + byteLength body) lead) :
    ∃ word rest, body = word ++ d.variant :: d.opening :: rest := by
  obtain ⟨before', word, after', hsource, hstart, -, hle⟩ := h
  obtain ⟨rfl, hbody⟩ := append_inj_of_byteLength_eq hsource hstart.symm
  have hsplit : (word ++ [d.variant, d.opening]) ++ after' = body ++ after := by simp [hbody]
  have hshort : byteLength (word ++ [d.variant, d.opening]) ≤ byteLength body := by
    rw [byteLength_append] at hle
    omega
  obtain ⟨rest, hrest, -⟩ := exists_append_of_byteLength_le hsplit hshort
  exact ⟨word, rest, by simp [hrest]⟩

end Opens

/-! ## 開いた群 -/

/-- 群も、その閉じた子も、文の中で開かれている。 -/
structure Frame.Opened (d : Delimiters) (text : List Char) (f : Frame) : Prop where
  self : Opens d text f.start (byteLength text) f.lead
  children : ∀ g ∈ f.children, Opens d text g.start g.stop g.lead

namespace Frame.Opened

variable {f parent : Frame}

theorem extend (h : f.Opened d text) (c : Char) : f.Opened d (text ++ [c]) where
  self := (h.self.extend [c]).mono (byteLength_le_snoc text c)
  children g hg := (h.children g hg).extend [c]

theorem addItem (h : f.Opened d text) (item : List Char) : (f.addItem item).Opened d text :=
  ⟨h.self, h.children⟩

theorem addChild (hp : parent.Opened d text) (h : f.Opened d text) :
    (parent.addChild (f.close (byteLength text))).Opened d text where
  self := hp.self
  children g hg := by
    rcases List.mem_append.mp hg with hg | hg
    · exact hp.children g hg
    · obtain rfl := List.mem_singleton.mp hg
      exact h.self

theorem modifyHead {k : List Frame} (h : ∀ f ∈ k, f.Opened d text) (item : List Char) :
    ∀ f ∈ k.modifyHead (·.addItem item), f.Opened d text := by
  cases k with
  | nil => exact h
  | cons f k =>
      obtain ⟨hf, hk⟩ := List.forall_mem_cons.mp h
      exact List.forall_mem_cons.mpr ⟨hf.addItem item, hk⟩

end Frame.Opened

namespace Scan

variable {m : Machine} {w : Word} {k : List Frame} {ms : List Match}

/-! ## 機械の不変条件 -/

/-- 読みかけの語は、文の終わりの部分である。 -/
def Word.Trails (text : List Char) (w : Word) : Prop :=
  ∃ before, text = before ++ w.text ∧ byteLength before = w.start

namespace Word.Trails

theorem fresh (text : List Char) (c : Char) : Trails (text ++ [c]) ⟨byteLength text, [c]⟩ :=
  ⟨text, rfl, rfl⟩

theorem push (h : w.Trails text) (c : Char) : (w.push c).Trails (text ++ [c]) := by
  obtain ⟨before, rfl, hstart⟩ := h
  exact ⟨before, by simp, hstart⟩

theorem opened (h : w.Trails text) (hw : ∃ word, w.text = word ++ [d.variant]) :
    Frame.Opened d (text ++ [d.opening]) ⟨w.text, w.start, [], []⟩ := by
  obtain ⟨before, htext, hstart⟩ := h
  obtain ⟨word, hword⟩ := hw
  have hsource : text ++ [d.opening] = before ++ (word ++ [d.variant, d.opening]) := by
    simp [htext, hword]
  exact ⟨⟨before, word, [], hsource, hstart, hword, Nat.le_of_eq (by rw [hsource])⟩, by simp⟩

end Word.Trails

/-- 変種の文字の直後では、読みかけの語はその文字で終わる。 -/
def State.Trails (d : Delimiters) (text : List Char) : State → Prop
  | .word w | .item w => w.Trails text
  | .variant w | .itemVariant w => w.Trails text ∧ ∃ word, w.text = word ++ [d.variant]
  | .idle | .itemStart | .afterGroup => True

/-- 文 `text` を読み終えた機械の、読みかけの語と開いた群が文の中にある。 -/
structure Anchored (d : Delimiters) (text : List Char) (m : Machine) : Prop where
  offset : m.offset = byteLength text
  trails : m.state.Trails d text
  opened : ∀ f ∈ m.stack, f.Opened d text

namespace Anchored

theorem closed (h : ∀ f ∈ k, f.Opened d text) :
    Anchored d (text ++ [d.closing]) (Machine.closed d (byteLength text) ms k) := by
  have hoffset := byteLength_snoc text d.closing
  cases k with
  | nil => exact ⟨hoffset, trivial, by simp [Machine.closed]⟩
  | cons f k =>
      obtain ⟨hf, hk⟩ := List.forall_mem_cons.mp h
      cases k with
      | nil => exact ⟨hoffset, trivial, by simp [Machine.closed]⟩
      | cons parent k =>
          obtain ⟨hp, hk⟩ := List.forall_mem_cons.mp hk
          -- 閉じた群の終わりは、閉じ文字を読む前の文の終わりである。
          refine ⟨hoffset, trivial, List.forall_mem_cons.mpr ⟨?_, fun g hg => (hk g hg).extend _⟩⟩
          exact (hp.addChild hf).extend d.closing

theorem feed (h : Anchored d text m) (c : Char) : Anchored d (text ++ [c]) (m.feed d c) := by
  obtain ⟨s, o, k, ms⟩ := m
  obtain ⟨rfl, hs, hk⟩ : o = byteLength text ∧ s.Trails d text ∧ ∀ f ∈ k, f.Opened d text :=
    ⟨h.offset, h.trails, h.opened⟩
  have hoffset := byteLength_snoc text c
  have hk' : ∀ f ∈ k, f.Opened d (text ++ [c]) := fun f hf => (hk f hf).extend c
  have hnone : ∀ f ∈ ([] : List Frame), f.Opened d (text ++ [c]) := by simp
  cases s with
  | idle =>
      rw [Machine.feed_idle]
      split
      · exact ⟨hoffset, trivial, hk'⟩
      · exact ⟨hoffset, .fresh text c, hk'⟩
  | word w =>
      rw [Machine.feed_word]
      split
      next hv => exact ⟨hoffset, ⟨hs.push c, w.text, by rw [Word.text_push, hv]⟩, hk'⟩
      next =>
        split
        · exact ⟨hoffset, trivial, hk'⟩
        · exact ⟨hoffset, hs.push c, hk'⟩
  | variant w =>
      rw [Machine.feed_variant]
      split
      next hc =>
        subst hc
        exact ⟨hoffset, trivial, List.forall_mem_cons.mpr ⟨hs.1.opened hs.2, hk'⟩⟩
      next =>
        split
        · exact ⟨hoffset, trivial, hk'⟩
        · exact ⟨hoffset, hs.1.push c, hk'⟩
  | itemStart =>
      rw [Machine.feed_itemStart]
      split
      · exact ⟨hoffset, trivial, hnone⟩
      · exact ⟨hoffset, .fresh text c, hk'⟩
  | item w =>
      rw [Machine.feed_item]
      split
      next => exact ⟨hoffset, trivial, .modifyHead hk' w.text⟩
      split
      next hv => exact ⟨hoffset, ⟨hs.push c, w.text, by rw [Word.text_push, hv]⟩, hk'⟩
      next =>
        split
        next hc =>
          subst hc
          exact closed (.modifyHead hk w.text)
        next => exact ⟨hoffset, hs.push c, hk'⟩
  | itemVariant w =>
      rw [Machine.feed_itemVariant]
      split
      next hc =>
        subst hc
        exact ⟨hoffset, trivial, List.forall_mem_cons.mpr ⟨hs.1.opened hs.2, hk'⟩⟩
      next =>
        split
        · exact ⟨hoffset, trivial, hnone⟩
        · exact ⟨hoffset, hs.1.push c, hk'⟩
  | afterGroup =>
      rw [Machine.feed_afterGroup]
      split
      next => exact ⟨hoffset, trivial, hnone⟩
      split
      next hc =>
        subst hc
        exact closed hk
      next =>
        split
        · exact ⟨hoffset, trivial, hk'⟩
        · exact ⟨hoffset, trivial, hnone⟩

theorem run (h : Anchored d text m) (s : List Char) : Anchored d (text ++ s) (m.run d s) := by
  induction s generalizing text m with
  | nil => simpa using h
  | cons c s ih => simpa using ih (h.feed c)

theorem start : Anchored d [] .start := ⟨rfl, trivial, by simp [Machine.start]⟩

theorem opened_finishItem (h : Anchored d text m) : ∀ f ∈ m.finishItem, f.Opened d text := by
  have hk := h.opened
  rw [Machine.finishItem]
  split
  next w f k _ hstack =>
      rw [hstack] at hk
      exact .modifyHead hk w.text
  next => exact hk

end Anchored

end Scan

/-! ## 見つかる範囲 -/

theorem prefix_intercalate (separator word : List Char) (words : List (List Char)) :
    word <+: separator.intercalate (word :: words) := by
  cases words with
  | nil => simp [List.intercalate_singleton]
  | cons word' words =>
      rw [List.intercalate_cons_cons, List.append_assoc]
      exact List.prefix_append _ _

theorem Group.content_toMatch (g : Group) :
    g.toMatch.content = [] ∨ g.lead <+: g.toMatch.content := by
  rw [toMatch, words]
  cases g.items with
  | nil => exact .inl rfl
  | cons item items =>
      exact .inr ((List.prefix_append g.lead item).trans (prefix_intercalate _ _ _))

/-- 範囲は群の開いた所から始まり、展開は空か、その冠から始まる。 -/
def Match.Opened (d : Delimiters) (text : List Char) (m : Match) : Prop :=
  ∃ lead, Opens d text m.start m.stop lead ∧ (m.content = [] ∨ lead <+: m.content)

namespace Delimiters

open Scan

variable {c : Char} {x : Match}

theorem opened_of_mem_emitted (h : x ∈ (Machine.start.run d text).emitted d c) :
    x.Opened d text := by
  have ha : Anchored d text (Machine.start.run d text) := Anchored.start.run text
  rw [Machine.emitted] at h
  split at h
  next f _ hf =>
      obtain rfl := List.mem_singleton.mp h
      have hopened := ha.opened_finishItem f (by rw [hf]; exact List.mem_singleton_self f)
      refine ⟨f.lead, ?_, Group.content_toMatch _⟩
      have hself := hopened.self
      rw [← ha.offset] at hself
      exact hself
  next =>
      obtain ⟨f, hf, g, hg, rfl⟩ := mem_salvage.mp h
      exact ⟨g.lead, (ha.opened f hf).children g hg, g.content_toMatch⟩
  next => cases h

theorem opened_of_mem_findMatches (h : x ∈ d.findMatches text) : x.Opened d text := by
  rw [← List.nil_append text, findMatches_append_eq] at h
  obtain ⟨u, c, v, rfl, hx⟩ := Machine.exists_of_mem_emissions h
  obtain ⟨lead, hopens, hcontent⟩ := opened_of_mem_emitted hx
  exact ⟨lead, hopens.extend (c :: v), hcontent⟩

end Delimiters

end GroupedVariants
