import GroupedVariants.Proofs.Scan.Layout

/-!
# 範囲はいつ見つかるか

範囲は、文字を読んだときにだけ、見つけた並びの終わりに加わる。一度加わった範囲は、先の文が何であっても変わらない。
-/

namespace GroupedVariants

open Text

namespace Scan

variable {d : Delimiters} {m : Machine} {c : Char} {x : Match}

theorem eq_closing_of_action {s : State} (h : action d s c = .close) : c = d.closing := by
  cases s <;> grind [action]

namespace Machine

/-- 文字 `c` を読んで新しく見つかる範囲。 -/
def emitted (d : Delimiters) (m : Machine) (c : Char) : List Match :=
  match action d m.state c, m.finishItem with
  | .close, [f] => [(f.flatten m.offset).toMatch]
  | .abandon, _ => salvage m.stack
  | _, _ => []

def emissions (d : Delimiters) (m : Machine) : List Char → List Match
  | [] => []
  | c :: s => m.emitted d c ++ emissions d (m.feed d c) s

theorem found_feed (d : Delimiters) (m : Machine) (c : Char) :
    (m.feed d c).found = m.found ++ m.emitted d c := by
  rw [feed, advance, emitted]
  cases action d m.state c with
  | close =>
      rw [perform, close]
      rcases m.finishItem with _ | ⟨f, _ | ⟨g, k⟩⟩ <;> simp
  | leave | begin | extend | mark | enter | separate => exact (List.append_nil _).symm
  | abandon => rfl

theorem found_run (d : Delimiters) (m : Machine) (s : List Char) :
    (m.run d s).found = m.found ++ m.emissions d s := by
  induction s generalizing m with
  | nil => exact (List.append_nil _).symm
  | cons c s ih => rw [run_cons, ih, found_feed, List.append_assoc, emissions]

theorem exists_of_mem_emissions {s : List Char} (h : x ∈ m.emissions d s) :
    ∃ u c v, s = u ++ c :: v ∧ x ∈ (m.run d u).emitted d c := by
  induction s generalizing m with
  | nil => cases h
  | cons c s ih =>
      rcases List.mem_append.mp h with hc | hs
      · exact ⟨[], c, s, rfl, hc⟩
      · obtain ⟨u, e, v, rfl, he⟩ := ih hs
        exact ⟨c :: u, e, v, rfl, he⟩

theorem finishItem_eq_singleton {f : Frame} (h : m.finishItem = [f]) :
    ∃ f', m.stack = [f'] ∧ f.start = f'.start := by
  rw [finishItem] at h
  split at h
  · rename_i w f' k _ hk
    obtain ⟨rfl, rfl⟩ := List.cons.inj h
    exact ⟨f', hk, rfl⟩
  · exact ⟨f, h, rfl⟩

end Machine

theorem mem_salvage {k : List Frame} :
    x ∈ salvage k ↔ ∃ f ∈ k, ∃ g ∈ f.children, g.toMatch = x := by
  simp only [salvage, List.mem_map, List.mem_flatMap, List.mem_reverse]
  constructor
  · rintro ⟨g, ⟨f, hf, hg⟩, hx⟩
    exact ⟨f, hf, g, hg, hx⟩
  · rintro ⟨f, hf, g, hg, hx⟩
    exact ⟨g, ⟨f, hf, hg⟩, hx⟩

/-- 文 `text` の次に文字 `c` を読んで、範囲 `x` が見つかるわけ。 -/
inductive Resolves (d : Delimiters) (text : List Char) (c : Char) (x : Match) : Prop
  /-- 一番外の群が閉じる。 -/
  | closing (f : Frame) (hk : (Machine.start.run d text).stack = [f]) (hc : c = d.closing)
      (hstart : x.start = f.start) (hstop : x.stop = byteLength text)
  /-- 開いた群が壊れて、閉じた子が残る。 -/
  | breaking (f : Frame) (g : Group)
      (ha : action d (Machine.start.run d text).state c = .abandon)
      (hf : f ∈ (Machine.start.run d text).stack) (hg : g ∈ f.children) (hx : g.toMatch = x)

theorem Sound.offset_eq {text : List Char} (h : Sound d text m) : m.offset = byteLength text := by
  cases h <;> rfl

theorem resolves_of_mem_emitted {text : List Char}
    (h : x ∈ (Machine.start.run d text).emitted d c) : Resolves d text c x := by
  rw [Machine.emitted] at h
  split at h
  · rename_i f ha hf
    obtain ⟨f', hk, hstart⟩ := Machine.finishItem_eq_singleton hf
    obtain rfl := List.mem_singleton.mp h
    exact .closing f' hk (eq_closing_of_action ha) hstart (Sound.start.run text).offset_eq
  · rename_i ha
    obtain ⟨f, hf, g, hg, hx⟩ := mem_salvage.mp h
    exact .breaking f g ha hf hg hx
  · cases h

end Scan

namespace Delimiters

variable {d : Delimiters} {s t : List Char} {c : Char} {x : Match}

theorem findMatches_append_eq (d : Delimiters) (s t : List Char) :
    d.findMatches (s ++ t) =
      d.findMatches s ++ (Scan.Machine.start.run d s).emissions d t := by
  rw [findMatches, Scan.Machine.run_append, Scan.Machine.found_run]
  rfl

theorem findMatches_prefix (d : Delimiters) (h : s <+: t) :
    d.findMatches s <+: d.findMatches t := by
  obtain ⟨u, rfl⟩ := h
  rw [findMatches_append_eq]
  exact List.prefix_append _ _

theorem findMatches_snoc (d : Delimiters) (s : List Char) (c : Char) :
    d.findMatches (s ++ [c]) =
      d.findMatches s ++ (Scan.Machine.start.run d s).emitted d c := by
  rw [findMatches_append_eq, Scan.Machine.emissions, Scan.Machine.emissions, List.append_nil]

theorem stop_lt_byteLength (h : x ∈ d.findMatches s) : x.stop < byteLength s := by
  have hle := ((d.laid_findMatches s).placed x h).2.stops.add_le
  have hpos := d.closing.utf8Size_pos
  omega

/-- 新しく見つかる範囲は、それまでに見つかったどの範囲とも違う。 -/
theorem not_mem_findMatches_of_emitted (h : x ∈ (Scan.Machine.start.run d s).emitted d c) :
    x ∉ d.findMatches s := by
  intro hx
  have hl := d.laid_findMatches (s ++ [c])
  rw [findMatches_snoc] at hl
  -- 新しい範囲は、前に見つかった範囲がすべて閉じた後で始まる。
  have hapart := (List.pairwise_append.mp hl.pairwise).2.2 x hx x h
  have hlt := (hl.placed x (List.mem_append_left _ hx)).2.lt
  omega

end Delimiters

/-- 文を延ばしても見つけた範囲は変わらず、新しい範囲は、延ばした文字のどれかを読んだときに見つかる。 -/
theorem Transformer.findMatches_append_prefix (t : Transformer) (p q : List Char) :
    ∃ later, t.findMatches (p ++ q) = t.findMatches p ++ later ∧
      ∀ x ∈ later, ∃ q₁ c q₂, q = q₁ ++ c :: q₂ ∧
        Scan.Resolves t.delimiters (p ++ q₁) c x ∧
        x ∈ t.findMatches (p ++ q₁ ++ [c]) ∧
        (∀ s, s <+: p ++ q₁ → x ∉ t.findMatches s) ∧
        x.stop < byteLength (p ++ q₁ ++ [c]) := by
  refine ⟨_, t.delimiters.findMatches_append_eq p q, fun x hx => ?_⟩
  obtain ⟨q₁, c, q₂, hq, hc⟩ := Scan.Machine.exists_of_mem_emissions hx
  rw [← Scan.Machine.run_append] at hc
  have hmem : x ∈ t.findMatches (p ++ q₁ ++ [c]) := by
    rw [findMatches, Delimiters.findMatches_snoc]
    exact List.mem_append_right _ hc
  refine ⟨q₁, c, q₂, hq, Scan.resolves_of_mem_emitted hc, hmem, fun s hs hxs => ?_,
    Delimiters.stop_lt_byteLength hmem⟩
  exact Delimiters.not_mem_findMatches_of_emitted hc
    ((t.delimiters.findMatches_prefix hs).subset hxs)

/-- 閉じた子は、外の群が壊れるまで待つ。 -/
example :
    Transformer.default.findMatches "a:(b:(c)".toList = [] ∧
      Transformer.default.findMatches "a:(b:(c) ".toList = [⟨3, 7, "b:c".toList⟩] := by
  decide

end GroupedVariants
