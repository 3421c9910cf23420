import GroupedVariants.Proofs.Markup.Reading
import GroupedVariants.Proofs.Scan.Shift
import GroupedVariants.Proofs.Text.Bytes

/-!
# 壊れた群からの復帰

開いた群の連なりの一番内で文が壊れると、どの群についても、閉じた子だけが展開される。走査は壊した文字の次から
新しく始まる。
-/

namespace GroupedVariants.Markup

open Scan Scan.Machine Text

variable {d : Delimiters} {o : Nat} {k : List Frame} {ms : List Match} {f : Frame}

/-! ## 壊れた文 -/

/-- 開いた群と、そこまでに閉じた要素。要素のそれぞれの後に区切りがある。 -/
structure Level (d : Delimiters) where
  lead : Token d
  finished : List (Element d)

/-- 開いた群の連なり。外の群から並ぶ。 -/
structure Spine (d : Delimiters) where
  levels : List (Level d)
  nonempty : levels ≠ []

/-- 一番内の群の壊れ方。 -/
inductive Break (d : Delimiters) where
  /-- 要素の頭に、語を切る文字か閉じ文字が来る。 -/
  | atStart (c : Char) (h : isBreaking c = true ∨ c = d.closing)
  /-- 群の直後に、区切りでも閉じ文字でもない文字が来る。 -/
  | afterTree (t : Tree d) (c : Char) (hs : c ≠ d.separator) (hc : c ≠ d.closing)
  /-- 語と変種の文字の直後に、語を切る文字が来る。 -/
  | afterToken (t : Token d) (c : Char) (h : isBreaking c = true)

def Level.text (l : Level d) : List Char :=
  l.lead.header ++ l.finished.flatMap (fun e => e.render ++ [d.separator])

def Spine.text (s : Spine d) : List Char := s.levels.flatMap Level.text

/-- 壊した文字までの綴り。 -/
def Break.text : Break d → List Char
  | .atStart c _ => [c]
  | .afterTree t c _ _ => t.render ++ [c]
  | .afterToken t c _ => t.prefixed ++ [c]

/-! ## 残る展開 -/

/-- 位置 `o` の木が、自身の語だけで展開されたもの。 -/
def Tree.alone (o : Nat) (t : Tree d) : Match :=
  ⟨o, o + byteLength t.head, List.intercalate [' '] t.ownWords⟩

def Level.rescued (o : Nat) (l : Level d) : List Match :=
  (treesAt (o + byteLength l.lead.header) l.finished).map fun p => p.2.alone p.1

/-- 位置 `o` から並ぶ群の、じかに置かれた閉じた子の展開。 -/
def rescuedFrom (o : Nat) : List (Level d) → List Match
  | [] => []
  | l :: ls => l.rescued o ++ rescuedFrom (o + byteLength l.text) ls

def Spine.rescued (s : Spine d) : List Match := rescuedFrom 0 s.levels

def Break.rescued (o : Nat) : Break d → List Match
  | .atStart _ _ => []
  | .afterTree t _ _ _ => [t.alone o]
  | .afterToken _ _ _ => []

/-! ## 開いた群の連なりを読む -/

theorem run_finished (hd : d.Usable) (es : List (Element d)) :
    run d ⟨.itemStart, o, f :: k, ms⟩ (es.flatMap fun e => e.render ++ [d.separator]) =
      ⟨.itemStart, o + byteLength (es.flatMap fun e => e.render ++ [d.separator]),
        gathered o es f :: k, ms⟩ := by
  induction es generalizing o f with
  | nil => rw [gathered_nil]; rfl
  | cons e es ih =>
      rw [List.flatMap_cons, run_append, run_append, run_element hd, run_cons, run_nil,
        feed_after_separator hd, ih, gathered_cons o e es, byteLength_append _ (es.flatMap _),
        Nat.add_assoc]

/-- 閉じた要素を加えた、開いたままの群。 -/
def Level.frame (o : Nat) (l : Level d) : Frame :=
  gathered (o + byteLength l.lead.header) l.finished ⟨l.lead.prefixed, o, [], []⟩

theorem run_level (hd : d.Usable) (l : Level d) :
    run d ⟨.fresh k, o, k, ms⟩ l.text =
      ⟨.itemStart, o + byteLength l.text, l.frame o :: k, ms⟩ := by
  rw [Level.text, run_append, run_header hd, run_finished hd, byteLength_append, ← Nat.add_assoc]
  rfl

theorem Level.toMatch_children (l : Level d) :
    (l.frame o).children.map Group.toMatch = l.rescued o := by
  have h : (l.frame o).children = groupsAt (o + byteLength l.lead.header) l.finished :=
    List.nil_append _
  rw [h, groupsAt, List.map_map]
  rfl

/-- 位置 `o` から並ぶ群を、積み `k` の上に積んだもの。 -/
def stackFrom (o : Nat) (k : List Frame) : List (Level d) → List Frame
  | [] => k
  | l :: ls => stackFrom (o + byteLength l.text) (l.frame o :: k) ls

theorem run_levels (hd : d.Usable) (ls : List (Level d)) :
    run d ⟨.fresh k, o, k, ms⟩ (ls.flatMap Level.text) =
      ⟨.fresh (stackFrom o k ls), o + byteLength (ls.flatMap Level.text), stackFrom o k ls, ms⟩ := by
  induction ls generalizing o k with
  | nil => rfl
  | cons l ls ih =>
      have h := ih (k := l.frame o :: k) (o := o + byteLength l.text)
      rw [List.flatMap_cons, run_append, run_level hd, stackFrom, byteLength_append,
        ← Nat.add_assoc]
      exact h

theorem salvage_stackFrom (ls : List (Level d)) :
    salvage (stackFrom o k ls) = salvage k ++ rescuedFrom o ls := by
  induction ls generalizing o k with
  | nil => exact (List.append_nil _).symm
  | cons l ls ih =>
      rw [stackFrom, ih, salvage_cons, Level.toMatch_children, rescuedFrom, List.append_assoc]

theorem stackFrom_ne_nil (ls : List (Level d)) (h : ls ≠ [] ∨ k ≠ []) : stackFrom o k ls ≠ [] := by
  induction ls generalizing o k with
  | nil => exact h.resolve_left (· rfl)
  | cons l ls ih => exact ih (.inr (List.cons_ne_nil _ _))

/-! ## 壊れるところを読む -/

theorem run_break (hd : d.Usable) (b : Break d) :
    run d ⟨.itemStart, o, f :: k, ms⟩ b.text =
      ⟨.idle, o + byteLength b.text, [], ms ++ salvage (f :: k) ++ b.rescued o⟩ := by
  cases b with
  | atStart c h =>
      have hc : (isBreaking c || c = d.closing) = true := by simpa using h
      rw [Break.text, run_cons, run_nil, feed_itemStart, if_pos hc]
      simp [Break.rescued]
  | afterTree t c hs hc =>
      have ht : run d ⟨.itemStart, o, f :: k, ms⟩ t.render = _ := run_tree hd (k := f :: k) t
      have hg : ((t.gathered o).close (o + byteLength t.head)).toMatch = t.alone o := rfl
      rw [Break.text, run_append, ht, closed, run_cons, run_nil, feed_afterGroup, if_neg hc,
        if_neg hs, ite_self]
      simp [Break.rescued, Tree.render, Frame.addChild, hg, byteLength, Nat.add_assoc]
  | afterToken t c h =>
      have ht : run d ⟨.itemStart, o, f :: k, ms⟩ t.prefixed = _ := run_prefixed hd (k := f :: k) t
      have ho : c ≠ d.opening := by
        rintro rfl
        exact absurd h (by simp [hd.opening_solid])
      rw [Break.text, run_append, ht, State.marking, run_cons, run_nil, feed_itemVariant, if_neg ho,
        if_pos h]
      simp [Break.rescued, Nat.add_assoc]

theorem found_recover (hd : d.Usable) (s : Spine d) (b : Break d) (rest : List Char) :
    d.findMatches (s.text ++ b.text ++ rest) =
      s.rescued ++ b.rescued (byteLength s.text) ++
        (d.findMatches rest).map (Match.shift (byteLength (s.text ++ b.text))) := by
  have hspine : run d ⟨.idle, 0, [], []⟩ s.text =
      ⟨.fresh (stackFrom 0 [] s.levels), 0 + byteLength s.text, stackFrom 0 [] s.levels, []⟩ :=
    run_levels hd (k := []) s.levels
  have hrescued : salvage (stackFrom 0 [] s.levels) = s.rescued := salvage_stackFrom s.levels
  obtain ⟨f, k, hk⟩ :=
    List.exists_cons_of_ne_nil (stackFrom_ne_nil (o := 0) (k := []) s.levels (.inl s.nonempty))
  rw [hk, Nat.zero_add] at hspine
  rw [hk] at hrescued
  calc d.findMatches (s.text ++ b.text ++ rest)
      = (run d (run d (run d ⟨.idle, 0, [], []⟩ s.text) b.text) rest).found := by
        rw [Delimiters.findMatches, run_append, run_append]
        rfl
    _ = (run d ⟨.idle, byteLength (s.text ++ b.text), [],
          s.rescued ++ b.rescued (byteLength s.text)⟩ rest).found := by
        rw [hspine, State.fresh, run_break hd, List.nil_append, hrescued, byteLength_append]
    _ = _ := found_run_idle d _ _ rest

end GroupedVariants.Markup

namespace GroupedVariants

/-- 壊れた群からは閉じた子だけが外の群のものから順に残り、その先の文は改めて走査される。 -/
theorem Transformer.findMatches_recover (t : Transformer) (s : Markup.Spine t.delimiters)
    (b : Markup.Break t.delimiters) (rest : List Char) :
    t.findMatches (s.text ++ b.text ++ rest) =
      s.rescued ++ b.rescued (Text.byteLength s.text) ++
        (t.findMatches rest).map (Match.shift (Text.byteLength (s.text ++ b.text))) :=
  Markup.found_recover (.of_check t.checked) s b rest

end GroupedVariants
