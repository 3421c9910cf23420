import GroupedVariants.Proofs.Markup.Reading
import GroupedVariants.Proofs.Splice

/-!
# 木を並べた文の展開

文は、群を開かない地の文と木とを交互に並べたものである。
-/

namespace GroupedVariants.Markup

open Scan Scan.Machine Text

variable {d : Delimiters} {o : Nat} {ms : List Match}

/-- 変種の文字の直後に開き文字が来る所がない。 -/
def Inert (d : Delimiters) (text : List Char) : Prop := ¬ [d.variant, d.opening] <:+: text

/-- 木と、その前の地の文。地の文は空か、語を切る文字で終わる。 -/
structure Piece (d : Delimiters) where
  gap : List Char
  inert : Inert d gap
  settled : ∀ c ∈ gap.getLast?, isBreaking c
  tree : Tree d

structure Document (d : Delimiters) where
  pieces : List (Piece d)
  tail : List Char
  inert : Inert d tail

def Piece.text (p : Piece d) : List Char := p.gap ++ p.tree.render

namespace Document

def text (doc : Document d) : List Char := doc.pieces.flatMap Piece.text ++ doc.tail

/-- 木をそれぞれの展開で置き換えた文。 -/
def expanded (doc : Document d) : List Char :=
  doc.pieces.flatMap (fun p => p.gap ++ p.tree.expansion) ++ doc.tail

end Document

/-- 位置 `o` から並ぶ木の範囲。初めのバイトから、最後の閉じ文字の初めのバイトまで。 -/
def matchesFrom (o : Nat) : List (Piece d) → List Match
  | [] => []
  | p :: ps =>
    let start := o + byteLength p.gap
    ⟨start, start + byteLength p.tree.head, p.tree.expansion⟩ ::
      matchesFrom (o + byteLength p.text) ps

/-! ## 地の文 -/

theorem Inert.tail {c : Char} {s : List Char} (h : Inert d (c :: s)) : Inert d s :=
  fun hs => h (List.infix_cons hs)

theorem Inert.head?_ne {s : List Char} (h : Inert d (d.variant :: s)) :
    s.head? ≠ some d.opening := by
  intro hs
  obtain ⟨t, rfl⟩ := List.head?_eq_some_iff.mp hs
  exact h (List.IsPrefix.isInfix ⟨t, rfl⟩)

/-- 群の外では、変種の文字の直後の開き文字のほかに群を開くものはない。 -/
theorem feed_outside (hd : d.Usable) (o : Nat) (ms : List Match) {s : State}
    (hs : s.inGroup = false) (c : Char) (hc : ∀ w, s = .variant w → c ≠ d.opening) :
    ∃ s' : State, feed d ⟨s, o, [], ms⟩ c = ⟨s', o + c.utf8Size, [], ms⟩ ∧ s'.inGroup = false ∧
      (isBreaking c → s' = .idle) ∧ ∀ w, s' = .variant w → c = d.variant := by
  cases s with
  | idle =>
      rw [feed_idle]
      refine ⟨_, rfl, ?_⟩
      cases hb : isBreaking c <;> simp [State.inGroup]
  | word w =>
      rw [feed_word]
      refine ⟨_, rfl, ?_⟩
      by_cases hv : c = d.variant
      · simp [hv, hd.variant_solid, State.inGroup]
      · cases hb : isBreaking c <;> simp [hv, State.inGroup]
  | variant w =>
      rw [feed_variant, if_neg (hc w rfl)]
      refine ⟨_, rfl, ?_⟩
      cases hb : isBreaking c <;> simp [State.inGroup]
  | itemStart | item _ | itemVariant _ | afterGroup => cases hs

/-- 地の文を読んでも群は開かず、語を切る文字で終われば語の間に戻る。 -/
theorem run_outside (hd : d.Usable) (o : Nat) (ms : List Match) {s : State}
    (hs : s.inGroup = false) {gap : List Char} (hi : Inert d gap)
    (hc : ∀ w, s = .variant w → gap.head? ≠ some d.opening) :
    ∃ s' : State, run d ⟨s, o, [], ms⟩ gap = ⟨s', o + byteLength gap, [], ms⟩ ∧
      s'.inGroup = false ∧ ∀ c ∈ gap.getLast?, isBreaking c → s' = .idle := by
  induction gap generalizing o s with
  | nil => exact ⟨s, rfl, hs, by simp⟩
  | cons c gap ih =>
      obtain ⟨s₁, hfeed, hs₁, hidle, hmark⟩ :=
        feed_outside hd o ms hs c fun w hw he => hc w hw (by simp [he])
      obtain ⟨s₂, hrun, hs₂, hlast⟩ := ih (o + c.utf8Size) hs₁ hi.tail fun w hw => by
        rw [hmark w hw] at hi
        exact hi.head?_ne
      refine ⟨s₂, ?_, hs₂, ?_⟩
      · rw [run_cons, hfeed, hrun, byteLength, Nat.add_assoc]
      · cases gap with
        | nil =>
            have h₂ : s₂ = s₁ := (congrArg Machine.state hrun).symm
            rw [h₂]
            simpa using hidle
        | cons e gap => rwa [List.getLast?_cons_cons]

theorem run_gap (hd : d.Usable) (p : Piece d) :
    run d ⟨.idle, o, [], ms⟩ p.gap = ⟨.idle, o + byteLength p.gap, [], ms⟩ := by
  obtain ⟨s, hrun, -, hlast⟩ :=
    run_outside hd o ms (s := .idle) rfl p.inert (by simp)
  cases hg : p.gap.getLast? with
  | none =>
      rw [List.getLast?_eq_none_iff.mp hg]
      rfl
  | some c => rw [hrun, hlast c hg (p.settled c hg)]

/-! ## 木 -/

theorem flatMap_words_groupsAt (o : Nat) (es : List (Element d)) :
    (groupsAt o es).flatMap Group.words = (treesOf es).flatMap Tree.ownWords := by
  rw [groupsAt, ← map_snd_treesAt o es, List.flatMap_map, List.flatMap_map]
  rfl

/-- 一番外の群として閉じた木の展開。 -/
theorem toMatch_flatten_gathered (t : Tree d) :
    ((t.gathered o).flatten (o + byteLength t.head)).toMatch =
      ⟨o, o + byteLength t.head, t.expansion⟩ := by
  simp only [Tree.gathered, gathered, Frame.flatten, Group.toMatch, Group.words, List.nil_append,
    flatMap_words_groupsAt, List.map_append, List.map_flatMap]
  rfl

theorem run_piece (hd : d.Usable) (p : Piece d) :
    run d ⟨.idle, o, [], ms⟩ p.text =
      ⟨.idle, o + byteLength p.text, [], ms ++ matchesFrom o [p]⟩ := by
  have ht : run d ⟨.idle, o + byteLength p.gap, [], ms⟩ p.tree.render = _ :=
    run_tree hd (k := []) p.tree
  rw [closed, toMatch_flatten_gathered] at ht
  rw [Piece.text, run_append, run_gap hd p, ht]
  simp [matchesFrom, Tree.render, Nat.add_assoc]

theorem run_pieces (hd : d.Usable) (ps : List (Piece d)) :
    run d ⟨.idle, o, [], ms⟩ (ps.flatMap Piece.text) =
      ⟨.idle, o + byteLength (ps.flatMap Piece.text), [], ms ++ matchesFrom o ps⟩ := by
  induction ps generalizing o ms with
  | nil => simp [matchesFrom, byteLength]
  | cons p ps ih =>
      rw [List.flatMap_cons, run_append, run_piece hd, ih]
      simp [matchesFrom, Nat.add_assoc]

theorem splice_pieces (ps : List (Piece d)) (tail : List Char) :
    splice d.closing (matchesFrom o ps) o (ps.flatMap Piece.text ++ tail) =
      ps.flatMap (fun p => p.gap ++ p.tree.expansion) ++ tail := by
  induction ps generalizing o with
  | nil => rfl
  | cons p ps ih =>
      have htext : (p :: ps).flatMap Piece.text ++ tail =
          p.gap ++ (p.tree.head ++ d.closing :: (ps.flatMap Piece.text ++ tail)) := by
        simp [Piece.text, Tree.render]
      have hnext : o + byteLength p.gap + byteLength p.tree.head + d.closing.utf8Size =
          o + byteLength p.text := by
        simp only [Piece.text, Tree.render, byteLength_append, byteLength_singleton]
        omega
      rw [htext, matchesFrom, splice_cons p.gap p.tree.head _ rfl rfl]
      dsimp only
      rw [hnext, ih]
      simp

theorem length_matchesFrom (ps : List (Piece d)) : (matchesFrom o ps).length = ps.length := by
  induction ps generalizing o with
  | nil => rfl
  | cons p ps ih => exact congrArg (· + 1) ih

theorem found_document (hd : d.Usable) (doc : Document d) :
    d.findMatches doc.text = matchesFrom 0 doc.pieces := by
  have hrun : run d ⟨.idle, 0, [], []⟩ (doc.pieces.flatMap Piece.text) = _ :=
    run_pieces hd doc.pieces
  obtain ⟨s, htail, -, -⟩ :=
    run_outside hd (0 + byteLength (doc.pieces.flatMap Piece.text))
      ([] ++ matchesFrom 0 doc.pieces) (s := .idle) rfl doc.inert (by simp)
  calc d.findMatches doc.text
      = (run d (run d ⟨.idle, 0, [], []⟩ (doc.pieces.flatMap Piece.text)) doc.tail).found := by
        rw [Delimiters.findMatches, Document.text, run_append]
        rfl
    _ = matchesFrom 0 doc.pieces := by rw [hrun, htail, List.nil_append]

theorem expand_text (t : Transformer) (doc : Document t.delimiters) :
    t.expand doc.text = doc.expanded := by
  rw [t.expand_eq_splice, Transformer.findMatches, found_document (.of_check t.checked)]
  exact splice_pieces doc.pieces doc.tail

end GroupedVariants.Markup

namespace GroupedVariants

/-- 地の文と木を並べた文では、ちょうど木の数だけの範囲が木の綴りを占め、書き換えは木を展開で置き換える。 -/
theorem Transformer.findMatches_document (t : Transformer) (doc : Markup.Document t.delimiters) :
    t.findMatches doc.text = Markup.matchesFrom 0 doc.pieces ∧
      (t.findMatches doc.text).length = doc.pieces.length ∧
      t.expand doc.text = doc.expanded := by
  have hfound : t.findMatches doc.text = Markup.matchesFrom 0 doc.pieces :=
    Markup.found_document (.of_check t.checked) doc
  refine ⟨hfound, ?_, Markup.expand_text t doc⟩
  rw [hfound, Markup.length_matchesFrom]

/-- 孫の語は展開に残らない。 -/
example :
    let word (c : Char) (h : Delimiters.IsPlain {} c) : Markup.Token {} :=
      ⟨[⟨[c], List.cons_ne_nil c [], by simpa using h⟩], List.cons_ne_nil _ []⟩
    let inner : Markup.Tree {} := .node (word 'c' (by decide)) (.token (word 'd' (by decide))) []
    let middle : Markup.Tree {} :=
      .node (word 'b' (by decide)) (.group inner) [.token (word 'e' (by decide))]
    let outer : Markup.Tree {} :=
      .node (word 'a' (by decide)) (.group middle) [.token (word 'f' (by decide))]
    String.ofList outer.render = "a:(b:(c:(d),e),f)" ∧
      String.ofList (Transformer.default.expand outer.render) = "a:f a:b:e" := by
  decide

end GroupedVariants
