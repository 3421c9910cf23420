import GroupedVariants.Proofs.Locality
import GroupedVariants.Proofs.Markup.Idempotence
import GroupedVariants.Proofs.Markup.Recovery
import GroupedVariants.Proofs.Text.Numeral
import GroupedVariants.Sample.Markup

/-!
# 計測に使う文書の展開

入れ子の文書は一つの木であり、平らな文書は行ごとに一つの木を持つ。項目のない平らな行では群が壊れる。
-/

namespace GroupedVariants.Sample

open Markup Scan Scan.Machine Text

theorem usable_default : Delimiters.Usable {} := .of_check Transformer.default.checked

theorem findMatches_document_default (doc : Document {}) :
    Transformer.default.findMatches doc.text = matchesFrom 0 doc.pieces :=
  found_document usable_default doc

theorem expand_document_default (doc : Document {}) :
    Transformer.default.expand doc.text = doc.expanded :=
  expand_text Transformer.default doc

/-! ## 番号の付いた語 -/

theorem isPlain_of_isDigit {c : Char} (h : isDigit c = true) : Delimiters.IsPlain {} c := by
  have hall : ∀ n < 10, Delimiters.IsPlain {} (digit n) := by decide
  obtain ⟨n, hn, rfl⟩ := exists_eq_digit h
  exact hall n hn

def numbered (stem : Segment {}) (n : Nat) : Token {} where
  segments := [{
    chars := stem.chars ++ decimal n
    nonempty := List.append_ne_nil_of_left_ne_nil stem.nonempty _
    plain := fun c hc => (List.mem_append.mp hc).elim (stem.plain c) fun hc =>
      isPlain_of_isDigit (isDigit_of_mem_decimal n c hc) }]
  nonempty := List.cons_ne_nil _ _

theorem text_numbered (stem : Segment {}) (n : Nat) :
    (numbered stem n).text = stem.chars ++ decimal n :=
  List.intercalate_singleton

theorem prefixed_numbered (stem : Segment {}) (n : Nat) :
    (numbered stem n).prefixed = stem.chars ++ decimal n ++ [':'] := by
  rw [Token.prefixed, text_numbered]

def segment (chars : List Char) (nonempty : chars ≠ [])
    (plain : chars.all (Delimiters.IsPlain {} ·) = true) : Segment {} :=
  ⟨chars, nonempty, fun c hc => of_decide_eq_true (List.all_eq_true.mp plain c hc)⟩

@[simp] theorem chars_segment (chars : List Char) (nonempty : chars ≠ [])
    (plain : chars.all (Delimiters.IsPlain {} ·) = true) :
    (segment chars nonempty plain).chars = chars := rfl

/-! ## 入れ子の文書 -/

def levelStem : Segment {} := segment ['v'] (by decide) (by decide)

def entryStem : Segment {} := segment ['a', '-'] (by decide) (by decide)

def leaf : Token {} where
  segments := [segment "leaf".toList (by decide) (by decide)]
  nonempty := List.cons_ne_nil _ _

/-- `i` 番から始まる `n + 1` 重の群。 -/
def nestedTree (i : Nat) : (n : Nat) → Markup.Tree {}
  | 0 => .node (numbered levelStem i) (.token (numbered entryStem i)) [.token leaf]
  | n + 1 =>
    .node (numbered levelStem i) (.token (numbered entryStem i)) [.group (nestedTree (i + 1) n)]

theorem head_node_nested (i : Nat) (e : Element {}) :
    (Markup.Tree.node (numbered levelStem i) (.token (numbered entryStem i)) [e]).head =
      nestedOpening i ++ e.render := by
  simp [Tree.head, Token.header, Element.render, renderRest, prefixed_numbered, text_numbered,
    nestedOpening, levelStem, entryStem]

theorem render_nestedTree (i n : Nat) :
    (nestedTree i n).render =
      (List.range' i (n + 1)).flatMap nestedOpening ++ "leaf".toList ++
        List.replicate (n + 1) ')' := by
  induction n generalizing i with
  | zero =>
      rw [nestedTree, Tree.render, head_node_nested, List.range'_one, List.flatMap_singleton]
      rfl
  | succ n ih =>
      have hrender : (nestedTree i (n + 1)).render =
          nestedOpening i ++ (nestedTree (i + 1) n).render ++ [')'] := by
        rw [nestedTree, Tree.render, head_node_nested]
        rfl
      rw [hrender, ih, List.range'_succ (s := i), List.flatMap_cons,
        List.replicate_succ' (n := n + 1)]
      simp only [List.append_assoc]

theorem inert_of_openings {text : List Char} (h : Delimiters.openings {} text = 0) :
    Inert {} text :=
  (inert_iff_openings text).mpr h

def nestedDocument (n : Nat) : Document {} where
  pieces := [⟨[], inert_of_openings rfl, by simp, nestedTree 0 n⟩]
  tail := []
  inert := inert_of_openings rfl

theorem text_nestedDocument (n : Nat) : (nestedDocument n).text = nestedMarkup (n + 1) := by
  rw [nestedMarkup, List.range_eq_range', ← render_nestedTree]
  simp [nestedDocument, Document.text, Piece.text]

/-- 三重目からの語は残らない。 -/
def nestedExpansion : (depth : Nat) → String
  | 0 => "leaf"
  | 1 => "v0:a-0 v0:leaf"
  | 2 => "v0:a-0 v0:v1:a-1 v0:v1:leaf"
  | _ + 3 => "v0:a-0 v0:v1:a-1"

theorem ownWords_nestedTree_zero (i : Nat) :
    (nestedTree i 0).ownWords =
      ['v' :: decimal i ++ ":a-".toList ++ decimal i, 'v' :: decimal i ++ ":leaf".toList] := by
  have hleaf : leaf.text = ['l', 'e', 'a', 'f'] := rfl
  simp [nestedTree, Tree.ownWords, tokensOf, Tree.elements, Tree.lead, prefixed_numbered,
    text_numbered, levelStem, entryStem, hleaf]

theorem ownWords_nestedTree_succ (i n : Nat) :
    (nestedTree i (n + 1)).ownWords = ['v' :: decimal i ++ ":a-".toList ++ decimal i] := by
  simp [nestedTree, Tree.ownWords, tokensOf, Tree.elements, Tree.lead, prefixed_numbered,
    text_numbered, levelStem, entryStem]

theorem words_nestedTree_succ (i n : Nat) :
    (nestedTree i (n + 1)).words =
      (nestedTree i (n + 1)).ownWords ++
        (nestedTree (i + 1) n).ownWords.map ('v' :: decimal i ++ [':'] ++ ·) := by
  simp [nestedTree, Tree.words, treesOf, Tree.elements, Tree.lead, prefixed_numbered, levelStem]

theorem expansion_nestedTree (n : Nat) :
    (nestedTree 0 n).expansion = (nestedExpansion (n + 1)).toList := by
  have h0 : decimal 0 = ['0'] := decimal_of_lt (by decide)
  have h1 : decimal 1 = ['1'] := decimal_of_lt (by decide)
  cases n with
  | zero =>
      have hwords : (nestedTree 0 0).words = (nestedTree 0 0).ownWords := List.append_nil _
      rw [Tree.expansion, hwords, ownWords_nestedTree_zero, h0]
      rfl
  | succ n =>
      rw [Tree.expansion, words_nestedTree_succ, ownWords_nestedTree_succ, h0]
      cases n with
      | zero =>
          rw [ownWords_nestedTree_zero, h1]
          rfl
      | succ n =>
          rw [ownWords_nestedTree_succ, h1, nestedExpansion]
          rfl

/-! ## 項目だけの群 -/

section Flat

variable {d : Delimiters}

def flatTree (lead first : Token d) (rest : List (Token d)) : Markup.Tree d :=
  .node lead (.token first) (rest.map .token)

theorem renderRest_map_token (ts : List (Token d)) :
    renderRest (ts.map .token) = (ts.map Token.text).flatMap (d.separator :: ·) := by
  induction ts with
  | nil => rfl
  | cons t ts ih =>
      rw [List.map_cons, renderRest, ih]
      rfl

theorem head_flatTree (lead first : Token d) (rest : List (Token d)) :
    (flatTree lead first rest).head =
      lead.header ++ List.intercalate [d.separator] ((first :: rest).map Token.text) := by
  rw [flatTree, Tree.head, Element.render, renderRest_map_token, List.map_cons, intercalate_cons]

theorem tokensOf_map_token (ts : List (Token d)) : tokensOf (ts.map .token) = ts.map Token.text := by
  induction ts with
  | nil => rfl
  | cons t ts ih => exact congrArg (t.text :: ·) ih

theorem treesOf_map_token (ts : List (Token d)) : treesOf (ts.map .token) = [] := by
  induction ts with
  | nil => rfl
  | cons t ts ih => exact ih

theorem expansion_flatTree (lead first : Token d) (rest : List (Token d)) :
    (flatTree lead first rest).expansion =
      List.intercalate [' '] ((first :: rest).map (lead.prefixed ++ ·.text)) := by
  have helements : (flatTree lead first rest).elements = (first :: rest).map .token := rfl
  rw [Tree.expansion, Tree.words, Tree.ownWords, helements, tokensOf_map_token, treesOf_map_token,
    List.map_map, List.flatMap_nil, List.append_nil]
  rfl

end Flat

/-! ## 平らな文書 -/

def breakpointStem : Segment {} := segment ['m', 'd'] (by decide) (by decide)

def itemStem : Segment {} := segment ['p', '-'] (by decide) (by decide)

/-- `k` 番の行の、`n + 1` 個の項目の群。 -/
def lineTree (k n : Nat) : Markup.Tree {} :=
  flatTree (numbered breakpointStem (k % 5)) (numbered itemStem 0)
    ((List.range n).map fun i => numbered itemStem (i + 1))

def lineStart : List Char := "<div class=\"flex items-center ".toList

def lineEnd : List Char := " text-sm\">\n".toList

theorem cons_map_numbered {α : Type} (f : Token {} → α) (n : Nat) :
    (numbered itemStem 0 :: (List.range n).map fun i => numbered itemStem (i + 1)).map f =
      (List.range (n + 1)).map fun i => f (numbered itemStem i) := by
  simp [List.range_succ_eq_map]

theorem flatLine_eq (k n : Nat) :
    flatLine k n =
      lineStart ++ ((numbered breakpointStem (k % 5)).header ++
        (List.intercalate [','] (items n) ++ ')' :: lineEnd)) := by
  have hstart : "<div class=\"flex items-center md".toList = lineStart ++ ['m', 'd'] := by decide
  have hend : ") text-sm\">\n".toList = ')' :: lineEnd := by decide
  have hheader : (numbered breakpointStem (k % 5)).header =
      ['m', 'd'] ++ (decimal (k % 5) ++ ":(".toList) := by
    rw [Token.header, prefixed_numbered]
    simp only [List.append_assoc]
    rfl
  calc flatLine k n
      = (lineStart ++ ['m', 'd']) ++ decimal (k % 5) ++ ":(".toList ++
          List.intercalate [','] (items n) ++ ')' :: lineEnd :=
        congr (congrArg (fun s e => s ++ decimal (k % 5) ++ ":(".toList ++
          List.intercalate [','] (items n) ++ e) hstart) hend
    _ = _ := by
        rw [hheader]
        simp only [List.append_assoc]

theorem flatLine_succ (k n : Nat) :
    flatLine k (n + 1) = lineStart ++ ((lineTree k n).render ++ lineEnd) := by
  have hitems : (List.range (n + 1)).map (fun i => (numbered itemStem i).text) = items (n + 1) :=
    List.map_congr_left fun i _ => text_numbered itemStem i
  rw [flatLine_eq, Tree.render, lineTree, head_flatTree, cons_map_numbered, hitems]
  simp only [List.append_assoc]
  rfl

/-- `n` 個の項目の行が展開されたもの。 -/
def expandedLine (k n : Nat) : List Char :=
  lineStart ++
    List.intercalate [' ']
      ((List.range n).map fun i => "md".toList ++ decimal (k % 5) ++ ":p-".toList ++ decimal i) ++
    lineEnd

theorem expandedLine_succ (k n : Nat) :
    expandedLine k (n + 1) = lineStart ++ ((lineTree k n).expansion ++ lineEnd) := by
  have hword (i : Nat) : (numbered breakpointStem (k % 5)).prefixed ++ (numbered itemStem i).text =
      "md".toList ++ decimal (k % 5) ++ ":p-".toList ++ decimal i := by
    rw [prefixed_numbered, text_numbered]
    simp only [List.append_assoc]
    rfl
  rw [lineTree, expansion_flatTree, cons_map_numbered, expandedLine, List.append_assoc]
  simp only [hword]

/-! ## 行を並べた文書 -/

/-- 二行目からの群の前には、前の行の終わりもある。 -/
def linePiece (k n : Nat) : Piece {} where
  gap := lineEnd ++ lineStart
  inert := inert_of_openings (by decide)
  settled := (Option.all_eq_true _ _).mp (by decide)
  tree := lineTree k n

/-- 項目が `n + 1` 個の行を `groups + 1` 行。 -/
def flatDocument (groups n : Nat) : Document {} where
  pieces :=
    ⟨lineStart, inert_of_openings (by decide), (Option.all_eq_true _ _).mp (by decide), lineTree 0 n⟩ ::
      (List.range groups).map fun k => linePiece (k + 1) n
  tail := lineEnd
  inert := inert_of_openings (by decide)

/-- 行の並びは、行の終わりを次の行の頭に移しても同じである。 -/
theorem flatMap_rotate {α : Type} (start finish : List Char) (f : α → List Char) (l : List α) :
    finish ++ l.flatMap (fun a => start ++ (f a ++ finish)) =
      l.flatMap (fun a => finish ++ start ++ f a) ++ finish := by
  induction l with
  | nil => simp
  | cons a l ih =>
      rw [List.flatMap_cons, List.flatMap_cons, List.append_assoc _ _ finish, ← ih]
      simp only [List.append_assoc]

theorem flatMap_range_succ_rotate (start finish : List Char) (f : Nat → List Char) (n : Nat) :
    (List.range (n + 1)).flatMap (fun k => start ++ (f k ++ finish)) =
      start ++ f 0 ++ (List.range n).flatMap (fun k => finish ++ start ++ f (k + 1)) ++ finish := by
  rw [List.range_succ_eq_map, List.flatMap_cons, List.flatMap_map, List.append_assoc _ _ finish,
    ← flatMap_rotate]
  simp only [List.append_assoc]

theorem text_flatDocument (groups n : Nat) :
    (flatDocument groups n).text = flatMarkup (groups + 1) (n + 1) := by
  simp only [flatMarkup, flatLine_succ]
  rw [flatMap_range_succ_rotate, Document.text, flatDocument, List.flatMap_cons, List.flatMap_map]
  rfl

theorem expanded_flatDocument (groups n : Nat) :
    (flatDocument groups n).expanded = (List.range (groups + 1)).flatMap (expandedLine · (n + 1)) := by
  simp only [expandedLine_succ]
  rw [flatMap_range_succ_rotate, Document.expanded, flatDocument, List.flatMap_cons,
    List.flatMap_map]
  rfl

/-! ## 項目のない行 -/

def emptyGroup (k : Nat) : Spine {} := ⟨[⟨numbered breakpointStem (k % 5), []⟩], List.cons_ne_nil _ _⟩

def closeAtStart : Break {} := .atStart ')' (.inr rfl)

theorem flatLine_zero (k : Nat) :
    flatLine k 0 = lineStart ++ ((emptyGroup k).text ++ closeAtStart.text ++ lineEnd) := by
  rw [flatLine_eq]
  simp [emptyGroup, closeAtStart, Spine.text, Level.text, Break.text, items]

theorem findMatches_append_eq_nil {a b : List Char}
    (h : (start.run {} a).state = .idle ∧ Delimiters.findMatches {} a = [])
    (hb : Delimiters.findMatches {} b = []) : Delimiters.findMatches {} (a ++ b) = [] := by
  rw [Delimiters.findMatches_append b h.1, h.2, hb]
  rfl

/-- 項目のない群は閉じ文字で壊れ、その先は改めて走査される。 -/
theorem findMatches_flatLine_zero_append (k : Nat) {rest : List Char}
    (h : Delimiters.findMatches {} rest = []) :
    Delimiters.findMatches {} (flatLine k 0 ++ rest) = [] := by
  have hafter : Delimiters.findMatches {} (lineEnd ++ rest) = [] :=
    findMatches_append_eq_nil (by decide) h
  have hgroup : Delimiters.findMatches {}
      ((emptyGroup k).text ++ closeAtStart.text ++ (lineEnd ++ rest)) = [] := by
    rw [found_recover usable_default, hafter]
    rfl
  rw [flatLine_zero, List.append_assoc, List.append_assoc _ lineEnd]
  exact findMatches_append_eq_nil (by decide) hgroup

theorem findMatches_flatMarkup_zero (groups : Nat) :
    Delimiters.findMatches {} (flatMarkup groups 0) = [] := by
  rw [flatMarkup]
  induction List.range groups with
  | nil => rfl
  | cons k ks ih => exact findMatches_flatLine_zero_append k ih

/-! ## 二つの文書の展開 -/

/-- 入れ子の文書は全体が一つの範囲であり、その展開には二重目までの語だけが残る。 -/
theorem expand_nestedMarkup (depth : Nat) :
    Transformer.default.expand (nestedMarkup depth) = (nestedExpansion depth).toList ∧
      ∃ before, nestedMarkup (depth + 1) = before ++ [')'] ∧
        Transformer.default.findMatches (nestedMarkup (depth + 1)) =
          [⟨0, byteLength before, (nestedExpansion (depth + 1)).toList⟩] := by
  refine ⟨?_, (nestedTree 0 depth).head, ?_, ?_⟩
  · cases depth with
    | zero => decide
    | succ n =>
        rw [← text_nestedDocument, expand_document_default,
          ← expansion_nestedTree]
        simp [nestedDocument, Document.expanded]
  · rw [← text_nestedDocument]
    simp [nestedDocument, Document.text, Piece.text, Tree.render]
  · rw [← text_nestedDocument, findMatches_document_default]
    simp [nestedDocument, matchesFrom, expansion_nestedTree, byteLength]

/-- 平らな文書は行ごとに展開され、群の数だけの範囲が見つかる。項目のない群は字のまま残る。 -/
theorem expand_flatMarkup (groups n : Nat) :
    Transformer.default.expand (flatMarkup groups (n + 1)) =
        (List.range groups).flatMap (expandedLine · (n + 1)) ∧
      (Transformer.default.findMatches (flatMarkup groups (n + 1))).length = groups ∧
      Transformer.default.findMatches (flatMarkup groups 0) = [] ∧
      Transformer.default.rewrite? (flatMarkup groups 0) = none ∧
      Transformer.default.expand (flatMarkup groups 0) = flatMarkup groups 0 := by
  have hempty := findMatches_flatMarkup_zero groups
  refine ⟨?_, ?_, hempty, Transformer.default.unchanged_of_findMatches_eq_nil hempty⟩
  · cases groups with
    | zero => rfl
    | succ groups =>
        rw [← text_flatDocument, expand_document_default,
          expanded_flatDocument]
  · cases groups with
    | zero => rfl
    | succ groups =>
        rw [← text_flatDocument, findMatches_document_default,
          length_matchesFrom]
        simp [flatDocument]

end GroupedVariants.Sample
