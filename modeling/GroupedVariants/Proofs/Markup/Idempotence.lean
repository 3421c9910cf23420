import GroupedVariants.Proofs.Counting
import GroupedVariants.Proofs.Markup.Document

/-!
# 展開した文は、もう一度展開しても変わらない

木の展開は開き文字を含まず、変種の文字で終わらない。木の前の地の文も変種の文字で終わらない。展開と地の文をどうつないでも、
つなぎ目で群は開かない。
-/

namespace GroupedVariants.Markup

open Text

variable {d : Delimiters} {s t : List Char}

theorem inert_iff_openings (text : List Char) : Inert d text ↔ d.openings text = 0 :=
  Delimiters.openings_eq_zero_iff.symm

/-! ## つなぎ目で群を開かない綴り -/

/-- 群を開かず、後に何が続いてもつなぎ目で群を開かない。 -/
structure Sealed (d : Delimiters) (s : List Char) : Prop where
  inert : Inert d s
  last : s.getLast? ≠ some d.variant

namespace Sealed

theorem nil : Sealed d [] := ⟨(inert_iff_openings []).mpr rfl, by simp⟩

theorem append_inert (hs : Sealed d s) (ht : Inert d t) : Inert d (s ++ t) := by
  rw [inert_iff_openings] at ht ⊢
  rw [Delimiters.openings_append, (inert_iff_openings s).mp hs.inert, ht,
    if_neg fun h => hs.last h.1]

theorem append (hs : Sealed d s) (ht : Sealed d t) : Sealed d (s ++ t) := by
  refine ⟨hs.append_inert ht.inert, ?_⟩
  have hlast := ht.last
  rw [List.getLast?_append]
  cases h : t.getLast? with
  | none => exact hs.last
  | some c => rwa [h] at hlast

theorem flatMap {α : Type} {f : α → List Char} {l : List α} (h : ∀ a ∈ l, Sealed d (f a)) :
    Sealed d (l.flatMap f) := by
  induction l with
  | nil => exact nil
  | cons a l ih =>
      obtain ⟨ha, hl⟩ := List.forall_mem_cons.mp h
      exact ha.append (ih hl)

theorem intercalate {separator : List Char} {words : List (List Char)}
    (hs : Sealed d separator) (h : ∀ w ∈ words, Sealed d w) :
    Sealed d (separator.intercalate words) := by
  induction words with
  | nil => exact nil
  | cons w words ih =>
      obtain ⟨hw, hwords⟩ := List.forall_mem_cons.mp h
      cases words with
      | nil => rwa [List.intercalate_singleton]
      | cons w' words =>
          rw [List.intercalate_cons_cons]
          exact (hw.append hs).append (ih hwords)

end Sealed

/-- 開き文字を含まず、変種の文字でない文字で終わる。 -/
structure Bare (d : Delimiters) (s : List Char) : Prop where
  opening : d.opening ∉ s
  last : ∃ c ∈ s.getLast?, c ≠ d.variant

namespace Bare

theorem isSealed (h : Bare d s) : Sealed d s := by
  refine ⟨fun hs => h.opening (hs.subset (by simp)), fun hlast => ?_⟩
  obtain ⟨c, hc, hne⟩ := h.last
  exact hne (Option.some.inj (hc.symm.trans hlast))

theorem prepend (hs : d.opening ∉ s) (ht : Bare d t) : Bare d (s ++ t) := by
  refine ⟨by simp [hs, ht.opening], ?_⟩
  obtain ⟨c, hc, hne⟩ := ht.last
  exact ⟨c, by rw [List.getLast?_append, hc]; rfl, hne⟩

end Bare

/-! ## 語 -/

theorem Segment.bare (s : Segment d) : Bare d s.chars := by
  refine ⟨fun h => (s.plain _ h).2 .opening rfl, ?_⟩
  refine ⟨s.chars.getLast s.nonempty, List.getLast?_eq_some_getLast s.nonempty, ?_⟩
  exact (s.plain _ (List.getLast_mem s.nonempty)).2 .variant

theorem bare_intercalate (hd : d.Usable) {segments : List (Segment d)} (h : segments ≠ []) :
    Bare d (List.intercalate [d.variant] (segments.map (·.chars))) := by
  induction segments with
  | nil => exact absurd rfl h
  | cons s segments ih =>
      cases segments with
      | nil =>
          rw [List.map_singleton, List.intercalate_singleton]
          exact s.bare
      | cons s' segments =>
          have hopening : d.opening ∉ s.chars ++ [d.variant] := by
            simp [s.bare.opening, hd.variant_ne_opening.symm]
          rw [List.map_cons, List.map_cons, List.intercalate_cons_cons]
          exact .prepend hopening (ih (List.cons_ne_nil _ _))

theorem Token.bare (hd : d.Usable) (t : Token d) : Bare d t.text :=
  bare_intercalate hd t.nonempty

theorem Token.opening_not_mem_prefixed (hd : d.Usable) (t : Token d) : d.opening ∉ t.prefixed := by
  simp [prefixed, (t.bare hd).opening, hd.variant_ne_opening.symm]

/-! ## 展開 -/

theorem bare_of_mem_ownWords (hd : d.Usable) {t : Tree d} {w : List Char} (h : w ∈ t.ownWords) :
    Bare d w := by
  obtain ⟨item, hitem, rfl⟩ := List.mem_map.mp h
  obtain ⟨e, -, he⟩ := List.mem_filterMap.mp hitem
  cases e with
  | token token =>
      obtain rfl := Option.some.inj he
      exact .prepend (t.lead.opening_not_mem_prefixed hd) (token.bare hd)
  | group child => cases he

theorem bare_of_mem_words (hd : d.Usable) {t : Tree d} {w : List Char} (h : w ∈ t.words) :
    Bare d w := by
  rcases List.mem_append.mp h with h | h
  · exact bare_of_mem_ownWords hd h
  · obtain ⟨child, -, h⟩ := List.mem_flatMap.mp h
    obtain ⟨word, hword, rfl⟩ := List.mem_map.mp h
    exact .prepend (t.lead.opening_not_mem_prefixed hd) (bare_of_mem_ownWords hd hword)

theorem getLast?_ne_variant (hd : d.Usable) (h : ∀ c ∈ s.getLast?, isBreaking c) :
    s.getLast? ≠ some d.variant := fun hlast => by
  simpa [hd.variant_solid] using h _ hlast

theorem Tree.sealed_expansion (hd : d.Usable) (t : Tree d) : Sealed d t.expansion := by
  have hbreaking : isBreaking ' ' = true := by decide
  have hspace : Sealed d [' '] :=
    ⟨(inert_iff_openings [' ']).mpr rfl, getLast?_ne_variant hd (by simpa using hbreaking)⟩
  exact hspace.intercalate fun w hw => (bare_of_mem_words hd hw).isSealed

theorem Document.inert_expanded (hd : d.Usable) (doc : Document d) : Inert d doc.expanded := by
  refine Sealed.append_inert (.flatMap fun p _ => ?_) doc.inert
  have hgap : Sealed d p.gap := ⟨p.inert, getLast?_ne_variant hd p.settled⟩
  exact hgap.append (p.tree.sealed_expansion hd)

end GroupedVariants.Markup

namespace GroupedVariants.Transformer

/-- 地の文と木を並べた文を展開すると、もう何も見つからない。 -/
theorem expand_document_again (t : Transformer) (doc : Markup.Document t.delimiters) :
    t.findMatches (t.expand doc.text) = [] ∧
      t.rewrite? (t.expand doc.text) = none ∧
      t.expand (t.expand doc.text) = t.expand doc.text := by
  have hd := Delimiters.Usable.of_check t.checked
  have hfound : t.findMatches (t.expand doc.text) = [] := by
    rw [Markup.expand_text]
    exact Delimiters.findMatches_eq_nil (.inl (doc.inert_expanded hd))
  exact ⟨hfound, t.unchanged_of_findMatches_eq_nil hfound⟩

end GroupedVariants.Transformer
