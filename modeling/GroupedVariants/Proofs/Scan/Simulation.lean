import GroupedVariants.Proofs.Delimiters
import GroupedVariants.Proofs.Scan.Descent
import GroupedVariants.Proofs.Scan.Step
import GroupedVariants.Transformer

/-!
# 機械は再帰下降の読み手と同じ範囲を見つける

機械の積みは、読み手の呼び出しの続きを表す。積みの一番上は読んでいる群、その下は呼び出し元である。
-/

namespace GroupedVariants.Scan

variable {d : Delimiters}

/-! ## 群の中 -/

/-- 冠が `lead` の群の中身を読み終えてから、外の群の積み `k` のもとで見つかる範囲。 -/
def Outcome.resume (d : Delimiters) (lead : List Char) (start : Nat) (k : List Frame)
    (ms : List Match) {n : Nat} : Outcome n → List Match
  | .closed items children stop rest _ =>
      ((Machine.closed d stop ms (⟨lead, start, items, children⟩ :: k)).run d rest).found
  | .malformed rescued o rest _ =>
      (Machine.run d ⟨.idle, o, [], ms ++ salvage k ++ rescued.map Group.toMatch⟩ rest).found
  | .unfinished => ms

@[simp] theorem Outcome.resume_widen {lead : List Char} {start : Nat} {k : List Frame}
    {ms : List Match} {m n : Nat} (h : m ≤ n) (r : Outcome m) :
    (r.widen h).resume d lead start k ms = r.resume d lead start k ms := by
  cases r <;> rfl

mutual
theorem run_itemStart (hd : d.Usable) {lead : List Char} {start : Nat} {items : List (List Char)}
    {children : List Group} {k : List Frame} {ms : List Match} {o : Nat} : (text : List Char) →
    (Machine.run d ⟨.itemStart, o, ⟨lead, start, items, children⟩ :: k, ms⟩ text).found =
      (readElements d items children o text).resume d lead start k ms
  | [] => by rw [readElements.eq_def]; rfl
  | c :: rest => by
      rw [Machine.run_cons, Machine.feed_itemStart, readElements.eq_def]
      by_cases hc : Text.isBreaking c || c = d.closing
      · simp only [hc, ↓reduceIte, Outcome.resume, salvage_cons, List.append_assoc]
      · simp only [hc, Bool.false_eq_true, ↓reduceIte, Outcome.resume_widen]
        exact run_item hd ⟨o, [c]⟩ rest
termination_by text => text.length

theorem run_item (hd : d.Usable) {lead : List Char} {start : Nat} {items : List (List Char)}
    {children : List Group} {k : List Frame} {ms : List Match} {o : Nat} (w : Word) :
    (text : List Char) →
    (Machine.run d ⟨.item w, o, ⟨lead, start, items, children⟩ :: k, ms⟩ text).found =
      (readElement d items children w.start w.text o text).resume d lead start k ms
  | [] => by rw [readElement.eq_def]; rfl
  | c :: rest => by
      rw [Machine.run_cons, Machine.feed_item, readElement.eq_def]
      by_cases hs : c = d.separator
      · simp only [hs, ↓reduceIte, Outcome.resume_widen]
        exact run_itemStart hd rest
      by_cases hc : c = d.closing
      · have hv : d.closing ≠ d.variant := hd.variant_ne_closing.symm
        simp only [hc, hd.closing_ne_separator, hv, ↓reduceIte]
        rfl
      by_cases hv : c = d.variant
      · simp only [hv, hd.variant_ne_separator, hd.variant_ne_closing, ↓reduceIte]
        -- 読み手は変種の文字の次まで見て決めるので、機械も二文字続けて進める。
        cases rest with
        | nil => rfl
        | cons e rest =>
            simp only [Machine.run_cons]
            rw [Machine.feed_itemVariant]
            by_cases ho : e = d.opening
            · simp only [ho, ↓reduceIte]
              rw [run_itemStart hd rest]
              cases hr : readElements d [] [] (o + d.variant.utf8Size + d.opening.utf8Size) rest with
              | closed own inner stop rest' hlt =>
                  -- 内側の読み手の続きは、積みの一つ下の群を群の直後から読むことである。
                  rw [Outcome.resume_widen, ← run_afterGroup hd rest', Word.text_push,
                    Word.start_push]
                  rfl
              | malformed rescued o' rest' hlt =>
                  simp only [Outcome.resume, salvage_cons, List.append_assoc, List.map_append]
              | unfinished => rfl
            by_cases hb : Text.isBreaking e
            · simp only [ho, hb, ↓reduceIte, Outcome.resume, salvage_cons, List.append_assoc]
            · simp only [ho, hb, Bool.false_eq_true, ↓reduceIte, Outcome.resume_widen]
              rw [run_item hd ((w.push d.variant).push e) rest]
              simp only [Word.text_push, Word.start_push, List.append_assoc, List.cons_append,
                List.nil_append]
      · simp only [hs, hc, hv, ↓reduceIte, Outcome.resume_widen]
        rw [run_item hd (w.push c) rest, Word.text_push, Word.start_push]
termination_by text => text.length

theorem run_afterGroup (hd : d.Usable) {lead : List Char} {start : Nat} {items : List (List Char)}
    {children : List Group} {k : List Frame} {ms : List Match} {o : Nat} : (text : List Char) →
    (Machine.run d ⟨.afterGroup, o, ⟨lead, start, items, children⟩ :: k, ms⟩ text).found =
      (readAfter d items children o text).resume d lead start k ms
  | [] => by rw [readAfter.eq_def]; rfl
  | c :: rest => by
      rw [Machine.run_cons, Machine.feed_afterGroup, readAfter.eq_def]
      by_cases hs : c = d.separator
      · have hc : d.separator ≠ d.closing := hd.closing_ne_separator.symm
        simp only [hs, hd.separator_solid, hc, Bool.false_eq_true, ↓reduceIte, Outcome.resume_widen]
        exact run_itemStart hd rest
      by_cases hc : c = d.closing
      · simp only [hc, hd.closing_solid, hd.closing_ne_separator, Bool.false_eq_true, ↓reduceIte]
        rfl
      · simp only [hs, hc, ↓reduceIte, ite_self, Outcome.resume, salvage_cons, List.append_assoc]
termination_by text => text.length
end

/-! ## 群の外 -/

mutual
theorem run_idle (hd : d.Usable) {ms : List Match} {o : Nat} : (text : List Char) →
    (Machine.run d ⟨.idle, o, [], ms⟩ text).found = ms ++ readGap d o text
  | [] => by rw [readGap.eq_def]; exact (List.append_nil ms).symm
  | c :: rest => by
      rw [Machine.run_cons, Machine.feed_idle, readGap.eq_def]
      by_cases hb : Text.isBreaking c
      · simp only [hb, ↓reduceIte]
        exact run_idle hd rest
      · simp only [hb, Bool.false_eq_true, ↓reduceIte]
        exact run_word hd ⟨o, [c]⟩ rest
termination_by text => text.length

theorem run_word (hd : d.Usable) {ms : List Match} {o : Nat} (w : Word) : (text : List Char) →
    (Machine.run d ⟨.word w, o, [], ms⟩ text).found = ms ++ readWord d w.start w.text o text
  | [] => by rw [readWord.eq_def]; exact (List.append_nil ms).symm
  | c :: rest => by
      rw [Machine.run_cons, Machine.feed_word, readWord.eq_def]
      by_cases hv : c = d.variant
      · simp only [hv, hd.variant_solid, Bool.false_eq_true, ↓reduceIte]
        cases rest with
        | nil => exact (List.append_nil ms).symm
        | cons e rest =>
            simp only [Machine.run_cons]
            rw [Machine.feed_variant]
            by_cases ho : e = d.opening
            · simp only [ho, ↓reduceIte]
              rw [run_itemStart hd rest]
              cases hr : readElements d [] [] (o + d.variant.utf8Size + d.opening.utf8Size) rest with
              | closed items children stop rest' hlt =>
                  simp only [Outcome.resume, Machine.closed]
                  rw [run_idle hd rest', List.append_assoc, Word.text_push, Word.start_push]
                  rfl
              | malformed rescued o' rest' hlt =>
                  simp only [Outcome.resume, salvage_nil, List.append_nil]
                  rw [run_idle hd rest', List.append_assoc]
                  rfl
              | unfinished => exact (List.append_nil ms).symm
            by_cases hb : Text.isBreaking e
            · simp only [ho, hb, ↓reduceIte]
              exact run_idle hd rest
            · simp only [ho, hb, Bool.false_eq_true, ↓reduceIte]
              rw [run_word hd ((w.push d.variant).push e) rest]
              simp only [Word.text_push, Word.start_push, List.append_assoc, List.cons_append,
                List.nil_append]
      by_cases hb : Text.isBreaking c
      · simp only [hv, hb, ↓reduceIte]
        exact run_idle hd rest
      · simp only [hv, hb, Bool.false_eq_true, ↓reduceIte]
        rw [run_word hd (w.push c) rest, Word.text_push, Word.start_push]
termination_by text => text.length
end

end GroupedVariants.Scan

namespace GroupedVariants

/-- 検査を通ったどの区切り文字でも、どの文でも、機械の見つける範囲は読み手のものと同じ並びである。 -/
theorem Transformer.findMatches_eq_readGap (t : Transformer) (text : List Char) :
    t.findMatches text = Scan.readGap t.delimiters 0 text := by
  have hd := Delimiters.Usable.of_check t.checked
  calc t.findMatches text
      = (Scan.Machine.run t.delimiters ⟨.idle, 0, [], []⟩ text).found := rfl
    _ = [] ++ Scan.readGap t.delimiters 0 text := Scan.run_idle hd text
    _ = Scan.readGap t.delimiters 0 text := List.nil_append _

end GroupedVariants
