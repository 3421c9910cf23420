import GroupedVariants.Proofs.Delimiters
import GroupedVariants.Proofs.Scan.Layout
import GroupedVariants.Proofs.Scan.Shift

/-!
# 語の間まで読めば、その先の走査は前の文によらない

群の外で語が切れたところで文を分けると、範囲も書き換えた文も、分けた文のそれぞれのものをつないだものになる。
-/

namespace GroupedVariants

open Text

variable {d : Delimiters} {text : List Char}

namespace Scan.Sound

variable {m : Machine} {c : Char}

/-- 語の間にいる機械に残るのは、見つけた範囲だけである。 -/
theorem eq_idle (h : Sound d text m) (hi : m.state = .idle) :
    m = ⟨.idle, byteLength text, [], m.found⟩ := by
  cases h with
  | @fresh k ms lo hl hs =>
      cases k with
      | nil => rfl
      | cons f k => cases hi
  | @within w k ms lo hl hs hw => cases k <;> cases hi
  | @marking w k ms lo hl hs hw => cases k <;> cases hi
  | afterGroup hl hs => cases hi

/-- 語を切る文字を読んで、開いた群がなければ、語の間にいる。 -/
theorem feed_breaking (hd : d.Usable) (h : Sound d text m) (hb : isBreaking c = true)
    (hk : (m.feed d c).stack = []) : (m.feed d c).state = .idle := by
  -- 語を切る文字は、どの区切り文字でもない。
  have hne (r : Role) : c ≠ d.get r := by
    rintro rfl
    exact absurd hb (by simp [hd.solid r])
  have hv : c ≠ d.variant := hne .variant
  have ho : c ≠ d.opening := hne .opening
  have hc : c ≠ d.closing := hne .closing
  have hs : c ≠ d.separator := hne .separator
  cases h with
  | @fresh k ms lo hl hst =>
      cases k with
      | nil => simp [State.fresh, Machine.feed_idle, hb]
      | cons f k => simp [State.fresh, Machine.feed_itemStart, hb]
  | @within w k ms lo hl hst hw =>
      cases k with
      | nil => simp [State.within, Machine.feed_word, hv, hb]
      | cons f k =>
          -- 項目の中では、語を切る文字も項目を延ばすだけで、群は開いたままである。
          simp [State.within, Machine.feed_item, hv, hc, hs] at hk
  | @marking w k ms lo hl hst hw =>
      cases k with
      | nil => simp [State.marking, Machine.feed_variant, ho, hb]
      | cons f k => simp [State.marking, Machine.feed_itemVariant, ho, hb]
  | afterGroup hl hst => simp [Machine.feed_afterGroup, hb]

end Scan.Sound

namespace Delimiters

theorem run_eq_idle (h : (Scan.Machine.start.run d text).state = .idle) :
    Scan.Machine.start.run d text = ⟨.idle, byteLength text, [], d.findMatches text⟩ :=
  (Scan.Sound.start.run text).eq_idle h

theorem state_eq_idle (hd : d.Usable) (hb : ∃ c ∈ text.getLast?, isBreaking c = true)
    (hk : (Scan.Machine.start.run d text).stack = []) :
    (Scan.Machine.start.run d text).state = .idle := by
  obtain ⟨c, hc, hb⟩ := hb
  obtain ⟨s, rfl⟩ := List.getLast?_eq_some_iff.mp hc
  rw [Scan.Machine.run_append] at hk ⊢
  exact (Scan.Sound.start.run s).feed_breaking hd hb hk

/-- 前の文で見つかる範囲と、その長さだけずらした、後の文で見つかる範囲。 -/
theorem findMatches_append (more : List Char)
    (h : (Scan.Machine.start.run d text).state = .idle) :
    d.findMatches (text ++ more) =
      d.findMatches text ++ (d.findMatches more).map (Match.shift (byteLength text)) := by
  rw [findMatches, Scan.Machine.run_append, run_eq_idle h, Scan.Machine.found_run_idle]

theorem spans_shift (n : Nat) (text : List Char) :
    Spans d.closing n ((d.findMatches text).map (Match.shift n)) text ∧
      splice d.closing ((d.findMatches text).map (Match.shift n)) n text =
        splice d.closing (d.findMatches text) 0 text := by
  have h := (d.spans_findMatches text).transfer (.refl d) (Transfer.shift_follows n 0 text)
  rw [Match.transfer_shift] at h
  simpa [Transfer.shift] using h

end Delimiters

/-- 語を切る文字で終わり、開いた群もなければ、語の間にいる。語の間から先の文は、初めから読むのと同じに読まれる。 -/
theorem Transformer.findMatches_append_of_idle (t : Transformer) (a : List Char) :
    ((∃ c ∈ a.getLast?, isBreaking c = true) →
        (Scan.Machine.start.run t.delimiters a).stack = [] →
          (Scan.Machine.start.run t.delimiters a).state = .idle) ∧
      ((Scan.Machine.start.run t.delimiters a).state = .idle → ∀ b,
        t.findMatches (a ++ b) =
            t.findMatches a ++ (t.findMatches b).map (Match.shift (byteLength a)) ∧
          t.expand (a ++ b) = t.expand a ++ t.expand b) := by
  refine ⟨Delimiters.state_eq_idle (.of_check t.checked), fun h b => ?_⟩
  have hfound : t.findMatches (a ++ b) =
      t.findMatches a ++ (t.findMatches b).map (Match.shift (byteLength a)) :=
    Delimiters.findMatches_append b h
  obtain ⟨hspans, hshift⟩ := t.delimiters.spans_shift (byteLength a) b
  refine ⟨hfound, ?_⟩
  calc t.expand (a ++ b)
      = splice t.delimiters.closing
          (t.findMatches a ++ (t.findMatches b).map (Match.shift (byteLength a))) 0 (a ++ b) := by
        rw [t.expand_eq_splice, hfound]
    _ = splice t.delimiters.closing (t.findMatches a) 0 a ++
          splice t.delimiters.closing ((t.findMatches b).map (Match.shift (byteLength a)))
            (0 + byteLength a) b :=
        (t.delimiters.spans_findMatches a).splice_append (by rwa [Nat.zero_add])
    _ = t.expand a ++ t.expand b := by
        rw [Nat.zero_add, t.expand_eq_splice a, t.expand_eq_splice b]
        exact congrArg (_ ++ ·) hshift

/-- 壊れた群と閉じた群とを読み終えた後に、幅の広い文字の語が続く。 -/
theorem findMatches_append_of_idle_broken :
    let a := "é:(b:(c) d:(e) ".toList
    let b := "é:(f)".toList
    (Scan.Machine.start.run {} a).state = .idle ∧
      Transformer.default.findMatches (a ++ b) =
        [⟨4, 8, "b:c".toList⟩, ⟨10, 14, "d:e".toList⟩, ⟨16, 21, "é:f".toList⟩] ∧
      Transformer.default.expand (a ++ b) = "é:(b:c d:e é:f".toList := by
  intro a b
  have hidle : (Scan.Machine.start.run {} a).state = .idle := by decide
  obtain ⟨hfound, hexpand⟩ :=
    (Transformer.default.findMatches_append_of_idle a).2 hidle b
  refine ⟨hidle, ?_, ?_⟩
  · rw [hfound]
    decide
  · rw [hexpand]
    decide

end GroupedVariants
