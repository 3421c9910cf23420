import GroupedVariants.Proofs.Text.Bytes
import GroupedVariants.Transformer

/-!
# 嵌め込みは範囲の間をそのまま写す
-/

namespace GroupedVariants

open Text

variable {closing : Char} {cursor : Nat} {m : Match} {ms : List Match}

/-- `rest` は位置 `cursor` から先の文で、その中に範囲 `ms` が順に、重ならずに並ぶ。 -/
inductive Spans (closing : Char) : Nat → List Match → List Char → Prop
  | nil (cursor : Nat) (rest : List Char) : Spans closing cursor [] rest
  | cons {cursor : Nat} {m : Match} {ms : List Match} (gap body rest : List Char) :
      m.start = cursor + byteLength gap → m.stop = m.start + byteLength body →
      Spans closing (m.stop + closing.utf8Size) ms rest →
      Spans closing cursor (m :: ms) (gap ++ (body ++ closing :: rest))

/-- 手前の文が `before` なら、範囲の閉じ文字までの長さは、次の範囲を探し始める位置である。 -/
theorem byteLength_span {before : List Char} (gap body : List Char)
    (hb : byteLength before = cursor) (hstart : m.start = cursor + byteLength gap)
    (hstop : m.stop = m.start + byteLength body) :
    byteLength (before ++ (gap ++ (body ++ [closing]))) = m.stop + closing.utf8Size := by
  simp only [byteLength_append, byteLength_singleton]
  omega

theorem splice_cons (gap body rest : List Char) (hstart : m.start = cursor + byteLength gap)
    (hstop : m.stop = m.start + byteLength body) :
    splice closing (m :: ms) cursor (gap ++ (body ++ closing :: rest)) =
      gap ++ (m.content ++ splice closing ms (m.stop + closing.utf8Size) rest) := by
  have hgap : m.start - cursor = byteLength gap := by omega
  have hnext : m.stop + closing.utf8Size - cursor = byteLength (gap ++ (body ++ [closing])) := by
    simp only [byteLength_append, byteLength_singleton]
    omega
  have htext : gap ++ (body ++ closing :: rest) = (gap ++ (body ++ [closing])) ++ rest := by simp
  rw [splice, hgap, takeBytes_append, hnext, htext, dropBytes_append, List.append_assoc]

/-- 範囲の始まる前の文は、そのまま写る。 -/
theorem Spans.splice_gap {rest : List Char} (gap : List Char)
    (h : Spans closing (cursor + byteLength gap) ms rest) :
    splice closing ms cursor (gap ++ rest) =
      gap ++ splice closing ms (cursor + byteLength gap) rest := by
  cases h with
  | nil => rfl
  | @cons _ m ms gap' body rest hstart hstop _ =>
      have hstart' : m.start = cursor + byteLength (gap ++ gap') := by
        rw [hstart, byteLength_append, Nat.add_assoc]
      rw [← List.append_assoc, splice_cons (gap ++ gap') body rest hstart' hstop,
        splice_cons gap' body rest hstart hstop, List.append_assoc]

/-- 続けて並ぶ範囲の嵌め込みは、それぞれの文で嵌め込んでからつなぐのと同じである。 -/
theorem Spans.splice_append {ns : List Match} {rest more : List Char}
    (h : Spans closing cursor ms rest) (h' : Spans closing (cursor + byteLength rest) ns more) :
    splice closing (ms ++ ns) cursor (rest ++ more) =
      splice closing ms cursor rest ++ splice closing ns (cursor + byteLength rest) more := by
  induction h with
  | nil cursor rest => exact h'.splice_gap rest
  | @cons cursor m ms gap body rest hstart hstop _ ih =>
      have hend : cursor + byteLength (gap ++ (body ++ closing :: rest)) =
          m.stop + closing.utf8Size + byteLength rest := by
        simp only [byteLength_append, byteLength]
        omega
      rw [hend] at h' ⊢
      have htext : gap ++ (body ++ closing :: rest) ++ more =
          gap ++ (body ++ closing :: (rest ++ more)) := by simp
      rw [htext, List.cons_append, splice_cons gap body _ hstart hstop,
        splice_cons gap body rest hstart hstop, ih h', List.append_assoc, List.append_assoc]

/-- 失敗しうる切り出しによる嵌め込み。範囲が重なるとき、切り出せないときは失敗する。 -/
def checkedSplice (closing : Char) (text : List Char) :
    List Match → (cursor : Nat) → Option (List Char)
  | [], cursor => slice? text cursor (byteLength text)
  | m :: ms, cursor =>
    if cursor ≤ m.start then do
      let gap ← slice? text cursor m.start
      let rest ← checkedSplice closing text ms (m.stop + closing.utf8Size)
      return gap ++ (m.content ++ rest)
    else none

/-- 範囲が順に並ぶなら、嵌め込みの切り出しはどれも失敗しない。 -/
theorem Spans.checkedSplice_eq {rest : List Char} (h : Spans closing cursor ms rest)
    (before : List Char) (hb : byteLength before = cursor) :
    checkedSplice closing (before ++ rest) ms cursor = some (splice closing ms cursor rest) := by
  induction h generalizing before with
  | nil cursor rest =>
      have hs := slice?_append before rest []
      rw [List.append_nil] at hs
      rw [checkedSplice, splice, ← hb, hs]
  | @cons cursor m ms gap body rest hstart hstop _ ih =>
      have hs := slice?_append before gap (body ++ closing :: rest)
      have hm : m.start = byteLength (before ++ gap) := by rw [hstart, byteLength_append, hb]
      have hle : cursor ≤ m.start := by omega
      have hnext : byteLength (before ++ (gap ++ (body ++ [closing]))) = _ :=
        byteLength_span gap body hb hstart hstop
      have htext : before ++ (gap ++ (body ++ closing :: rest)) =
          (before ++ (gap ++ (body ++ [closing]))) ++ rest := by simp
      have hrest := ih _ hnext
      rw [← htext] at hrest
      rw [← hm, hb, List.append_assoc] at hs
      rw [checkedSplice, if_pos hle, splice_cons gap body rest hstart hstop, hs, hrest]
      rfl

/-! ## 書き換え -/

theorem Delimiters.rewrite?_eq_none_iff (d : Delimiters) (text : List Char) :
    d.rewrite? text = none ↔ d.findMatches text = [] := by
  rw [rewrite?]
  cases d.findMatches text <;> simp

theorem Transformer.expand_eq_splice (t : Transformer) (text : List Char) :
    t.expand text = splice t.delimiters.closing (t.findMatches text) 0 text := by
  unfold expand Delimiters.expand Delimiters.rewrite? findMatches
  cases t.delimiters.findMatches text <;> rfl

theorem Transformer.expand_eq_getD (t : Transformer) (text : List Char) :
    t.expand text = (t.rewrite? text).getD text := rfl

end GroupedVariants
