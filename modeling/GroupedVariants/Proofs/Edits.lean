import GroupedVariants.Proofs.Listing
import GroupedVariants.Proofs.Scan.Layout

/-!
# 見つけた範囲は、書き換えの手順である

文は、範囲とその前の地の文とに切り分けられる。書き換えた文は、地の文をそのまま残して範囲を置き換えたものであり、
後ろの範囲から一つずつ置き換えていっても同じになる。
-/

namespace GroupedVariants

open Text

variable {closing : Char} {cursor : Nat} {text : List Char} {m : Match} {ms : List Match}

/-! ## 切り分け -/

/-- 一つの置き換え。`gap` は前の置き換えとの間の地の文、`span` は閉じ文字までの、置き換わる文。 -/
structure Edit where
  gap : List Char
  span : List Char
  found : Match

namespace Edit

def source (e : Edit) : List Char := e.gap ++ e.span

def result (e : Edit) : List Char := e.gap ++ e.found.content

/-- 手前の文が `before` のとき、範囲の位置は置き換わる文の初めと、その終わりの閉じ文字である。 -/
structure Placed (closing : Char) (before : List Char) (e : Edit) : Prop where
  start : e.found.start = byteLength (before ++ e.gap)
  span : ∃ body, e.span = body ++ [closing] ∧
    e.found.stop = byteLength (before ++ e.gap ++ body)

end Edit

/-- 範囲 `ms` による、文 `text` の書き換え。 -/
structure Script (closing : Char) (text : List Char) (ms : List Match) where
  edits : List Edit
  tail : List Char
  source : text = edits.flatMap Edit.source ++ tail
  found : edits.map Edit.found = ms
  placed : ∀ done e rest, edits = done ++ e :: rest →
    e.Placed closing (done.flatMap Edit.source)

def Script.result (s : Script closing text ms) : List Char :=
  s.edits.flatMap Edit.result ++ s.tail

theorem Spans.exists_edits {rest : List Char} (h : Spans closing cursor ms rest)
    (before : List Char) (hb : byteLength before = cursor) :
    ∃ edits tail, rest = edits.flatMap Edit.source ++ tail ∧ edits.map Edit.found = ms ∧
      (∀ done e more, edits = done ++ e :: more →
        e.Placed closing (before ++ done.flatMap Edit.source)) ∧
      splice closing ms cursor rest = edits.flatMap Edit.result ++ tail := by
  induction h generalizing before with
  | nil cursor rest => exact ⟨[], rest, rfl, rfl, by simp, rfl⟩
  | @cons cursor m ms gap body rest hstart hstop _ ih =>
      have hnext : byteLength (before ++ (gap ++ (body ++ [closing]))) = _ :=
        byteLength_span gap body hb hstart hstop
      obtain ⟨edits, tail, hsource, hfound, hplaced, hresult⟩ := ih _ hnext
      refine ⟨⟨gap, body ++ [closing], m⟩ :: edits, tail, ?_, ?_, ?_, ?_⟩
      · rw [hsource]
        simp [Edit.source]
      · rw [List.map_cons, hfound]
      · intro done e more hsplit
        cases done with
        | nil =>
            obtain ⟨rfl, -⟩ := List.cons.inj hsplit
            refine ⟨?_, body, rfl, ?_⟩ <;> simp <;> omega
        | cons e' done =>
            obtain ⟨rfl, hrest⟩ := List.cons.inj hsplit
            have he := hplaced done e more hrest
            simpa [Edit.source] using he
      · rw [splice_cons gap body rest hstart hstop, hresult]
        simp [Edit.result]

/-! ## 一つずつの置き換え -/

/-- 位置で指した範囲を、閉じ文字まで置き換える。位置が文字の切れ目でなければ失敗する。 -/
def Match.replace? (closing : Char) (m : Match) (text : List Char) : Option (List Char) :=
  if m.start ≤ m.stop then do
    let (before, rest) ← cut? m.start text
    let (_, after) ← cut? (m.stop + closing.utf8Size - m.start) rest
    return before ++ (m.content ++ after)
  else none

theorem Match.replace?_append (before body after : List Char)
    (hstart : m.start = byteLength before) (hstop : m.stop = m.start + byteLength body) :
    m.replace? closing (before ++ (body ++ closing :: after)) =
      some (before ++ (m.content ++ after)) := by
  have hle : m.start ≤ m.stop := by omega
  have hspan : m.stop + closing.utf8Size - m.start = byteLength (body ++ [closing]) := by
    simp only [byteLength_append, byteLength_singleton]
    omega
  have hrest : body ++ closing :: after = (body ++ [closing]) ++ after := by simp
  rw [replace?, if_pos hle, hspan, hstart, hrest]
  simp only [cut?_append, Option.bind_eq_bind, Option.bind_some]
  rfl

/-- 後ろの範囲を先に置き換えても、前の範囲の位置は変わらない。 -/
theorem Spans.foldrM_replace? {rest : List Char} (h : Spans closing cursor ms rest)
    (before : List Char) (hb : byteLength before = cursor) :
    ms.foldrM (Match.replace? closing) (before ++ rest) =
      some (before ++ splice closing ms cursor rest) := by
  induction h generalizing before with
  | nil cursor rest => rfl
  | @cons cursor m ms gap body rest hstart hstop _ ih =>
      have hnext : byteLength (before ++ (gap ++ (body ++ [closing]))) = _ :=
        byteLength_span gap body hb hstart hstop
      have hlater := ih _ hnext
      -- 後ろを置き換え終えた文も、この範囲の閉じ文字までは元のままである。
      have hstart' : m.start = byteLength (before ++ gap) := by rw [byteLength_append, hb, hstart]
      have hone : m.replace? closing ((before ++ gap) ++ (body ++ closing :: _)) = some _ :=
        m.replace?_append (before ++ gap) body
          (splice closing ms (m.stop + closing.utf8Size) rest) hstart' hstop
      simp only [List.append_assoc, List.cons_append, List.nil_append] at hlater hone
      rw [List.foldrM_cons, hlater, splice_cons gap body rest hstart hstop]
      exact hone

/-- 見つけた範囲も、示した文から読み戻した範囲も、書き換えの手順である。文は文字の並びなので、文字の途中で切れることはない。 -/
theorem Transformer.expand_eq_script (t : Transformer) (text : List Char) :
    (∃ s : Script t.delimiters.closing text (t.findMatches text), t.expand text = s.result) ∧
      (t.findMatches text).foldrM (Match.replace? t.delimiters.closing) text =
        some (t.expand text) ∧
      (∀ indented input,
        (Json.Value.parse? (t.listing indented [⟨input, text⟩])).bind Json.Value.spans? =
          some (t.findMatches text)) ∧
      (t.rewrite? text = none ↔ (t.findMatches text).length = 0) := by
  have hspans := t.delimiters.spans_findMatches text
  refine ⟨?_, ?_, fun indented input => t.spans?_listing indented ⟨input, text⟩, ?_⟩
  · obtain ⟨edits, tail, hsource, hfound, hplaced, hresult⟩ := hspans.exists_edits [] rfl
    refine ⟨⟨edits, tail, hsource, hfound, hplaced⟩, ?_⟩
    rw [t.expand_eq_splice]
    exact hresult
  · rw [t.expand_eq_splice]
    exact hspans.foldrM_replace? [] rfl
  · rw [List.length_eq_zero_iff]
    exact t.delimiters.rewrite?_eq_none_iff text

end GroupedVariants
