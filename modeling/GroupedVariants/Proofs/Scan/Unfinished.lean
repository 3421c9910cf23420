import GroupedVariants.Proofs.Locality
import GroupedVariants.Proofs.Scan.Emission
import Mathlib.Data.List.Induction

/-!
# 閉じないまま文が終わった群

群が開いている間は何も見つからず、一番外の群の始まりも変わらない。閉じないまま文が終われば、その始まりから先は
字のまま残る。
-/

namespace GroupedVariants

open Text

namespace Scan

variable {d : Delimiters} {text : List Char} {m : Machine} {c : Char}

/-- 積みの一番外の群の始まり。積みが空なら `n`。 -/
def outermost (n : Nat) : List Frame → Nat
  | [] => n
  | f :: k => outermost f.start k

theorem outermost_eq_start_getLast (n : Nat) {k : List Frame} (h : k ≠ []) :
    outermost n k = (k.getLast h).start := by
  induction k generalizing n with
  | nil => exact absurd rfl h
  | cons f k ih =>
      cases k with
      | nil => rfl
      | cons g k => exact ih f.start (List.cons_ne_nil g k)

namespace Machine

/-- 一番外の群の始まり。群が開いていなければ、読みかけの語の始まり。 -/
def origin (m : Machine) : Nat := outermost m.state.pending.start m.stack

theorem emitted_eq_nil (h : (m.feed d c).state ≠ .idle) : m.emitted d c = [] := by
  rw [emitted]
  split
  next f ha hf =>
      refine absurd ?_ h
      rw [feed, ha, perform, close, hf]
      rfl
  next ha =>
      refine absurd ?_ h
      rw [feed, ha]
      rfl
  next => rfl

end Machine

namespace Sound

/-- 語の間では、その先に読む文字から語が始まる。ほかでは、語の間に戻らない限り始まりは変わらない。 -/
theorem origin_feed (h : Sound d text m) :
    (m.feed d c).state ≠ .idle →
      (m.feed d c).origin = if m.state = .idle then byteLength text else m.origin := by
  have leave {p : Prop} : State.idle ≠ .idle → p := fun hne => absurd rfl hne
  cases h with
  | @fresh k ms lo hl hs =>
      cases k with
      | nil =>
          rw [State.fresh, Machine.feed_idle]
          split
          · exact leave
          · exact fun _ => rfl
      | cons f k =>
          rw [State.fresh, Machine.feed_itemStart]
          split
          · exact leave
          · exact fun _ => rfl
  | @within w k ms lo hl hs hw =>
      cases k with
      | nil =>
          rw [State.within, Machine.feed_word]
          split
          · exact fun _ => rfl
          split
          · exact leave
          · exact fun _ => rfl
      | cons f k =>
          rw [State.within, Machine.feed_item]
          split
          · exact fun _ => rfl
          split
          · exact fun _ => rfl
          split
          · cases k with
            | nil => exact leave
            | cons g k => exact fun _ => rfl
          · exact fun _ => rfl
  | @marking w k ms lo hl hs hw =>
      cases k with
      | nil =>
          rw [State.marking, Machine.feed_variant]
          split
          · exact fun _ => rfl
          split
          · exact leave
          · exact fun _ => rfl
      | cons f k =>
          rw [State.marking, Machine.feed_itemVariant]
          split
          · exact fun _ => rfl
          split
          · exact leave
          · exact fun _ => rfl
  | @afterGroup f k ms lo hl hs =>
      rw [Machine.feed_afterGroup]
      split
      · exact leave
      split
      · cases k with
        | nil => exact leave
        | cons g k => exact fun _ => rfl
      split
      · exact fun _ => rfl
      · exact leave

end Sound

/-- 語の間にいなければ、始まりの手前までは語の間まで読まれていて、その先では何も見つかっていない。 -/
theorem exists_idle_before (d : Delimiters) (text : List Char)
    (h : (Machine.start.run d text).state ≠ .idle) :
    ∃ before rest, text = before ++ rest ∧
      byteLength before = (Machine.start.run d text).origin ∧
      (Machine.start.run d before).state = .idle ∧
      d.findMatches text = d.findMatches before := by
  -- 最後の文字を読む前に語の間にいたなら、そこが始まりの手前である。
  induction text using List.reverseRecOn with
  | nil => exact absurd rfl h
  | append_singleton s c ih =>
      have hfound : d.findMatches (s ++ [c]) = d.findMatches s := by
        rw [Machine.run_append] at h
        rw [Delimiters.findMatches_snoc, Machine.emitted_eq_nil h, List.append_nil]
      have horigin := (Sound.start.run s).origin_feed (by rwa [Machine.run_append] at h)
      by_cases hs : (Machine.start.run d s).state = .idle
      · rw [if_pos hs] at horigin
        refine ⟨s, [c], rfl, ?_, hs, hfound⟩
        rw [Machine.run_append]
        exact horigin.symm
      · rw [if_neg hs] at horigin
        obtain ⟨before, rest, hsplit, hlength, hidle, hsame⟩ := ih hs
        refine ⟨before, rest ++ [c], ?_, ?_, hidle, hfound.trans hsame⟩
        · rw [hsplit, List.append_assoc]
        · rw [Machine.run_append, hlength]
          exact horigin.symm

end Scan

namespace Transformer

open Scan

/-- 群の中で終わる文では、一番外の群の始まりまでが語の間まで読まれ、その先は何も見つからず字のまま残る。 -/
theorem findMatches_unfinished (t : Transformer) (text : List Char)
    (h : (Machine.start.run t.delimiters text).stack ≠ []) :
    ∃ before rest, text = before ++ rest ∧
      byteLength before = ((Machine.start.run t.delimiters text).stack.getLast h).start ∧
      (Machine.start.run t.delimiters before).state = .idle ∧
      t.findMatches text = t.findMatches before ∧
      t.expand text = t.expand before ++ rest := by
  have hstate : (Machine.start.run t.delimiters text).state ≠ .idle := fun hidle =>
    h (congrArg Machine.stack (Delimiters.run_eq_idle hidle))
  obtain ⟨before, rest, hsplit, hlength, hidle, hfound⟩ :=
    exists_idle_before t.delimiters text hstate
  refine ⟨before, rest, hsplit, ?_, hidle, hfound, ?_⟩
  · rw [hlength, Machine.origin, outermost_eq_start_getLast _ h]
  · have hspans := t.delimiters.spans_findMatches before
    have hrest := hspans.splice_append (.nil (0 + byteLength before) rest)
    rw [List.append_nil] at hrest
    rw [t.expand_eq_splice, t.expand_eq_splice, findMatches, hfound, hsplit]
    exact hrest

/-- 内側の群が二つ閉じても、外の群が閉じなければその始まりから先は残る。 -/
theorem findMatches_unfinished_nested :
    let text := "é:(b) a:(c:(d),e:(f:(g)".toList
    (Machine.start.run {} text).stack ≠ [] ∧
      default.findMatches text = [⟨0, 5, "é:b".toList⟩] ∧
      ∃ before rest, text = before ++ rest ∧ byteLength before = 7 ∧
        default.expand text = default.expand before ++ rest := by
  intro text
  have h : (Machine.start.run default.delimiters text).stack ≠ [] := by decide
  obtain ⟨before, rest, hsplit, hlength, -, -, hexpand⟩ := default.findMatches_unfinished text h
  exact ⟨h, by decide, before, rest, hsplit, hlength, hexpand⟩

end Transformer

end GroupedVariants
