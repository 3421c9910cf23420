import GroupedVariants.Proofs.Scan.Layout
import GroupedVariants.Proofs.Scan.Transfer
import Mathlib.Data.List.Forall2

/-!
# 区切り文字の取り替え

役の文字を役の文字に移す置き換えを文に施してから書き換えても、書き換えてから施しても同じである。文字の幅が変われば
バイト位置は変わるが、文字で数えた位置は変わらない。
-/

namespace GroupedVariants

open Text

variable {d d' : Delimiters} {r : Char → Char} {text : List Char}

namespace Transfer

/-- 文 `text` の文字をすべて置き換えたときの移り方。 -/
def mapping (r : Char → Char) (text : List Char) : Transfer :=
  ⟨r, fun n => byteLength ((takeBytes n text).map r)⟩

theorem offset_mapping {s t : List Char} (h : text = s ++ t) :
    (mapping r text).offset (byteLength s) = byteLength (s.map r) := by
  have htake : takeBytes (byteLength s) text = s := by rw [h, takeBytes_append]
  exact congrArg (fun u => byteLength (u.map r)) htake

theorem offset_mapping_zero (r : Char → Char) (text : List Char) :
    (mapping r text).offset 0 = 0 :=
  offset_mapping (s := []) rfl

theorem mapping_follows (r : Char → Char) (text : List Char) :
    (mapping r text).Follows 0 text := by
  intro u v h
  rw [Nat.zero_add, offset_mapping h, offset_mapping_zero, Nat.zero_add]
  rfl

end Transfer

/-- 文字で数えて `i` 番目から `j` 番目の手前までと、`j` 番目の閉じ文字とを占める。 -/
structure Match.Covers (text : List Char) (m : Match) (i j : Nat) : Prop where
  lt : i < j
  lt_length : j < text.length
  start : m.start = byteLength (text.take i)
  stop : m.stop = byteLength (text.take j)

namespace Match

variable {m : Match} {i j : Nat}

theorem Placed.exists_covers (h : m.Placed d text) : ∃ i j, m.Covers text i j := by
  obtain ⟨c, ⟨s, t, hs, hstart⟩, -⟩ := h.starts
  obtain ⟨u, v, hu, hstop⟩ := h.stops
  have hlt := h.lt
  obtain ⟨body, hbody, -⟩ := exists_append_of_byteLength_le (hs.symm.trans hu) (by omega)
  refine ⟨s.length, u.length, ?_, ?_, ?_, ?_⟩
  · -- 範囲は空でないので、文字で数えても始まりが先である。
    have hne : body ≠ [] := by
      rintro rfl
      rw [hbody, List.append_nil] at hstop
      omega
    have hpos := List.length_pos_iff.mpr hne
    rw [hbody, List.length_append]
    omega
  · simp [hu]
  · rw [hs, List.take_left, hstart]
  · rw [hu, List.take_left, hstop]

theorem Covers.map (h : m.Covers text i j) :
    (m.transfer (.mapping r text)).Covers (text.map r) i j := by
  have hoffset (n : Nat) : (Transfer.mapping r text).offset (byteLength (text.take n)) =
      byteLength ((text.map r).take n) := by
    rw [Transfer.offset_mapping (List.take_append_drop n text).symm, List.map_take]
  refine ⟨h.lt, by simpa using h.lt_length, ?_, ?_⟩
  · rw [← hoffset, ← h.start]
    rfl
  · rw [← hoffset, ← h.stop]
    rfl

end Match

namespace Delimiters

theorem findMatches_map (h : d.Renamed d' r) (text : List Char) :
    d'.findMatches (text.map r) = (d.findMatches text).map (Match.transfer (.mapping r text)) := by
  have hstart : Scan.Machine.start.transfer (.mapping r text) [] = .start := by
    simp [Scan.Machine.transfer, Scan.Machine.start, Scan.State.transfer,
      Transfer.offset_mapping_zero]
  have hrun : (Scan.Machine.start.transfer (.mapping r text) []).run d' (text.map r) =
      (Scan.Machine.start.run d text).transfer (.mapping r text) [] :=
    Scan.Machine.run_transfer h (Transfer.mapping_follows r text)
  rw [hstart] at hrun
  exact congrArg Scan.Machine.found hrun

theorem splice_map (h : d.Renamed d' r) (text : List Char) :
    splice d'.closing (d'.findMatches (text.map r)) 0 (text.map r) =
      (splice d.closing (d.findMatches text) 0 text).map r := by
  have hs := ((d.spans_findMatches text).transfer h (Transfer.mapping_follows r text)).2
  rw [Transfer.offset_mapping_zero, ← findMatches_map h] at hs
  exact hs

end Delimiters

/-- 役を保つ置き換えは、書き換えと入れ替えられる。範囲は、文字で数えて同じところにある。 -/
theorem Transformer.expand_map (t t' : Transformer) {r : Char → Char}
    (h : t.delimiters.Renamed t'.delimiters r) (text : List Char) :
    t'.expand (text.map r) = (t.expand text).map r ∧
      (t'.findMatches (text.map r)).length = (t.findMatches text).length ∧
      List.Forall₂
        (fun m m' => m'.content = m.content.map r ∧
          ∃ i j, m.Covers text i j ∧ m'.Covers (text.map r) i j)
        (t.findMatches text) (t'.findMatches (text.map r)) := by
  have hfound : t'.findMatches (text.map r) =
      (t.findMatches text).map (Match.transfer (.mapping r text)) :=
    Delimiters.findMatches_map h text
  refine ⟨?_, ?_, ?_⟩
  · rw [t.expand_eq_splice, t'.expand_eq_splice]
    exact Delimiters.splice_map h text
  · rw [hfound, List.length_map]
  · rw [hfound, List.forall₂_map_right_iff, List.forall₂_same]
    intro m hm
    obtain ⟨i, j, hcovers⟩ := ((t.delimiters.laid_findMatches text).placed m hm).2.exists_covers
    exact ⟨rfl, i, j, hcovers, hcovers.map⟩

/-- 既定の区切り文字を幅の広い文字に移し、その文字が元からあったところはほかの文字にする。 -/
def widened (c : Char) : Char :=
  if c = ':' then '·' else if c = '(' then '«' else if c = ')' then '»'
  else if c = '·' ∨ c = '«' ∨ c = '»' then '+' else c

theorem renamed_widened : Delimiters.Renamed {} ⟨'·', '«', '»', ','⟩ widened := by
  refine ⟨fun p c => ?_, fun c => ?_, rfl⟩
  · cases p <;> grind [Delimiters.get, widened]
  · have hbreaking : [':', '(', ')', '·', '«', '»', '+'].any isBreaking = false := by decide
    grind [widened]

theorem expand_map_widened :
    let wide : Transformer := ⟨⟨'·', '«', '»', ','⟩, by decide⟩
    Delimiters.Renamed {} wide.delimiters widened ∧
      wide.expand "+a·«b,c·«d»» +·«e".toList = "+a·b +a·c·d +·«e".toList := by
  intro wide
  have h := (Transformer.default.expand_map wide renamed_widened "·a:(b,c:(d)) «:(e".toList).1
  refine ⟨renamed_widened, ?_⟩
  calc wide.expand "+a·«b,c·«d»» +·«e".toList
      = (Transformer.default.expand "·a:(b,c:(d)) «:(e".toList).map widened := by
        rw [← h]
        rfl
    _ = "+a·b +a·c·d +·«e".toList := by decide

end GroupedVariants
