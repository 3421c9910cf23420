import GroupedVariants.Commands.Pass
import GroupedVariants.Proofs.Json.Reading

/-!
# 示した範囲は、見つけた範囲に読み戻せる
-/

namespace GroupedVariants

open Json

namespace Json.Value

def member? (name : String) : Value → Option Value
  | .object members => members.lookup (encode name.toList)
  | _ => none

def elements? : Value → Option (List Value)
  | .array elements => some elements
  | _ => none

def nat? : Value → Option Nat
  | .number written => Text.natOf? 10 written
  | _ => none

/-- 書いたものが一つずつ読み戻せるなら、並びごと読み戻せる。 -/
theorem mapM_map_eq_some {α β γ : Type} {write : α → β} {read : β → Option γ} {value : α → γ}
    (h : ∀ a, read (write a) = some (value a)) (l : List α) :
    (l.map write).mapM read = some (l.map value) := by
  induction l with
  | nil => rfl
  | cons a l ih => simp [h, ih]

theorem nat?_ofNat (n : Nat) : (ofNat n).nat? = some n := Text.natOf?_decimal n

theorem text?_ofText (s : List Char) : (ofText s).text? = some s := decode_encode s

theorem spelled_record {members : List (String × Value)} (h : ∀ m ∈ members, m.2.Spelled) :
    (record members).Spelled := by
  refine .object (fun m hm => ?_) fun m hm => ?_
  · obtain ⟨n, -, rfl⟩ := List.mem_map.mp hm
    exact ⟨n.1.toList, rfl⟩
  · obtain ⟨n, hn, rfl⟩ := List.mem_map.mp hm
    exact h n hn

end Json.Value

namespace Match

def ofJson? (v : Value) : Option Match := do
  let start ← (← v.member? "start").nat?
  let stop ← (← v.member? "end").nat?
  let content ← (← v.member? "content").text?
  return ⟨start, stop, content⟩

theorem ofJson?_toJson (m : Match) : ofJson? m.toJson = some m := by
  have hstart : m.toJson.member? "start" = some (.ofNat m.start) := rfl
  have hstop : m.toJson.member? "end" = some (.ofNat m.stop) := rfl
  have hcontent : m.toJson.member? "content" = some (.ofText m.content) := rfl
  simp [ofJson?, hstart, hstop, hcontent, Value.nat?_ofNat, Value.text?_ofText]

theorem spelled_toJson (m : Match) : m.toJson.Spelled :=
  Value.spelled_record (by simp [Value.Spelled.ofNat, Value.Spelled.ofText])

end Match

/-- 示された並びの範囲。 -/
def Json.Value.matches? (v : Value) : Option (List Match) := do
  (← v.elements?).mapM Match.ofJson?

/-- 一つの入力について示された範囲。 -/
def Json.Value.spans? (v : Value) : Option (List Match) := do
  (← (← v.member? "matches").elements?).mapM Match.ofJson?

namespace Transformer

theorem spelled_matchesJson (t : Transformer) (text : List Char) : (t.matchesJson text).Spelled := by
  refine .array fun v hv => ?_
  obtain ⟨m, -, rfl⟩ := List.mem_map.mp hv
  exact m.spelled_toJson

theorem matches?_matchesJson (t : Transformer) (text : List Char) :
    (t.matchesJson text).matches? = some (t.findMatches text) := by
  have hread : ((t.findMatches text).map Match.toJson).mapM Match.ofJson? =
      some ((t.findMatches text).map id) :=
    Value.mapM_map_eq_some Match.ofJson?_toJson _
  rwa [List.map_id] at hread

/-- 字下げして示した並びは、見つけた範囲に読み戻せる。 -/
theorem matches?_pretty (t : Transformer) (text : List Char) :
    (Value.parse? ((t.matchesJson text).pretty 0)).bind Value.matches? =
      some (t.findMatches text) := by
  have hparse := Value.parse?_reads ((t.spelled_matchesJson text).reads_pretty 0) spaces_nil
  rw [List.append_nil] at hparse
  rw [hparse]
  exact t.matches?_matchesJson text

theorem spelled_readingJson (t : Transformer) (r : Reading) : (t.readingJson r).Spelled := by
  refine Value.spelled_record fun m hm => ?_
  simp only [List.mem_cons, List.not_mem_nil, or_false] at hm
  rcases hm with rfl | rfl
  · exact .ofText _
  · exact t.spelled_matchesJson r.text

theorem spans?_readingJson (t : Transformer) (r : Reading) :
    (t.readingJson r).spans? = some (t.findMatches r.text) := by
  have hmember : (t.readingJson r).member? "matches" = some (t.matchesJson r.text) := rfl
  rw [Value.spans?, hmember]
  exact t.matches?_matchesJson r.text

theorem reads_readingJson (t : Transformer) (indented : Bool) (r : Reading) :
    let v := t.readingJson r
    Reads v (if indented then v.pretty 0 else v.compact) := by
  cases indented with
  | true => exact (t.spelled_readingJson r).reads_pretty 0
  | false => exact (t.spelled_readingJson r).reads_compact

/-- 字下げするかどうかによらず、示された文は元の範囲に読み戻せる。 -/
theorem spans?_listing (t : Transformer) (indented : Bool) (r : Reading) :
    (Value.parse? (t.listing indented [r])).bind Value.spans? = some (t.findMatches r.text) := by
  have hline : Spaces ['\n'] := by simp [Spaces, isSpace]
  have hparse : Value.parse? (t.listing indented [r]) = some (t.readingJson r) := by
    rw [listing, List.flatMap_singleton]
    exact Value.parse?_reads (t.reads_readingJson indented r) hline
  rw [hparse]
  exact t.spans?_readingJson r

end Transformer

end GroupedVariants
