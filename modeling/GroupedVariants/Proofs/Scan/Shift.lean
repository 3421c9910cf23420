import GroupedVariants.Proofs.Scan.Transfer
import GroupedVariants.Transformer

/-!
# 読み始める位置をずらしても、見つかる範囲はその分ずれるだけである
-/

namespace GroupedVariants

open Text

def Match.shift (n : Nat) (m : Match) : Match := { m with start := n + m.start, stop := n + m.stop }

namespace Transfer

/-- 文字を変えず、位置を `n` だけ後ろへずらす。 -/
def shift (n : Nat) : Transfer := ⟨id, (n + ·)⟩

theorem shift_follows (n o : Nat) (s : List Char) : (shift n).Follows o s := by
  intro u v _
  simp [shift, Nat.add_assoc]

end Transfer

theorem Match.transfer_shift (n : Nat) : Match.transfer (.shift n) = Match.shift n := by
  funext m
  simp [transfer, Transfer.shift, shift]

namespace Scan.Machine

/-- 語の間から読み始めたときに見つかる範囲。 -/
theorem found_run_idle (d : Delimiters) (o : Nat) (ms : List Match) (text : List Char) :
    (run d ⟨.idle, o, [], ms⟩ text).found = ms ++ (d.findMatches text).map (Match.shift o) := by
  have hstart : (⟨.idle, o, [], ms⟩ : Machine) = start.transfer (.shift o) ms := by
    simp [transfer, start, State.transfer, Transfer.shift]
  have htext : text = text.map (Transfer.shift o).char := (List.map_id text).symm
  calc (run d ⟨.idle, o, [], ms⟩ text).found
      = ((start.run d text).transfer (.shift o) ms).found := by
        rw [hstart, ← run_transfer (.refl d) (Transfer.shift_follows o _ text), ← htext]
    _ = ms ++ (d.findMatches text).map (Match.shift o) := by
        rw [← Match.transfer_shift]
        rfl

end Scan.Machine

end GroupedVariants
