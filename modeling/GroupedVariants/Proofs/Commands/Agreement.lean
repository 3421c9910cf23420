import GroupedVariants.Program
import GroupedVariants.Proofs.Commands.Pass
import GroupedVariants.Proofs.Json.Documents
import GroupedVariants.Proofs.Listing

/-!
# 書き戻さない命令どうしの一致

展開も検査も範囲の一覧も、同じ入力を読み、同じところで止まる。検査が挙げるのは、一覧に範囲のある入力だけである。
-/

namespace GroupedVariants

variable {s : Sources} {i : Input} {is : List Input} {f : ReadFault} {text : List Char}

/-! ## 読むだけの命令が読むもの -/

namespace Sources

/-- 初めの読めない入力の手前までの入力と、その文。 -/
def readings (s : Sources) (is : List Input) : List Reading :=
  (s.readable is).flatMap fun i =>
    match i.read s with
    | .ok text => [⟨i, text⟩]
    | .error _ => []

/-- 読めない入力があれば 2、なければ 0。 -/
def code (s : Sources) (is : List Input) : Nat := if (s.firstFault? is).isSome then 2 else 0

end Sources

namespace Transformer

variable {t : Transformer}

end Transformer

/-! ## 一覧の読み戻し -/

namespace Transformer

end Transformer

namespace CommandLine.Command

variable (d : Display) (c : Config) (t : Transformer) (records : List Log.Record) (s : Sources)
  (paths : List (List Char))

end CommandLine.Command

end GroupedVariants
