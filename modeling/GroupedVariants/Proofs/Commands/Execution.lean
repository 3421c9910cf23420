import GroupedVariants.Proofs.Commands.Agreement
import GroupedVariants.Proofs.Commands.Rewriting
import GroupedVariants.Proofs.Files.Discovery

/-!
# 命令の残すもの

命令の結果は、設定の拡張子で集めた入力と、検査を通った区切り文字とで決まる。
-/

namespace GroupedVariants.CommandLine.Command

/-! ## 命令ごとの結果 -/

variable (d : Display) (c : Config) (t : Transformer) (records : List Log.Record) (s : Sources)
  (paths : List (List Char))

end GroupedVariants.CommandLine.Command
