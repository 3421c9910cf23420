import GroupedVariants.Config.Layers
import GroupedVariants.Proofs.Delimiters

/-!
# 設定ファイルに書かれた値

読めた設定のそれぞれの値は、その鍵に書かれたものだけで決まり、鍵がなければ既定値である。
-/

namespace GroupedVariants

open Yaml (Node)

section

variable {key name : List Char} {k : Node}

end

namespace Delimiters

end Delimiters

namespace Config

variable {tree : Files.Tree} {path? : Option (List Char)} {c : Config} {n v : Node} {r : Role}

/-! ## 組の読み方 -/

section Fields

variable {α β : Type} {known : List (List Char)} {set : α → List Char → Node → Option α}
  {read : Node → Option β} {key : List Char}

end Fields

/-! ## 設定の値 -/

end Config

end GroupedVariants
