import GroupedVariants.Proofs.Commands.Execution
import GroupedVariants.Proofs.Config.Document
import GroupedVariants.Proofs.Text.Utf8

/-!
# 重ねた設定と、その使われ方

それぞれの値は、引数、環境変数、ファイル、既定値の順で、初めに定められたものになる。検査するのは重ね終えた区切り文字だけであり、それが通ったときに限って命令が実行される。
-/

namespace GroupedVariants

open Text (encodeUtf8)

namespace Environment

end Environment

namespace Config

variable {tree : Files.Tree} {env : Environment} {path? : Option (List Char)} {flags : Overrides}
  {c loaded : Config} {r : Role} {ch : Char}

/-- 一文字でない環境変数の下からは、既定値ではなくファイルの値が出る。 -/
example :
    let root : Files.Entry := .directory
      [("c".toList, .file (encodeUtf8 "transform:\n  expand_open_char: '['\n".toList))]
    (load ⟨root, []⟩ [("VGROUP_OPEN_CHAR", encodeUtf8 "<<".toList)] (some "c".toList)).toOption.map
      (·.delimiters.opening) = some '[' := by
  cbv

end Config

namespace Transformer

variable {d : Delimiters}

end Transformer

namespace CommandLine.Invocation

variable {i : Invocation} {env : Environment} {s : Sources}

end CommandLine.Invocation

end GroupedVariants
