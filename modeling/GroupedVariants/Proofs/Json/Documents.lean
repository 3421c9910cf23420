import GroupedVariants.Proofs.Json.Reading

/-!
# 一行ずつ続けて書いた値は、元の値に読み戻せる
-/

namespace GroupedVariants.Json

variable {g : List Char} {fuel : Nat}

/-- 値とその綴りの組を、綴りごとに行を改めて続けた文。 -/
def linesOf (ds : List (Value × List Char)) : List Char := ds.flatMap fun d => d.2 ++ ['\n']

end GroupedVariants.Json
