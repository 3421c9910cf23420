import GroupedVariants.Commands.Pass
import GroupedVariants.Log.Record
import GroupedVariants.Scan.Notice
import GroupedVariants.Text.Numeral

/-!
# 読んで展開したことの記録
-/

namespace GroupedVariants

namespace Scan.Notice

def scanTarget : String := "vgroup_core::machine"

def text : Notice → List Char
  | expanded start stop =>
    "group expanded start=".toList ++ Text.decimal start ++ " end=".toList ++ Text.decimal stop
  | malformed position depth =>
    "malformed group, keeping literal text position=".toList ++ Text.decimal position ++
      " depth=".toList ++ Text.decimal depth
  | unfinished depth =>
    "input ended inside a group, leaving it literal depth=".toList ++ Text.decimal depth

def record (n : Notice) : Log.Record := ⟨.trace, scanTarget, n.text⟩

end Scan.Notice

namespace Transformer

def scanRecords (t : Transformer) (text : List Char) : List Log.Record :=
  (Scan.notices t.delimiters text).map Scan.Notice.record

/-- 走査の記録に、展開したなら群の数と元の長さを続ける。 -/
def expandRecords (t : Transformer) (text : List Char) : List Log.Record :=
  t.scanRecords text ++
    if t.changes text then
      [⟨.debug, "vgroup_core::transform",
        "expanded grouped variants groups=".toList ++ Text.decimal (t.findMatches text).length ++
          " bytes=".toList ++ Text.decimal (Text.byteLength text)⟩]
    else []

/-- 展開して読んだ入力を書き戻したなら、その記録も続ける。 -/
def rewriteRecords (t : Transformer) (write : Bool) (r : Reading) : List Log.Record :=
  t.expandRecords r.text ++
    match r.input with
    | .file path =>
      if write && t.changes r.text then
        [⟨.info, "vgroup::commands", "rewrote file path=".toList ++ path⟩]
      else []
    | .stdin => []

end Transformer

end GroupedVariants
