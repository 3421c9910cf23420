import GroupedVariants.CommandLine.Help
import GroupedVariants.CommandLine.Reader
import GroupedVariants.Log.Filter
import GroupedVariants.Repl
import GroupedVariants.Text.Utf8

/-!
# 命令の実行
-/

namespace GroupedVariants

/-- 実行の後に残るもの。 -/
structure Outcome where
  code : Nat
  stdout : List Char := []
  stderr : List Char := []
  tree : Files.Tree

/-- 記録の選び方と、飾りの有無。 -/
structure Display where
  filter : Log.Filter
  colored : Bool

namespace Display

def logVariable : String := "RUST_LOG"

def colorVariable : String := "CLICOLOR_FORCE"

/-- 飾りは、零でない値で求められたときだけ付ける。 -/
def ofEnvironment (env : Environment) : Display where
  filter := .ofVariable (env.text? logVariable)
  colored := (env.text? colorVariable).any (· != ['0'])

def label (d : Display) (style : Text.Style) (s : String) : List Char :=
  Text.styled d.colored style s.toList

def failure (d : Display) (message : List Char) : List Char :=
  d.label .red "Error" ++ ": ".toList ++ message ++ ['\n']

def rewritten (d : Display) (r : Report) : List Char :=
  d.label .green "Rewrote" ++ ' ' :: Text.decimal r.changed.length ++ " of ".toList ++
    Text.decimal r.scanned ++ " file(s)\n".toList

def clean (d : Display) (r : Report) : List Char :=
  d.label .green "OK" ++ ' ' :: Text.decimal r.scanned ++
    " input(s) scanned, nothing to expand\n".toList

def found (d : Display) (r : Report) : List Char :=
  d.label .yellow "Found" ++ ' ' :: Text.decimal r.changed.length ++ " of ".toList ++
    Text.decimal r.scanned ++ " input(s) contain grouped variants\n".toList

def changedLabels (d : Display) (r : Report) : List Char :=
  r.changed.flatMap fun s => Text.styled d.colored .yellow s ++ ['\n']

end Display

/-- 展開した文が出る先のない書き戻し。 -/
def writeNeedsPaths : String := "--write needs file or directory paths"

/-- 失敗すると 2 で終わる。`records` はそれまでの記録。 -/
def Outcome.failed (d : Display) (records : List Log.Record) (stdout message : List Char)
    (tree : Files.Tree) : Outcome :=
  ⟨2, stdout, d.filter.write records ++ d.failure message, tree⟩

namespace CommandLine.Command

def readsStdin : Command → Bool
  | expand _ paths | check paths | spans _ paths => paths.isEmpty
  | repl => true
  | config => false

def paths : Command → List (List Char)
  | expand _ paths | check paths | spans _ paths => paths
  | repl | config => []

/-- 検査を通った区切り文字での実行。 -/
def run (d : Display) (c : Config) (t : Transformer) (records : List Log.Record) (s : Sources) :
    Command → Outcome
  | expand write paths =>
    let inputs := s.tree.inputs c.extensions paths
    let records := records ++ s.tree.walkRecords c.extensions paths
    if write && inputs.contains .stdin then
      .failed d records [] writeNeedsPaths.toList s.tree
    else
      let p := t.expandPass write s inputs
      let records := records ++ p.readings.flatMap (t.rewriteRecords write)
      let stdout := Transformer.expansion t write p.readings
      match p.result (t.report p.readings) with
      | .error f => .failed d records stdout f.message p.sources.tree
      | .ok r =>
        ⟨0, stdout, d.filter.write records ++ (if write then d.rewritten r else []),
          p.sources.tree⟩
  | check paths =>
    let p := Pass.inspect s (s.tree.inputs c.extensions paths)
    let records := records ++ s.tree.walkRecords c.extensions paths ++
      p.readings.flatMap (t.scanRecords ·.text)
    match p.result (t.survey p.readings) with
    | .error f => .failed d records [] f.message s.tree
    | .ok r =>
      if r.changed.isEmpty then ⟨0, [], d.filter.write records ++ d.clean r, s.tree⟩
      else ⟨1, d.changedLabels r, d.filter.write records ++ d.found r, s.tree⟩
  | spans indented paths =>
    let p := Pass.inspect s (s.tree.inputs c.extensions paths)
    let records := records ++ s.tree.walkRecords c.extensions paths ++
      p.readings.flatMap (t.scanRecords ·.text)
    let stdout := t.listing indented p.readings
    match p.result () with
    | .error f => .failed d records stdout f.message s.tree
    | .ok () => ⟨0, stdout, d.filter.write records, s.tree⟩
  | repl =>
    let talk := Repl.run t d.colored s.stdin
    ⟨0, talk.shown, d.filter.write (records ++ talk.records), s.tree⟩
  | config => ⟨0, c.toYaml.toList, d.filter.write records, s.tree⟩

end CommandLine.Command

namespace CommandLine

/-- 設定を読み終えるまでの記録。 -/
def Invocation.loadRecords (i : Invocation) (env : Environment) : List Log.Record :=
  Config.ignoredValues env ++
    (i.config.map fun path =>
      (⟨.debug, "vgroup", "loaded config path=".toList ++ path⟩ : Log.Record)).toList

/-- 設定を重ねて検査し、命令を実行する。 -/
def Invocation.run (i : Invocation) (env : Environment) (s : Sources) : Outcome :=
  let d := Display.ofEnvironment env
  match Config.load s.tree env i.config with
  | .error f => .failed d [] [] f.message s.tree
  | .ok loaded =>
    let c := loaded.withFlags i.flags
    match Transformer.ofDelimiters c.delimiters with
    | .error f => .failed d (i.loadRecords env) [] (Config.invalidMessage f) s.tree
    | .ok t => i.command.run d c t (i.loadRecords env) s

def Stop.outcome (setting : List Char) (tree : Files.Tree) : Stop → Outcome
  | help topic true => ⟨0, (Help.page setting topic).write, [], tree⟩
  | help topic false => ⟨2, [], (Help.page setting topic).write, tree⟩
  | version => ⟨0, versionText.toList, [], tree⟩
  | fault f => ⟨2, [], "error: ".toList ++ f.message ++ ['\n'], tree⟩

end CommandLine

namespace Program

/-- 実行が見る環境変数。 -/
def watched : List String :=
  CommandLine.configVariable :: Display.logVariable :: Display.colorVariable ::
    Config.extensionsVariable :: Role.all.map Config.variableName

def configSetting? (env : Environment) : Option (List Char) :=
  (env.lookup CommandLine.configVariable).map fun b => Text.decodeLossy b.toList

/-- 標準入力を読むことのある実行。 -/
def readsStdin (words : List (List Char)) (env : Environment) : Bool :=
  match CommandLine.parse (configSetting? env) words with
  | .ok i => i.command.readsStdin
  | .error _ => false

/-- 実行が開くことのあるパス。 -/
def namedPaths (words : List (List Char)) (env : Environment) : List (List Char) :=
  match CommandLine.parse (configSetting? env) words with
  | .ok i => i.config.toList ++ i.command.paths
  | .error _ => []

def run (words : List (List Char)) (env : Environment) (s : Sources) : Outcome :=
  match CommandLine.parse (configSetting? env) words with
  | .error stop => stop.outcome ((configSetting? env).getD []) s.tree
  | .ok i => i.run env s

end Program

end GroupedVariants
