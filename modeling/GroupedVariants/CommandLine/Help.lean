import GroupedVariants.CommandLine.Grammar

/-!
# 使い方の説明
-/

namespace GroupedVariants.CommandLine

def versionText : String := "vgroup 0.1.0\n"

def configVariable : String := "VGROUP_CONFIG"

namespace Help

/-- 左の欄と、その説明。 -/
structure Row where
  left : List Char
  about : List Char

structure Section where
  title : String
  rows : List Row
  /-- 説明を次の行に書く -/
  stacked : Bool := false

structure Page where
  about : String
  usage : String
  sections : List Section

/-! ## 書き方 -/

def gap : Nat := 2

def stackedIndent : Nat := 10

def spaces (n : Nat) : List Char := List.replicate n ' '

def Section.width (s : Section) : Nat := s.rows.foldl (fun w r => max w r.left.length) 0

def Section.writeRow (s : Section) (r : Row) : List Char :=
  spaces gap ++ r.left ++
    (if s.stacked then '\n' :: spaces stackedIndent
      else spaces (s.width - r.left.length + gap)) ++
    r.about ++ ['\n']

def Section.write (s : Section) : List Char :=
  '\n' :: s.title.toList ++ ":\n".toList ++ s.rows.flatMap s.writeRow

def Page.write (p : Page) : List Char :=
  p.about.toList ++ "\n\nUsage: ".toList ++ p.usage.toList ++ ['\n'] ++
    p.sections.flatMap Section.write

/-! ## 各命令の説明 -/

def variableNote (setting : List Char) : List Char :=
  ("[env: " ++ configVariable ++ "=").toList ++ setting ++ [']']

/-- 一行に収める幅。 -/
def lineWidth : Nat := 100

def switchLeft (s : Switch) : List Char :=
  (match s.short? with
    | some c => ['-', c, ',', ' ']
    | none => spaces 4) ++ s.shown.toList

/-- 設定ファイルの説明には、環境変数の今の値を添える。 -/
def switchAbout (setting : List Char) (s : Switch) : List Char :=
  match s with
  | .config => s.about.toList ++ ' ' :: variableNote setting
  | _ => s.about.toList

/-- 設定ファイルの説明が行に収まらなければ、どの説明も次の行に書く。 -/
def switchSection (setting : List Char) (s : Scope) : Section :=
  let rows := s.switches.map fun x => ⟨switchLeft x, switchAbout setting x⟩
  let left := (Section.mk "Options" rows false).width
  let about := Switch.config.about.length + (variableNote setting).length
  ⟨"Options", rows, s == .top && lineWidth < left + 2 * gap + about⟩

def pathsSection : Section :=
  ⟨"Arguments", [⟨pathsShown.toList, "Files or directories (stdin if omitted)".toList⟩], false⟩

def helpAbout : String := "Print this message or the help of the given subcommand(s)"

def commandsSection : Section :=
  ⟨"Commands",
    Scope.commands.map (fun s => ⟨s.name.toList, s.about.toList⟩) ++ [⟨helpWord, helpAbout.toList⟩],
    false⟩

def usage : Scope → String
  | .top => "vgroup [OPTIONS] <COMMAND>"
  | .expand => "vgroup expand [OPTIONS] [PATHS]..."
  | .check => "vgroup check [PATHS]..."
  | .spans => "vgroup matches [OPTIONS] [PATHS]..."
  | .repl => "vgroup repl"
  | .config => "vgroup config"

def page (setting : List Char) : Topic → Page
  | .scope s =>
    ⟨s.about, usage s,
      (if s == .top then [commandsSection] else []) ++
        (if s.takesPaths then [pathsSection] else []) ++ [switchSection setting s]⟩
  | .help =>
    ⟨helpAbout, "vgroup help [COMMAND]...",
      [⟨"Arguments", [⟨"[COMMAND]...".toList, "Print help for the subcommand(s)".toList⟩], false⟩]⟩

end Help

end GroupedVariants.CommandLine
