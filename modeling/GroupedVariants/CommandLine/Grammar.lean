import GroupedVariants.Delimiters

/-!
# 命令と、その引数の種類
-/

namespace GroupedVariants.CommandLine

abbrev Word := List Char

/-- 名の付いた引数。 -/
inductive Switch where
  | config
  | delimiter (r : Role)
  | write
  | pretty
  | help
  | version
  deriving DecidableEq, Repr

namespace Switch

def long : Switch → String
  | config => "config"
  | delimiter .variant => "variant-char"
  | delimiter .opening => "open-char"
  | delimiter .closing => "close-char"
  | delimiter .separator => "separator-char"
  | write => "write"
  | pretty => "pretty"
  | help => "help"
  | version => "version"

def short? : Switch → Option Char
  | config => some 'c'
  | write => some 'w'
  | help => some 'h'
  | version => some 'V'
  | delimiter _ | pretty => none

/-- 値を取るなら、その呼び名。 -/
def valueName? : Switch → Option String
  | config => some "CONFIG"
  | delimiter .variant => some "VARIANT_CHAR"
  | delimiter .opening => some "OPEN_CHAR"
  | delimiter .closing => some "CLOSE_CHAR"
  | delimiter .separator => some "SEPARATOR_CHAR"
  | write | pretty | help | version => none

def about : Switch → String
  | config => "Path to a YAML config file"
  | delimiter .variant => "Character separating a variant from its body"
  | delimiter .opening => "Character opening a group"
  | delimiter .closing => "Character closing a group"
  | delimiter .separator => "Character separating items within a group"
  | write => "Rewrite changed files in place instead of printing"
  | pretty => "Pretty-print the JSON"
  | help => "Print help"
  | version => "Print version"

/-- 長い名と値の呼び名。 -/
def shown (s : Switch) : String :=
  match s.valueName? with
  | some value => "--" ++ s.long ++ " <" ++ value ++ ">"
  | none => "--" ++ s.long

end Switch

/-- 引数を読む場。`top` は命令の名より前。 -/
inductive Scope where
  | top
  | expand
  | check
  | spans
  | repl
  | config
  deriving DecidableEq, Repr

namespace Scope

def commands : List Scope := [.expand, .check, .spans, .repl, .config]

def name : Scope → String
  | top => "vgroup"
  | expand => "expand"
  | check => "check"
  | spans => "matches"
  | repl => "repl"
  | config => "config"

def about : Scope → String
  | top => "Expand grouped variant shorthand in utility-class markup"
  | expand => "Expand files, directories or stdin"
  | check => "List inputs that contain expandable groups (exit code 1 if any)"
  | spans => "Print resolved group spans as JSON"
  | repl => "Start interactive REPL"
  | config => "Print the effective configuration as YAML"

def switches : Scope → List Switch
  | top => .config :: Role.all.map .delimiter ++ [.help, .version]
  | expand => [.write, .help]
  | spans => [.pretty, .help]
  | check | repl | config => [.help]

def takesPaths : Scope → Bool
  | expand | check | spans => true
  | top | repl | config => false

def ofName? (w : Word) : Option Scope := commands.find? fun s => s.name.toList == w

def ofLong? (s : Scope) (name : Word) : Option Switch :=
  s.switches.find? fun x => x.long.toList == name

def ofShort? (s : Scope) (c : Char) : Option Switch := s.switches.find? (·.short? == some c)

end Scope

/-- 使い方を示す命令の名。 -/
def helpWord : Word := "help".toList

def pathsShown : String := "[PATHS]..."

/-- 使い方を示す対象。 -/
inductive Topic where
  | scope (s : Scope)
  | help
  deriving DecidableEq, Repr

def Topic.ofName? (w : Word) : Option Topic :=
  if w = helpWord then some .help else (Scope.ofName? w).map .scope

inductive Command where
  | expand (write : Bool) (paths : List Word)
  | check (paths : List Word)
  | spans (indented : Bool) (paths : List Word)
  | repl
  | config
  deriving DecidableEq, Repr

end GroupedVariants.CommandLine
