import GroupedVariants.Commands.Record
import GroupedVariants.Text.Styled

/-!
# 一行ずつの対話
-/

namespace GroupedVariants.Repl

/-- 一行の求め。 -/
inductive Request where
  | blank
  | expansion
  | help
  | quit
  | options
  | spans (text : List Char)
  | unknown (name : List Char)
  deriving DecidableEq, Repr

/-- コロンの先を、名と、初めの空白の後の残りに分ける。名は ASCII の大小を問わない。 -/
def command (s : List Char) : Request :=
  let name := s.takeWhile (!Text.isBlank ·)
  let rest := s.drop (name.length + 1)
  match String.ofList (name.map Char.toLower) with
  | "help" | "?" => .help
  | "quit" | "exit" | "q" => .quit
  | "options" | "o" => .options
  | "matches" | "m" => .spans rest
  | _ => .unknown name

def request (line : List Char) : Request :=
  match Text.trimStart line with
  | [] => .blank
  | ':' :: s => command s
  | _ => .expansion

def helpText : String := "
Type any text to see it expanded.

Available commands:
  :help                 Show this help
  :matches <text>       Show the resolved spans of <text>
  :options              Show the active delimiters
  :quit, :exit, :q      Exit the REPL
"

/-! ## 答え -/

def optionsText (colored : Bool) (d : Delimiters) : List Char :=
  let shown (c : Char) := Text.styled colored .yellow [c]
  "variant ".toList ++ shown d.variant ++ "  open ".toList ++ shown d.opening ++
    "  close ".toList ++ shown d.closing ++ "  separator ".toList ++ shown d.separator

def spansText (t : Transformer) (colored : Bool) (text : List Char) : List Char :=
  if text.isEmpty then "Usage: :matches <text>".toList
  else if (t.findMatches text).isEmpty then Text.styled colored .yellow "No groups".toList
  else (t.matchesJson text).pretty 0

/-- 展開で変わらない行は目立たせない。 -/
def expansionText (t : Transformer) (colored : Bool) (line : List Char) : List Char :=
  let expanded := t.expand line
  if expanded = line then Text.styled colored .dim line else Text.styled colored .green expanded

/-- `none` は答えのないことを指す。 -/
def answer? (t : Transformer) (colored : Bool) (line : List Char) : Option (List Char) :=
  match request line with
  | .blank | .quit => none
  | .expansion => some (expansionText t colored line)
  | .help => some helpText.toList
  | .options => some (optionsText colored t.delimiters)
  | .spans text => some (spansText t colored text)
  | .unknown name =>
    some ("Unknown command: ".toList ++ name ++
      ". Type ':help' for available commands.".toList)

/-- 答えには空の行が続く。 -/
def reply (t : Transformer) (colored : Bool) (line : List Char) : List Char :=
  match answer? t colored line with
  | some text => text ++ ['\n', '\n']
  | none => []

def records (t : Transformer) (line : List Char) : List Log.Record :=
  match request line with
  | .expansion => t.expandRecords line
  | .spans text => if text.isEmpty then [] else t.scanRecords text
  | _ => []

/-! ## 入力の行 -/

/-- 行に分ける。改行は行に含み、最後の行には改行のないことがある。 -/
def splitLines : List UInt8 → List (List UInt8)
  | [] => []
  | b :: s =>
    if b = 10 then [b] :: splitLines s
    else
      match splitLines s with
      | [] => [[b]]
      | l :: ls => (b :: l) :: ls

/-- 改行を除く。改行の前の復帰も除く。 -/
def stripBreak (s : List Char) : List Char :=
  match s.reverse with
  | '\n' :: '\r' :: r => r.reverse
  | '\n' :: r => r.reverse
  | _ => s

/-- 一行。UTF-8 でなければ文はない。 -/
def lineText? (bytes : List UInt8) : Option (List Char) :=
  (String.fromUTF8? ⟨bytes.toArray⟩).map fun s => stripBreak s.toList

def linesOf (stdin : ByteArray) : List (Option (List Char)) :=
  (splitLines stdin.toList).map lineText?

/-! ## 対話の全体 -/

structure Transcript where
  shown : List Char
  records : List Log.Record

def Transcript.after (shown : List Char) (records : List Log.Record) (rest : Transcript) :
    Transcript :=
  ⟨shown ++ rest.shown, records ++ rest.records⟩

def banner (colored : Bool) : List Char :=
  Text.styled colored .boldCyan "vgroup REPL".toList ++
    "\nType ':help' for available commands.\n\n".toList

def undecodable (colored : Bool) : List Char :=
  Text.styled colored .red "Error".toList ++
    ": Io(Error \x7b kind: InvalidData, message: \"stream did not contain valid UTF-8\" \x7d)\n".toList

/-- 端末でない入力から一行を読む前の記録。 -/
def readRecord : Log.Record := ⟨.debug, "rustyline", "stdin is not a tty".toList⟩

def runLines (t : Transformer) (colored : Bool) : List (Option (List Char)) → Transcript
  | [] => ⟨"^D\n".toList, [readRecord]⟩
  | none :: _ => ⟨undecodable colored, [readRecord]⟩
  | some line :: rest =>
    if request line = .quit then ⟨[], [readRecord]⟩
    else (runLines t colored rest).after (reply t colored line) (readRecord :: records t line)

def run (t : Transformer) (colored : Bool) (stdin : ByteArray) : Transcript :=
  (runLines t colored (linesOf stdin)).after (banner colored) []

end GroupedVariants.Repl
