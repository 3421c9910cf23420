import GroupedVariants.Text.Parts
import GroupedVariants.Text.Numeral

/-!
# 四つの区切り文字と、その組が使えるかどうか
-/

namespace GroupedVariants

/-! ## 文字の綴り -/

namespace Text

/-- 間隔文字のほかの空白と字形のない文字は番号で、一重引用符と逆斜線は逆斜線を添えて書く。 -/
def spelledBody (c : Char) : List Char :=
  if c == '\t' then ['\\', 't']
  else if c == '\n' then ['\\', 'n']
  else if c == '\r' then ['\\', 'r']
  else if c == '\x27' || c == '\\' then ['\\', c]
  else if c == ' ' then [c]
  else if isBlank c || c == byteOrderMark then ['\\', 'u', '{'] ++ hex c.toNat ++ ['}']
  else [c]

def spelled (c : Char) : String :=
  String.ofList ('\x27' :: spelledBody c ++ ['\x27'])

end Text

/-! ## 四つの役 -/

/-- 区切り文字の役。並びは宣言の順。 -/
inductive Role where
  | variant
  | opening
  | closing
  | separator
  deriving DecidableEq, Repr

def Role.all : List Role := [.variant, .opening, .closing, .separator]

/-- 設定とメッセージに出る名。 -/
def Role.name : Role → String
  | .variant => "variant_char"
  | .opening => "expand_open_char"
  | .closing => "expand_close_char"
  | .separator => "separator_char"

structure Delimiters where
  variant : Char := ':'
  opening : Char := '('
  closing : Char := ')'
  separator : Char := ','
  deriving DecidableEq, Repr

namespace Delimiters

def get (d : Delimiters) : Role → Char
  | .variant => d.variant
  | .opening => d.opening
  | .closing => d.closing
  | .separator => d.separator

def set (d : Delimiters) (c : Char) : Role → Delimiters
  | .variant => { d with variant := c }
  | .opening => { d with opening := c }
  | .closing => { d with closing := c }
  | .separator => { d with separator := c }

/-- 使えない組である理由。 -/
inductive Fault where
  | reserved (role : Role) (char : Char)
  | collision (first second : Role) (char : Char)
  deriving DecidableEq, Repr

def Fault.code : Fault → String
  | .reserved .. => "RESERVED_DELIMITER"
  | .collision .. => "DELIMITER_COLLISION"

def Fault.message : Fault → String
  | .reserved role char =>
      "reserved delimiter: " ++ role.name ++ " cannot be " ++ Text.spelled char ++
        ", it is a token-breaking character"
  | .collision first second char =>
      "delimiter collision: " ++ first.name ++ " and " ++ second.name ++ " are both '" ++
        String.singleton char ++ "'"

/-- 宣言の順で初めの、語を切る文字を当てた役。 -/
def firstReserved (d : Delimiters) : Option Role :=
  Role.all.find? fun r => Text.isBreaking (d.get r)

/-- 相異なる二つの役の組。位置の辞書式の順。 -/
def rolePairs : List (Role × Role) :=
  [(.variant, .opening), (.variant, .closing), (.variant, .separator),
   (.opening, .closing), (.opening, .separator), (.closing, .separator)]

def firstCollision (d : Delimiters) : Option (Role × Role) :=
  rolePairs.find? fun p => d.get p.1 == d.get p.2

/-- 語を切る文字を先に咎め、それがなければ重なりを咎める。 -/
def check (d : Delimiters) : Except Fault Unit :=
  match d.firstReserved with
  | some r => .error (.reserved r (d.get r))
  | none =>
    match d.firstCollision with
    | some (a, b) => .error (.collision a b (d.get a))
    | none => .ok ()

end Delimiters

end GroupedVariants
