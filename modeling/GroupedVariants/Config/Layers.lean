import GroupedVariants.Config
import GroupedVariants.Files.Access
import GroupedVariants.Log.Record

/-!
# 設定の重ね方

既定値、ファイル、環境変数、引数の順に重ね、後のものが勝つ。
-/

namespace GroupedVariants

/-- 環境変数。値は綴りのままのバイト列。 -/
abbrev Environment := List (String × ByteArray)

/-- UTF-8 でない値は、ないものとして扱う。 -/
def Environment.text? (env : Environment) (name : String) : Option (List Char) :=
  (env.lookup name >>= String.fromUTF8?).map String.toList

/-- 役ごとの上書き。 -/
abbrev Overrides := Role → Option Char

def Delimiters.override (d : Delimiters) (o : Overrides) : Delimiters :=
  ⟨(o .variant).getD d.variant, (o .opening).getD d.opening, (o .closing).getD d.closing,
    (o .separator).getD d.separator⟩

namespace Config

/-! ## ファイル -/

inductive LoadFault where
  | unreadable (path : List Char) (cause : Files.Fault)
  | unparsable (path : List Char) (cause : Unreadable)

def LoadFault.message : LoadFault → List Char
  | unreadable path cause =>
    "failed to read config file '".toList ++ path ++ "': ".toList ++ cause.message.toList
  | unparsable path cause =>
    "failed to parse config file '".toList ++ path ++ "': ".toList ++ cause.message.toList

def ofFile (tree : Files.Tree) (path : List Char) : Except LoadFault Config :=
  match tree.readText path with
  | .error cause => .error (.unreadable path cause)
  | .ok text => (ofYaml (String.ofList text)).mapError (.unparsable path ·)

def base (tree : Files.Tree) : Option (List Char) → Except LoadFault Config
  | none => .ok {}
  | some path => ofFile tree path

/-! ## 環境変数 -/

def variableName : Role → String
  | .variant => "VGROUP_VARIANT_CHAR"
  | .opening => "VGROUP_OPEN_CHAR"
  | .closing => "VGROUP_CLOSE_CHAR"
  | .separator => "VGROUP_SEPARATOR_CHAR"

def extensionsVariable : String := "VGROUP_EXTENSIONS"

def singleChar? : List Char → Option Char
  | [c] => some c
  | _ => none

def environmentOverrides (env : Environment) : Overrides :=
  fun r => env.text? (variableName r) >>= singleChar?

/-- 一文字でない値は使わず、そのことを記録する。 -/
def ignoredValue? (env : Environment) (r : Role) : Option Log.Record :=
  match env.text? (variableName r) with
  | none => none
  | some value =>
    if (singleChar? value).isSome then none
    else some ⟨.warn, "vgroup::config",
      "ignoring override, expected one character key=\"".toList ++ (variableName r).toList ++
        "\" value=".toList ++ value⟩

def ignoredValues (env : Environment) : List Log.Record := Role.all.filterMap (ignoredValue? env)

/-- 空白を除いてから頭の点を除き、何も残らないものは捨てる。 -/
def parseExtensions (list : List Char) : List String :=
  let parts := (Text.split ',' list).map fun part => (Text.trim part).dropWhile (· == '.')
  (parts.filter (!·.isEmpty)).map String.ofList

/-! ## 重ねた結果 -/

def withEnvironment (env : Environment) (c : Config) : Config where
  delimiters := c.delimiters.override (environmentOverrides env)
  extensions :=
    match env.text? extensionsVariable with
    | some list => parseExtensions list
    | none => c.extensions

def load (tree : Files.Tree) (env : Environment) (path? : Option (List Char)) :
    Except LoadFault Config :=
  (base tree path?).map (withEnvironment env)

def withFlags (flags : Overrides) (c : Config) : Config :=
  { c with delimiters := c.delimiters.override flags }

def invalidMessage (e : Delimiters.Fault) : List Char :=
  "configuration validation failed: ".toList ++ e.message.toList

end Config

end GroupedVariants
