import GroupedVariants.Proofs.Config.Layers
import GroupedVariants.Proofs.Files.Tree
import GroupedVariants.Proofs.Yaml.Layout

/-!
# 書いた設定の読み戻し

区切り文字も拡張子も、どの文字列であっても、書いた文書から元の設定に戻る。
-/

namespace GroupedVariants

open Yaml (Node Key)
open Yaml.Layout (ValidFields entries writeFields)

/-! ## 書いた文書 -/

namespace Config

variable {c : Config}

theorem valid_ofText (s : List Char) : (⟨s, .ofText s⟩ : Yaml.Scalar).Valid := by
  rintro hplain rfl
  cases hplain

def delimiterFields (d : Delimiters) : List (List Char × Yaml.Layout) :=
  Role.all.map fun r => (r.name.toList, .scalar ⟨[d.get r], .singleQuoted⟩)

def extensionItems (extensions : List String) : List Yaml.Scalar :=
  extensions.map fun e => ⟨e.toList, .ofText e.toList⟩

def sections (c : Config) : List (List Char × Yaml.Layout) :=
  [("transform".toList, .record (delimiterFields c.delimiters)),
    ("files".toList, .record [("extensions".toList, .list (extensionItems c.extensions))])]

theorem layout_eq (c : Config) : c.layout = .record c.sections := rfl

theorem toList_toYaml (c : Config) : c.toYaml.toList = writeFields 0 c.sections := by
  rw [toYaml, layout_eq, String.toList_ofList]

theorem key_transform : Key "transform".toList := ⟨by decide, by decide, 't', rfl, by decide⟩

theorem key_files : Key "files".toList := ⟨by decide, by decide, 'f', rfl, by decide⟩

theorem key_extensions : Key "extensions".toList := ⟨by decide, by decide, 'e', rfl, by decide⟩

theorem key_name (r : Role) : Key r.name.toList := by
  cases r with
  | variant => exact ⟨by decide, by decide, 'v', rfl, by decide⟩
  | opening => exact ⟨by decide, by decide, 'e', rfl, by decide⟩
  | closing => exact ⟨by decide, by decide, 'e', rfl, by decide⟩
  | separator => exact ⟨by decide, by decide, 's', rfl, by decide⟩

theorem validFields_map {α : Type} {key : α → List Char} {value : α → Yaml.Layout}
    (h : ∀ a, Key (key a) ∧ (value a).Valid) (l : List α) :
    ValidFields (l.map fun a => (key a, value a)) := by
  induction l with
  | nil => trivial
  | cons a l ih => exact ⟨(h a).1, (h a).2, ih⟩

theorem validFields_sections (c : Config) : ValidFields c.sections := by
  have hdelimiters : ValidFields (delimiterFields c.delimiters) := by
    refine validFields_map (fun r => ⟨key_name r, ?_⟩) Role.all
    intro hplain
    cases hplain
  have hitems : ∀ x ∈ extensionItems c.extensions, x.Valid := by
    intro x hx
    obtain ⟨e, -, rfl⟩ := List.mem_map.mp hx
    exact valid_ofText e.toList
  exact ⟨key_transform, ⟨List.cons_ne_nil _ _, hdelimiters⟩, key_files,
    ⟨List.cons_ne_nil _ _, key_extensions, hitems, trivial⟩, trivial⟩

/-! ## 読み戻した値 -/

theorem readDelimiters_entries (d : Delimiters) :
    readDelimiters (.mapping (entries (delimiterFields d))) = some d := by
  rfl

theorem readExtensions_items (extensions : List String) :
    readExtensions (Yaml.Layout.list (extensionItems extensions)).node = some extensions := by
  have htext (e : String) :
      (Yaml.Layout.itemNode ⟨e.toList, .ofText e.toList⟩).text?.map String.ofList =
        pure (id e) := congrArg some String.ofList_toList
  change ((extensionItems extensions).map Yaml.Layout.itemNode).mapM
    (fun x => x.text?.map String.ofList) = _
  rw [extensionItems, List.map_map, List.mapM_map]
  simp only [Function.comp_def, htext]
  rw [List.mapM_pure, List.map_id]
  rfl

theorem readFields_cons {α : Type} {known seen : List (List Char)}
    {set : α → List Char → Node → Option α} {a a' : α} {name : List Char} {v : Node}
    (hknown : name ∈ known) (hfresh : name ∉ seen) (hset : set a name v = some a')
    (es : List (Node × Node)) :
    readFields known set seen a ((.scalar name true, v) :: es) =
      readFields known set (name :: seen) a' es := by
  rw [readFields]
  simp [Node.text?, hknown, hfresh, hset]

theorem ofNode?_entries (c : Config) : ofNode? (.mapping (entries c.sections)) = some c := by
  have hfiles : readFiles (.mapping (entries
      [("extensions".toList, .list (extensionItems c.extensions))])) = some c.extensions := by
    change readFields ["extensions".toList] (fun _ _ v => readExtensions v) [] defaultExtensions
      [(.scalar "extensions".toList true, _)] = _
    rw [readFields_cons List.mem_cons_self List.not_mem_nil (readExtensions_items c.extensions)]
    rfl
  have htransform : setSection {} "transform".toList
      (.mapping (entries (delimiterFields c.delimiters))) =
        some { delimiters := c.delimiters } := by
    rw [setSection, readDelimiters_entries]
    rfl
  have hsection (c' : Config) : setSection c' "files".toList (.mapping (entries
      [("extensions".toList, .list (extensionItems c.extensions))])) =
        some { c' with extensions := c.extensions } := by
    rw [setSection, hfiles]
    rfl
  exact (readFields_cons List.mem_cons_self List.not_mem_nil htransform _).trans
    (readFields_cons (by decide) (by decide) (hsection _) [])

theorem ofYaml_text (c : Config) : ofYaml c.toYaml = .ok c := by
  have hblank : Text.isAllBlank c.toYaml.toList = false := by
    rw [toList_toYaml]
    rfl
  have hdocument : document c.toYaml.toList = .ok (some (.mapping (entries c.sections))) := by
    rw [document, hblank, toList_toYaml]
    exact Yaml.parse_writeFields (List.cons_ne_nil _ _) (validFields_sections c)
  rw [ofYaml, hdocument]
  simp only [ofNode?_entries]

/-! ## 出力した設定の読み直し -/

/-- 環境変数にも引数にも、効く上書きがない。 -/
structure Unoverridden (env : Environment) (flags : Overrides) : Prop where
  environment : ∀ r, environmentOverrides env r = none
  extensions : env.text? extensionsVariable = none
  flags : ∀ r, flags r = none

theorem override_none {o : Overrides} (h : ∀ r, o r = none) (d : Delimiters) :
    d.override o = d := by
  simp [Delimiters.override, h]

theorem Unoverridden.withFlags_eq {env : Environment} {flags : Overrides}
    (h : Unoverridden env flags) (c : Config) : (c.withEnvironment env).withFlags flags = c := by
  rw [withFlags, withEnvironment, override_none h.environment, override_none h.flags, h.extensions]

/-- 根に一つのファイル `c` だけがある木。 -/
def single (text : List Char) : Files.Tree :=
  ⟨.directory [("c".toList, .file (Text.encodeUtf8 text))], []⟩

theorem readText_single (text : List Char) : (single text).readText "/c".toList = .ok text := by
  have hlocate : (single text).locate "/c".toList = .ok ["c".toList] := by
    change Files.Entry.resolve _ Files.linkLimit [] ["c".toList] = _
    rw [Files.Entry.resolve_cons]
    rfl
  exact Files.Tree.readText_eq_ok_iff.mpr ⟨["c".toList], hlocate, rfl⟩

theorem ofFile_toYaml {tree : Files.Tree} {path : List Char} (c : Config)
    (h : tree.readText path = .ok c.toYaml.toList) : ofFile tree path = .ok c := by
  rw [ofFile, h]
  simp only [String.ofList_toList, ofYaml_text]
  rfl

end Config

namespace CommandLine.Invocation

variable {i : Invocation} {env : Environment} {s : Sources} {c : Config}

/-- 重ね終えた設定。 -/
def effective (i : Invocation) (env : Environment) (tree : Files.Tree) :
    Except Config.LoadFault Config :=
  (Config.load tree env i.config).map (·.withFlags i.flags)

theorem effective_toYaml {path : List Char} (hpath : i.config = some path)
    (hread : s.tree.readText path = .ok c.toYaml.toList)
    (h : Config.Unoverridden env i.flags) : i.effective env s.tree = .ok c := by
  rw [effective, hpath, Config.load, Config.base, Config.ofFile_toYaml c hread]
  exact congrArg Except.ok (h.withFlags_eq c)

theorem stdout_config (hcommand : i.command = .config) (h : i.effective env s.tree = .ok c)
    (hcode : (i.run env s).code = 0) : (i.run env s).stdout = c.toYaml.toList := by
  rw [effective] at h
  rw [run] at hcode ⊢
  cases hload : Config.load s.tree env i.config with
  | error f =>
      rw [hload] at h
      cases h
  | ok loaded =>
      rw [hload] at h hcode
      obtain rfl : loaded.withFlags i.flags = c := Except.ok.inj h
      simp only at hcode ⊢
      cases ht : Transformer.ofDelimiters (loaded.withFlags i.flags).delimiters with
      | error f =>
          rw [ht] at hcode
          cases hcode
      | ok t =>
          rw [hcommand]
          rfl

end CommandLine.Invocation

/--
どの設定も、書いた文書から読み戻せる。
命令の出力した文書を、上書きのない別の実行で読んでも、重ね終えた設定は変わらない。
-/
theorem Config.ofYaml_toYaml (c : Config) :
    ofYaml c.toYaml = .ok c ∧
      ∀ (i j : CommandLine.Invocation) (env env' : Environment) (s s' : Sources) (path : List Char),
        i.command = .config → i.effective env s.tree = .ok c → (i.run env s).code = 0 →
        j.config = some path → s'.tree.readText path = .ok (i.run env s).stdout →
        Unoverridden env' j.flags → j.effective env' s'.tree = .ok c := by
  refine ⟨ofYaml_text c, ?_⟩
  intro i j env env' s s' path hcommand heffective hcode hpath hread hplain
  rw [CommandLine.Invocation.stdout_config hcommand heffective hcode] at hread
  exact CommandLine.Invocation.effective_toYaml hpath hread hplain

theorem Config.ofYaml_toYaml_reloaded :
    let i : CommandLine.Invocation := ⟨none, fun _ => none, .config⟩
    let j : CommandLine.Invocation := ⟨some "/c".toList, fun _ => none, .config⟩
    let printed := (i.run [] ⟨⟨.empty, []⟩, .empty⟩).stdout
    j.effective [] (single printed) = .ok {} :=
  (ofYaml_toYaml {}).2 _ _ [] [] ⟨⟨.empty, []⟩, .empty⟩ ⟨_, .empty⟩ "/c".toList rfl rfl rfl rfl
    (readText_single _) ⟨fun r => by cases r <;> rfl, rfl, fun _ => rfl⟩

end GroupedVariants
