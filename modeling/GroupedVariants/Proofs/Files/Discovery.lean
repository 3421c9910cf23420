import GroupedVariants.Proofs.Files.Path
import GroupedVariants.Proofs.Files.Tree

/-!
# 読むものの探し方

ディレクトリの下の、拡張子の合う普通のファイルは、一つも漏れず重ならずに、名の順に並ぶ。下るうちに現れる順にはよらない。
-/

namespace GroupedVariants.Files

variable {tree : Tree} {root e e' : Entry} {ms : List (Name × Entry)} {f p : List Name} {path : List Char}
  {extensions : List String} {yielded yielded' : List (List Name × Entry)}

namespace Entry

/-! ## 木の整い -/

mutual

/-- 一つのディレクトリの中の名は、どれも名になれるもので、互いに異なる。 -/
def wellFormed : Entry → Bool
  | directory ms => wellFormedMembers ms
  | _ => true

def wellFormedMembers : List (Name × Entry) → Bool
  | [] => true
  | (n, e) :: ms =>
    n.wellFormed && (ms.lookup n).isNone && e.wellFormed && wellFormedMembers ms

end

theorem member_wellFormed (h : wellFormedMembers ms = true) {m : Name × Entry} (hm : m ∈ ms) :
    m.1.wellFormed = true ∧ m.2.wellFormed = true := by
  induction ms with
  | nil => cases hm
  | cons k ms ih =>
      obtain ⟨⟨⟨hn, -⟩, he⟩, hms⟩ := by simpa [wellFormedMembers] using h
      obtain rfl | hm := List.mem_cons.mp hm
      · exact ⟨hn, he⟩
      · exact ih hms hm

theorem lookup_eq_some_iff_mem (h : wellFormedMembers ms = true) (n : Name) (e : Entry) :
    ms.lookup n = some e ↔ (n, e) ∈ ms := by
  induction ms with
  | nil => simp
  | cons m ms ih =>
      obtain ⟨k, e'⟩ := m
      obtain ⟨⟨⟨-, hk⟩, -⟩, hms⟩ := by simpa [wellFormedMembers] using h
      by_cases hn : n = k
      · subst hn
        have hnot : (n, e) ∉ ms := fun hmem => absurd rfl (hk n e hmem)
        simp [hnot, eq_comm]
      · have hne : (n == k) = false := by simpa using hn
        simp [List.lookup_cons, hne, hn, ih hms]

theorem member?_eq_some_iff (h : wellFormedMembers ms = true) {n : Name} :
    (directory ms).member? n = some e ↔ (n, e) ∈ ms :=
  lookup_eq_some_iff_mem h n e

theorem wellFormed_of_member? (h : root.wellFormed = true) {n : Name}
    (hmember : root.member? n = some e) : n.wellFormed = true ∧ e.wellFormed = true := by
  cases root with
  | file b => cases hmember
  | link t => cases hmember
  | directory ms => exact member_wellFormed h ((member?_eq_some_iff h).mp hmember)

theorem wellFormed_of_at? (h : root.wellFormed = true) (hat : root.at? p = some e) :
    e.wellFormed = true := by
  induction p generalizing root with
  | nil =>
      obtain rfl : root = e := by simpa [at?] using hat
      exact h
  | cons n p ih =>
      rw [at?_cons] at hat
      obtain ⟨e', hmember, he'⟩ := Option.bind_eq_some_iff.mp hat
      exact ih (wellFormed_of_member? h hmember).2 he'

/-- 下った名は、どれも名になれるものである。 -/
theorem wellFormed_of_mem (h : root.wellFormed = true) (hat : root.at? p = some e) :
    ∀ n ∈ p, n.wellFormed = true := by
  induction p generalizing root with
  | nil => simp
  | cons n p ih =>
      rw [at?_cons] at hat
      obtain ⟨e', hmember, he'⟩ := Option.bind_eq_some_iff.mp hat
      obtain ⟨hn, hwell⟩ := wellFormed_of_member? h hmember
      exact List.forall_mem_cons.mpr ⟨hn, ih hwell he'⟩

/-! ## 下るうちに現れるもの -/

/-- 自らと下にあるすべてのものが、ちょうど一度ずつ、何らかの順で現れる。 -/
structure Yields (e : Entry) (yielded : List (List Name × Entry)) : Prop where
  once : (yielded.map (·.1)).Nodup
  mem_iff : ∀ f e', (f, e') ∈ yielded ↔ e.at? f = some e'

theorem mem_entriesOf :
    (f, e) ∈ entriesOf ms ↔ ∃ n g e', f = n :: g ∧ (n, e') ∈ ms ∧ (g, e) ∈ e'.entries := by
  induction ms with
  | nil => simp [entriesOf]
  | cons m ms ih =>
      obtain ⟨k, e₁⟩ := m
      rw [entriesOf, List.mem_append, ih, List.mem_map]
      constructor
      · rintro (⟨⟨g, e⟩, hg, rfl, rfl⟩ | ⟨n, g, e', rfl, hm, hg⟩)
        · exact ⟨k, g, e₁, rfl, List.mem_cons_self, hg⟩
        · exact ⟨n, g, e', rfl, List.mem_cons_of_mem _ hm, hg⟩
      · rintro ⟨n, g, e', rfl, hm, hg⟩
        obtain heq | hm := List.mem_cons.mp hm
        · cases heq
          exact .inl ⟨(g, e), hg, rfl⟩
        · exact .inr ⟨n, g, e', rfl, hm, hg⟩

theorem mem_entries_iff (h : e.wellFormed = true) : (f, e') ∈ e.entries ↔ e.at? f = some e' := by
  induction f generalizing e with
  | nil => cases e <;> simp [entries, at?, mem_entriesOf, eq_comm]
  | cons n f ih =>
      cases e with
      | file b => simp [entries, at?, member?, members]
      | link t => simp [entries, at?, member?, members]
      | directory ms =>
          rw [at?_cons, Option.bind_eq_some_iff, entries]
          simp only [List.mem_cons, Prod.mk.injEq, reduceCtorEq, false_and, false_or,
            mem_entriesOf, member?_eq_some_iff h, List.cons.injEq]
          constructor
          · rintro ⟨k, g, e₁, ⟨rfl, rfl⟩, hm, hg⟩
            exact ⟨e₁, hm, (ih (member_wellFormed h hm).2).mp hg⟩
          · rintro ⟨e₁, hm, hat⟩
            exact ⟨n, f, e₁, ⟨rfl, rfl⟩, hm, (ih (member_wellFormed h hm).2).mpr hat⟩

mutual

theorem nodup_entries : ∀ e : Entry, e.wellFormed = true → (e.entries.map (·.1)).Nodup
  | file _, _ => by simp [entries]
  | link _, _ => by simp [entries]
  | directory ms, h => by
      have hnil : [] ∉ (entriesOf ms).map (·.1) := fun hmem => by
        obtain ⟨⟨f, e⟩, hmem, rfl⟩ := List.mem_map.mp hmem
        obtain ⟨n, g, e', hf, -⟩ := mem_entriesOf.mp hmem
        cases hf
      exact List.nodup_cons.mpr ⟨hnil, nodup_entriesOf ms h⟩

theorem nodup_entriesOf : ∀ ms : List (Name × Entry), wellFormedMembers ms = true →
    ((entriesOf ms).map (·.1)).Nodup
  | [], _ => by simp [entriesOf]
  | (n, e) :: ms, h => by
      obtain ⟨⟨⟨-, hn⟩, he⟩, hms⟩ := by simpa [wellFormedMembers] using h
      have hbelow : ((e.entries.map fun y => (n :: y.1, y.2)).map (·.1)) =
          (e.entries.map (·.1)).map (n :: ·) := by
        rw [List.map_map, List.map_map]
        rfl
      rw [entriesOf, List.map_append, List.nodup_append, hbelow]
      refine ⟨(nodup_entries e he).map List.cons_injective, nodup_entriesOf ms hms, ?_⟩
      -- 残りの名はどれも `n` と異なるので、続けた名の並びも異なる。
      rintro _ hf g hg rfl
      obtain ⟨f, -, rfl⟩ := List.mem_map.mp hf
      obtain ⟨⟨g, e'⟩, hg, hfg⟩ := List.mem_map.mp hg
      obtain ⟨k, g', e₁, rfl, hm, -⟩ := mem_entriesOf.mp hg
      obtain rfl : k = n := (List.cons.inj hfg).1
      exact hn k e₁ hm rfl

end

theorem yields_entries (h : e.wellFormed = true) : e.Yields e.entries :=
  ⟨nodup_entries e h, fun _ _ => mem_entries_iff h⟩

/-! ## 探し出したもの -/

theorem mem_collect (h : e.Yields yielded) :
    f ∈ collect extensions path yielded ↔
      (∃ bytes, e.bytesAt? f = some bytes) ∧ accepts extensions (join path f) = true := by
  rw [collect, (sortByNames_perm _).mem_iff, List.mem_map]
  simp only [List.mem_filter, Bool.and_eq_true, bytesAt?, Option.bind_eq_some_iff]
  constructor
  · rintro ⟨⟨f, e'⟩, ⟨hmem, hfile, haccepts⟩, rfl⟩
    obtain ⟨bytes, hbytes⟩ := Option.isSome_iff_exists.mp hfile
    exact ⟨⟨bytes, e', (h.mem_iff f e').mp hmem, hbytes⟩, haccepts⟩
  · rintro ⟨⟨bytes, e', hat, hbytes⟩, haccepts⟩
    exact ⟨(f, e'), ⟨(h.mem_iff f e').mpr hat, by rw [hbytes]; rfl, haccepts⟩, rfl⟩

theorem pairwise_collect (h : e.Yields yielded) :
    (collect extensions path yielded).Pairwise (· < ·) :=
  pairwise_sortByNames (h.once.sublist (List.filter_sublist.map _))

/-- 現れる順が違っても、集めた結果は同じである。 -/
theorem collect_eq_of_yields (h : e.Yields yielded) (h' : e.Yields yielded') :
    collect extensions path yielded = collect extensions path yielded' :=
  (pairwise_collect h).eq_of_mem_iff (pairwise_collect h') fun f => by
    rw [mem_collect h, mem_collect h']

/-- ディレクトリ `e` を `path` と呼んで探し出した、読むもの。 -/
structure Discovered (e : Entry) (extensions : List String) (path : List Char)
    (found : List (List Name)) : Prop where
  sorted : found.Pairwise (· < ·)
  once : (found.map (join path)).Nodup
  mem_iff : ∀ f, f ∈ found ↔
    (∃ bytes, e.bytesAt? f = some bytes) ∧ ∃ n, f.getLast? = some n ∧ n.Admitted extensions
  any_order : ∀ yielded, e.Yields yielded → collect extensions path yielded = found

theorem names_of_bytesAt? (h : e.wellFormed = true) (hdir : e.isDirectory = true)
    {bytes : ByteArray} (hbytes : e.bytesAt? f = some bytes) :
    f ≠ [] ∧ ∀ n ∈ f, n.wellFormed = true := by
  have hat := bytesAt?_eq_some_iff.mp hbytes
  refine ⟨?_, wellFormed_of_mem h hat⟩
  rintro rfl
  obtain rfl : e = file bytes := by simpa [at?] using hat
  cases hdir

theorem discovered_collect (h : e.wellFormed = true) (hdir : e.isDirectory = true)
    (extensions : List String) (path : List Char) :
    Discovered e extensions path (collect extensions path e.entries) := by
  have hyields := yields_entries h
  refine ⟨pairwise_collect hyields, ?_, fun f => ?_, fun _ h' => collect_eq_of_yields h' hyields⟩
  · refine List.Nodup.map_on ?_ (pairwise_collect hyields).nodup
    intro f hf g hg hjoin
    obtain ⟨⟨_, hf⟩, -⟩ := (mem_collect hyields).mp hf
    obtain ⟨⟨_, hg⟩, -⟩ := (mem_collect hyields).mp hg
    obtain ⟨hfne, hfnames⟩ := names_of_bytesAt? h hdir hf
    obtain ⟨hgne, hgnames⟩ := names_of_bytesAt? h hdir hg
    exact join_injective path hfnames hgnames hfne hgne hjoin
  · rw [mem_collect hyields]
    refine and_congr_right fun hfile => ?_
    obtain ⟨_, hbytes⟩ := hfile
    obtain ⟨hne, hnames⟩ := names_of_bytesAt? h hdir hbytes
    have hlast := List.getLast?_eq_some_getLast hne
    rw [accepts_join_iff extensions path hlast (hnames _ (List.getLast_mem hne)), hlast]
    simp

end Entry

namespace Tree

theorem inputsAt_eq (tree : Tree) (extensions : List String) :
    tree.inputsAt extensions = fun path =>
      if tree.isDirectoryAt path then
        (tree.discover extensions path).map fun f => .file (join path f)
      else [.file path] := by
  funext path
  rw [inputsAt, walk, List.map_map]
  rfl

/-- 与えたパスの順に、ディレクトリはその下から探し出したものに替え、ほかのパスはそのまま残す。 -/
theorem inputs_eq_flatMap_discover (h : tree.root.wellFormed = true) (extensions : List String)
    {paths : List (List Char)} (hpaths : paths ≠ []) :
    tree.inputs extensions paths =
        paths.flatMap (fun path =>
          if tree.isDirectoryAt path then
            (tree.discover extensions path).map fun f => .file (join path f)
          else [.file path]) ∧
      ∀ path p e, tree.locate path = .ok p → tree.root.at? p = some e → e.isDirectory = true →
        e.Discovered extensions path (tree.discover extensions path) := by
  refine ⟨?_, fun path p e hp hat hdir => ?_⟩
  · have hempty : paths.isEmpty = false := by simpa using hpaths
    rw [inputs, if_neg (by simp [hempty]), inputsAt_eq]
  · have hdiscover : tree.discover extensions path = collect extensions path e.entries := by
      simp [discover, hp, hat]
    rw [hdiscover]
    exact Entry.discovered_collect (Entry.wellFormed_of_at? h hat) hdir extensions path

def pages : Entry :=
  .directory [
    ("a-b.html".toList, .file "x".toUTF8),
    ("a".toList, .directory [
      ("b.HTML".toList, .file "y".toUTF8), ("up".toList, .link "..".toList)]),
    (".html".toList, .file "z".toUTF8)]

/-- 今のディレクトリにあるリンクは、根からたどるパスで外の `pages` を指す。 -/
def site : Tree where
  root := .directory [
    ("srv".toList, .directory [("pages".toList, pages)]),
    ("work".toList, .directory [("alias".toList, .link "/srv/pages".toList)])]
  current := ["work".toList]

theorem locate_alias : site.locate "alias".toList = .ok ["srv".toList, "pages".toList] := by
  change site.root.resolve 40 ["work".toList] ["alias".toList] = _
  rw [Entry.resolve_cons]
  change site.root.resolve 39 [] ["srv".toList, "pages".toList] = _
  rw [Entry.resolve_cons]
  change site.root.resolve 39 ["srv".toList] ["pages".toList] = _
  rw [Entry.resolve_cons]
  change site.root.resolve 39 ["srv".toList, "pages".toList] [] = _
  rw [Entry.resolve_nil]

theorem locate_none : site.locate "/none".toList = .error .missing := by
  change site.root.resolve 40 [] ["none".toList] = _
  rw [Entry.resolve_cons]
  rfl

theorem discover_alias : site.discover ["html"] "alias".toList =
    [["a".toList, "b.HTML".toList], ["a-b.html".toList]] := by
  rw [discover, locate_alias]
  change sortByNames [["a-b.html".toList], ["a".toList, "b.HTML".toList]] = _
  exact sortByNames_eq (.swap ..) (by decide)

theorem inputs_site :
    site.root.wellFormed = true ∧ ["alias".toList, "/none".toList] ≠ [] ∧
      site.inputs ["html"] ["alias".toList, "/none".toList] =
        [.file "alias/a/b.HTML".toList, .file "alias/a-b.html".toList, .file "/none".toList] ∧
      pages.Discovered ["html"] "alias".toList
        [["a".toList, "b.HTML".toList], ["a-b.html".toList]] := by
  have hwell : site.root.wellFormed = true := by decide
  have hpaths : ["alias".toList, "/none".toList] ≠ [] := List.cons_ne_nil _ _
  have hdirectory : site.isDirectoryAt "alias".toList = true := by
    rw [isDirectoryAt, locate_alias]
    rfl
  have hmissing : site.isDirectoryAt "/none".toList = false := by
    rw [isDirectoryAt, locate_none]
  obtain ⟨hinputs, hdiscovered⟩ := inputs_eq_flatMap_discover hwell ["html"] hpaths
  refine ⟨hwell, hpaths, ?_, ?_⟩
  · rw [hinputs, List.flatMap_cons, List.flatMap_cons, if_pos hdirectory, discover_alias, hmissing]
    rfl
  · rw [← discover_alias]
    exact hdiscovered "alias".toList ["srv".toList, "pages".toList] pages locate_alias rfl rfl

end Tree

end GroupedVariants.Files
