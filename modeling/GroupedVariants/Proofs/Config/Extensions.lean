import GroupedVariants.Config.Layers
import GroupedVariants.Proofs.Text.Parts
import Mathlib.Data.List.Basic

/-!
# 環境変数から読んだ拡張子の形

どの拡張子も空でなく、コンマを含まず、点で始まらず、空白で終わらない。空白は頭の点より先に除くので、点の直後の空白は
残る。コンマでつないで読み直しても変わらないのは、そのような空白がないときに限る。
-/

namespace GroupedVariants.Config

open Text

variable {list part e : List Char}

/-! ## 一つの部分から読む拡張子 -/

def extensionOf (part : List Char) : List Char := (trim part).dropWhile (· == '.')

/-- 前後の空白と、その内側の頭の点とを除いた残りである。 -/
theorem extensionOf_eq_iff (hne : e ≠ []) :
    extensionOf part = e ↔
      ∃ before dots after, part = before ++ (dots ++ (e ++ after)) ∧
        (∀ c ∈ before, isBlank c = true) ∧ (∀ c ∈ dots, c = '.') ∧
        (∀ c ∈ after, isBlank c = true) ∧ e.head? ≠ some '.' ∧
        (dots = [] → ∀ c ∈ e.head?, isBlank c = false) ∧
        ∀ c ∈ e.getLast?, isBlank c = false := by
  have hlast (dots : List Char) : (dots ++ e).getLast? = e.getLast? :=
    List.getLast?_append_of_ne_nil dots hne
  rw [extensionOf, dropWhile_eq_iff]
  constructor
  · rintro ⟨dots, htrim, hdots, hhead⟩
    obtain ⟨before, after, hpart, hbefore, hafter, hfirst, hend⟩ :=
      (trim_eq_iff (by simp [hne])).mp htrim
    refine ⟨before, dots, after, by rw [hpart, List.append_assoc], hbefore, by simpa using hdots,
      hafter, fun h => by simpa using hhead _ h, ?_, hlast dots ▸ hend⟩
    rintro rfl
    exact hfirst
  · rintro ⟨before, dots, after, hpart, hbefore, hdots, hafter, hhead, hfirst, hend⟩
    refine ⟨dots, (trim_eq_iff (by simp [hne])).mpr ⟨before, after, by rw [hpart, List.append_assoc],
      hbefore, hafter, ?_, (hlast dots).symm ▸ hend⟩, by simpa using hdots, ?_⟩
    · cases dots with
      | nil => exact hfirst rfl
      | cons c dots =>
          obtain rfl := hdots c List.mem_cons_self
          intro c hc
          obtain rfl := Option.some.inj hc
          decide
    · intro c hc
      have hne : c ≠ '.' := fun h => hhead (h ▸ hc)
      simpa using hne

/-- 頭の点の直後に、除かれない空白がある。 -/
def BlankAfterDots (part : List Char) : Prop :=
  ∃ before dots c rest, part = before ++ (dots ++ c :: rest) ∧
    (∀ b ∈ before, isBlank b = true) ∧ dots ≠ [] ∧ (∀ b ∈ dots, b = '.') ∧
    isBlank c = true ∧ ∃ b ∈ rest, isBlank b = false

theorem blankAfterDots_iff :
    BlankAfterDots part ↔ ∃ c ∈ (extensionOf part).head?, isBlank c = true := by
  constructor
  · rintro ⟨before, dots, c, rest, hpart, hbefore, hne, hdots, hc, b, hb, hsolid⟩
    obtain ⟨after, hrest, hafter, hlast⟩ := trimEnd_eq_iff.mp (rfl : trimEnd rest = trimEnd rest)
    have hrest' : trimEnd rest ≠ [] := by
      intro hnil
      rw [hnil, List.nil_append] at hrest
      exact absurd (hafter b (hrest ▸ hb)) (by simp [hsolid])
    have hextension : extensionOf part = c :: trimEnd rest := by
      refine (extensionOf_eq_iff (List.cons_ne_nil _ _)).mpr
        ⟨before, dots, after, ?_, hbefore, hdots, hafter, ?_, fun h => absurd h hne, ?_⟩
      · rw [List.cons_append, ← hrest, hpart]
      · rintro h
        obtain rfl := Option.some.inj h
        exact absurd hc (by decide)
      · rwa [← List.singleton_append, List.getLast?_append_of_ne_nil _ hrest']
    exact ⟨c, by rw [hextension]; rfl, hc⟩
  · rintro ⟨c, hhead, hc⟩
    obtain ⟨rest, hextension⟩ := List.head?_eq_some_iff.mp hhead
    obtain ⟨before, dots, after, hpart, hbefore, hdots, -, -, hfirst, hlast⟩ :=
      (extensionOf_eq_iff (List.cons_ne_nil c rest)).mp hextension
    have hne : dots ≠ [] := fun h => absurd (hfirst h c rfl) (by simp [hc])
    refine ⟨before, dots, c, rest ++ after, hpart, hbefore, hne, hdots, hc, ?_⟩
    -- 終わりの文字は空白でないので、`c` の後にある。
    cases hrest : rest.getLast? with
    | none =>
        rw [List.getLast?_eq_none_iff.mp hrest] at hlast
        exact absurd (hlast c rfl) (by simp [hc])
    | some b =>
        have hb : (c :: rest).getLast? = some b := by
          rw [← List.singleton_append, List.getLast?_append, hrest]
          rfl
        exact ⟨b, List.mem_append_left _ (List.mem_of_getLast? hrest), hlast b hb⟩

/-! ## 拡張子の並び -/

/-- 読まれた拡張子の形。空白で始まることはある。 -/
structure IsExtension (e : List Char) : Prop where
  nonempty : e ≠ []
  comma : ',' ∉ e
  dot : e.head? ≠ some '.'
  last : ∀ c ∈ e.getLast?, isBlank c = false

theorem IsExtension.extensionOf_eq_self_iff (h : IsExtension e) :
    extensionOf e = e ↔ ∀ c ∈ e.head?, isBlank c = false := by
  rw [extensionOf_eq_iff h.nonempty]
  constructor
  · rintro ⟨before, dots, after, he, -, -, -, -, hfirst, -⟩
    refine hfirst ?_
    have hlength := congrArg List.length he
    simp only [List.length_append] at hlength
    exact List.eq_nil_of_length_eq_zero (by omega)
  · intro hfirst
    exact ⟨[], [], [], by simp, by simp, by simp, by simp, h.dot, fun _ => hfirst, h.last⟩

theorem isExtension_of_mem_split (hpart : part ∈ split ',' list) (hne : extensionOf part ≠ []) :
    IsExtension (extensionOf part) := by
  obtain ⟨before, dots, after, hsource, -, -, -, hdot, -, hlast⟩ :=
    (extensionOf_eq_iff hne).mp rfl
  refine ⟨hne, fun hcomma => separator_not_mem_of_mem_split hpart ?_, hdot, hlast⟩
  rw [hsource]
  simp [hcomma]

def extensionsOf (list : List Char) : List (List Char) :=
  ((split ',' list).map extensionOf).filter (!·.isEmpty)

theorem parseExtensions_eq (list : List Char) :
    parseExtensions list = (extensionsOf list).map String.ofList := rfl

theorem mem_extensionsOf :
    e ∈ extensionsOf list ↔ e ≠ [] ∧ ∃ part ∈ split ',' list, extensionOf part = e := by
  simp [extensionsOf, and_comm]

theorem isExtension_of_mem (h : e ∈ extensionsOf list) : IsExtension e := by
  obtain ⟨hne, part, hpart, rfl⟩ := mem_extensionsOf.mp h
  exact isExtension_of_mem_split hpart hne

theorem forall_head?_iff (list : List Char) :
    (∀ e ∈ extensionsOf list, ∀ c ∈ e.head?, isBlank c = false) ↔
      ∀ part ∈ split ',' list, ¬ BlankAfterDots part := by
  constructor
  · intro h part hpart hblank
    obtain ⟨c, hhead, hc⟩ := blankAfterDots_iff.mp hblank
    have hne : extensionOf part ≠ [] := by
      intro hnil
      simp [hnil] at hhead
    have hmem : extensionOf part ∈ extensionsOf list := mem_extensionsOf.mpr ⟨hne, part, hpart, rfl⟩
    exact absurd (h _ hmem c hhead) (by simp [hc])
  · intro h e he c hhead
    obtain ⟨-, part, hpart, rfl⟩ := mem_extensionsOf.mp he
    cases hc : isBlank c with
    | false => rfl
    | true => exact absurd (blankAfterDots_iff.mpr ⟨c, hhead, hc⟩) (h part hpart)

/-! ## 読み直し -/

def joined (extensions : List String) : List Char :=
  List.intercalate [','] (extensions.map String.toList)

theorem extensionsOf_intercalate {es : List (List Char)} (h : ∀ e ∈ es, ',' ∉ e) :
    extensionsOf (List.intercalate [','] es) = (es.map extensionOf).filter (!·.isEmpty) := by
  cases es with
  | nil => rfl
  | cons e es => rw [extensionsOf, split_intercalate h (List.cons_ne_nil e es)]

theorem filter_map_eq_self_iff {α : Type} {f : α → α} {p : α → Bool} {l : List α}
    (hp : ∀ a ∈ l, p a = true) : (l.map f).filter p = l ↔ ∀ a ∈ l, f a = a := by
  constructor
  · intro h
    have hlength : ((l.map f).filter p).length = (l.map f).length := by rw [h, List.length_map]
    rw [List.filter_eq_self.mpr (List.length_filter_eq_length_iff.mp hlength)] at h
    exact List.map_inj_left.mp (h.trans (List.map_id l).symm)
  · intro h
    rw [List.map_congr_left h, List.map_id', List.filter_eq_self]
    exact hp

theorem extensionsOf_joined_eq_iff (list : List Char) :
    extensionsOf (List.intercalate [','] (extensionsOf list)) = extensionsOf list ↔
      ∀ e ∈ extensionsOf list, ∀ c ∈ e.head?, isBlank c = false := by
  rw [extensionsOf_intercalate fun e he => (isExtension_of_mem he).comma,
    filter_map_eq_self_iff fun e he => by simpa using (isExtension_of_mem he).nonempty]
  exact forall₂_congr fun e he => (isExtension_of_mem he).extensionOf_eq_self_iff

/-- 拡張子が空白で始まらないのも、つないで読み直しても変わらないのも、頭の点の直後に空白のある部分がないときに限る。 -/
theorem parseExtensions_normal_iff (list : List Char) :
    (∀ e ∈ parseExtensions list, IsExtension e.toList) ∧
      ((∀ e ∈ parseExtensions list, ∀ c ∈ e.toList.head?, isBlank c = false) ↔
        ∀ part ∈ split ',' list, ¬ BlankAfterDots part) ∧
      (parseExtensions (joined (parseExtensions list)) = parseExtensions list ↔
        ∀ part ∈ split ',' list, ¬ BlankAfterDots part) := by
  have htexts : (parseExtensions list).map String.toList = extensionsOf list := by
    simp [parseExtensions_eq]
  refine ⟨fun e he => ?_, ?_, ?_⟩
  · exact isExtension_of_mem (htexts ▸ List.mem_map_of_mem he)
  · rw [← forall_head?_iff, ← htexts, List.forall_mem_map]
  · rw [← forall_head?_iff, ← extensionsOf_joined_eq_iff, joined, htexts, parseExtensions_eq,
      parseExtensions_eq, List.map_inj_right fun a b h => String.ofList_injective h]

/-- 点の直後の空白は残り、読み直すと消える。 -/
theorem parseExtensions_blank_after_dot :
    parseExtensions ". html".toList = [" html"] ∧
      parseExtensions (joined (parseExtensions ". html".toList)) = ["html"] := by
  decide

end GroupedVariants.Config
