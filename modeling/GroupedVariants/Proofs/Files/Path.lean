import GroupedVariants.Files.Discovery
import GroupedVariants.Proofs.Text.Parts
import Mathlib.Data.Char
import Mathlib.Data.List.Lex
import Mathlib.Data.List.Sort

/-!
# パスの名と順

ディレクトリから下ったパスの最後の名は、下る名の最後である。選別はその名の拡張子だけを見て、順は名ごとの辞書式である。
-/

namespace GroupedVariants

namespace Files

variable {names : List Name} {n : Name} {e path : List Char}

/-! ## 最後の名 -/

/-- ディレクトリの中の名になれる。 -/
def Name.wellFormed (n : Name) : Bool :=
  !n.isEmpty && n != here && n != parent && !n.contains slash

theorem Name.wellFormed_iff :
    n.wellFormed = true ↔ n ≠ [] ∧ n ≠ here ∧ n ≠ parent ∧ slash ∉ n := by
  simp [wellFormed, and_assoc]

theorem intercalate_concat (above : List Name) (n : Name) :
    List.intercalate [slash] (above ++ [n]) =
      (above.flatMap fun m => m ++ [slash]) ++ n := by
  induction above with
  | nil => simp [List.intercalate_singleton]
  | cons m above ih =>
      rw [List.cons_append, List.intercalate_cons_of_ne_nil (by simp), ih]
      simp

/-- 空でなければ斜線で終わる。 -/
def EndsAtSlash (s : List Char) : Prop := s = [] ∨ ∃ before, s = before ++ [slash]

theorem endsAtSlash_append {s t : List Char} (hs : EndsAtSlash s) (ht : EndsAtSlash t) :
    EndsAtSlash (s ++ t) := by
  obtain rfl | ⟨before, rfl⟩ := ht
  · rwa [List.append_nil]
  · exact .inr ⟨s ++ before, by rw [List.append_assoc]⟩

theorem endsAtSlash_flatMap (above : List Name) :
    EndsAtSlash (above.flatMap fun m => m ++ [slash]) := by
  induction above with
  | nil => exact .inl rfl
  | cons m above ih => exact endsAtSlash_append (.inr ⟨m, rfl⟩) ih

/-- 続けた綴りは、最後の名の前で斜線に終わる。 -/
theorem join_concat (root : List Char) (above : List Name) (n : Name) :
    ∃ before, EndsAtSlash before ∧ join root (above ++ [n]) = before ++ n := by
  have habove := endsAtSlash_flatMap above
  rw [join, intercalate_concat]
  split
  next h =>
      refine ⟨_, endsAtSlash_append ?_ habove, by rw [List.append_assoc]⟩
      obtain hroot | hroot : root = [] ∨ root.getLast? = some slash := by simpa using h
      · exact .inl hroot
      · exact .inr ⟨root.dropLast, (List.dropLast_append_getLast? slash hroot).symm⟩
  next =>
      refine ⟨_, endsAtSlash_append (.inr ⟨root, rfl⟩) habove, ?_⟩
      simp

/-- 並びの最後の名が、続けた綴りの最後の名である。 -/
theorem lastName?_join (root : List Char) (hlast : names.getLast? = some n)
    (hn : n.wellFormed = true) : lastName? (join root names) = some n := by
  obtain ⟨hempty, hhere, hparent, hslash⟩ := Name.wellFormed_iff.mp hn
  obtain ⟨above, rfl⟩ := List.getLast?_eq_some_iff.mp hlast
  obtain ⟨before, hbefore, hjoin⟩ := join_concat root above n
  have hparts : ∃ parts, Text.split slash (before ++ n) = parts ++ [n] := by
    rw [Text.split_eq_splitOn]
    obtain rfl | ⟨before, rfl⟩ := hbefore
    · exact ⟨[], List.splitOn_eq_singleton hslash⟩
    · refine ⟨before.splitOn slash, ?_⟩
      rw [List.append_assoc, List.singleton_append, List.splitOn_append_cons_self,
        List.splitOn_eq_singleton hslash]
  obtain ⟨parts, hparts⟩ := hparts
  have hkept : [n].filter (fun m => !m.isEmpty && m != here) = [n] := by simp [hempty, hhere]
  rw [lastName?, hjoin, hparts, List.filter_append, hkept, List.getLast?_concat]
  exact if_neg hparent

/-- 名に斜線がなければ、続けた綴りから並びが決まる。 -/
theorem join_injective (root : List Char) {names names' : List Name}
    (hnames : ∀ n ∈ names, n.wellFormed = true) (hnames' : ∀ n ∈ names', n.wellFormed = true)
    (hne : names ≠ []) (hne' : names' ≠ []) (h : join root names = join root names') :
    names = names' := by
  have hsplit : ∀ {names : List Name}, names ≠ [] → (∀ n ∈ names, n.wellFormed = true) →
      (List.intercalate [slash] names).splitOn slash = names := fun hne hnames =>
    List.splitOn_intercalate slash (fun n hn => (Name.wellFormed_iff.mp (hnames n hn)).2.2.2) hne
  have hbelow : List.intercalate [slash] names = List.intercalate [slash] names' := by
    rw [join, join] at h
    split at h
    · exact List.append_cancel_left h
    · exact (List.cons.inj (List.append_cancel_left h)).2
  rw [← hsplit hne hnames, hbelow, hsplit hne' hnames']

/-! ## 拡張子 -/

/-- 拡張子は最後の点の先であり、点の前は空でない。 -/
theorem Name.extension?_eq_some_iff :
    n.extension? = some e ↔ ∃ stem, n = stem ++ '.' :: e ∧ stem ≠ [] ∧ '.' ∉ e := by
  rw [Name.extension?]
  set after := (n.reverse.takeWhile (· != '.')).reverse with hafter
  constructor
  · intro h
    obtain ⟨hlong, rfl⟩ : after.length + 1 < n.length ∧ after = e := by simpa using h
    have hdot : '.' ∉ after := fun hmem => by
      simpa using List.mem_takeWhile_imp (List.mem_reverse.mp hmem)
    -- 逆さに見れば、点でない限りの先に点があり、その先も空でない。
    have hwhole : n.reverse = after.reverse ++ n.reverse.dropWhile (· != '.') := by
      rw [hafter, List.reverse_reverse, List.takeWhile_append_dropWhile]
    cases hrest : n.reverse.dropWhile (· != '.') with
    | nil =>
        rw [hrest, List.append_nil] at hwhole
        have hlength := congrArg List.length hwhole
        simp only [List.length_reverse] at hlength
        omega
    | cons c rest =>
        obtain rfl : c = '.' := by
          simpa [hrest] using List.head_dropWhile_not (· != '.') (l := n.reverse) (by simp [hrest])
        have hn : n = rest.reverse ++ '.' :: after := by
          simpa [hrest] using congrArg List.reverse hwhole
        refine ⟨rest.reverse, hn, fun hnil => ?_, hdot⟩
        have hlength := congrArg List.length hn
        simp only [hnil, List.nil_append, List.length_cons] at hlength
        omega
  · rintro ⟨stem, rfl, hstem, hdot⟩
    have hsplit : (stem ++ '.' :: e).reverse = e.reverse ++ '.' :: stem.reverse := by simp
    have hends : ∀ c ∈ e.reverse, (c != '.') = true := fun c hc => by
      simpa using ne_of_mem_of_not_mem (List.mem_reverse.mp hc) hdot
    have he : after = e := by
      rw [hafter, hsplit, List.takeWhile_append_of_pos hends]
      simp
    have hlength := List.length_pos_iff.mpr hstem
    rw [he, if_pos]
    simp only [List.length_append, List.length_cons]
    omega

/-- 拡張子が、ASCII の大小を問わずに `extensions` の一つである。 -/
def Name.Admitted (extensions : List String) (n : Name) : Prop :=
  ∃ stem e, n = stem ++ '.' :: e ∧ stem ≠ [] ∧ '.' ∉ e ∧
    ∃ allowed ∈ extensions, allowed.toList.map Char.toLower = e.map Char.toLower

theorem accepts_join_iff (extensions : List String) (root : List Char)
    (hlast : names.getLast? = some n) (hn : n.wellFormed = true) :
    accepts extensions (join root names) = true ↔ n.Admitted extensions := by
  have hextension : extension? (join root names) = n.extension? := by
    rw [extension?, lastName?_join root hlast hn]
    rfl
  have haccepts : accepts extensions (join root names) = true ↔
      ∃ e, n.extension? = some e ∧
        ∃ allowed ∈ extensions, allowed.toList.map Char.toLower = e.map Char.toLower := by
    rw [accepts, hextension]
    cases n.extension? <;> simp [sameExceptCase]
  simp only [haccepts, Name.Admitted, Name.extension?_eq_some_iff]
  constructor
  · rintro ⟨e, ⟨stem, hn, hstem, hdot⟩, hallowed⟩
    exact ⟨stem, e, hn, hstem, hdot, hallowed⟩
  · rintro ⟨stem, e, hn, hstem, hdot, hallowed⟩
    exact ⟨e, ⟨stem, hn, hstem, hdot⟩, hallowed⟩

/-! ## 順 -/

theorem cons_le_cons_iff {α : Type} [LinearOrder α] {a b : α} {s t : List α} :
    a :: s ≤ b :: t ↔ a < b ∨ a = b ∧ s ≤ t := by
  rw [← not_lt, ← not_lt, List.cons_lt_cons_iff]
  grind

theorem nil_le {α : Type} [LinearOrder α] (s : List α) : [] ≤ s := not_lt.mp (List.not_lt_nil s)

theorem Name.le_iff (s t : Name) : s.le t = true ↔ s ≤ t := by
  induction s generalizing t with
  | nil => simp [Name.le, nil_le]
  | cons c s ih =>
      cases t with
      | nil => simp [Name.le]
      | cons d t =>
          rw [Name.le, cons_le_cons_iff]
          split
          next h => simp [ih, h]
          next h => simp [h, Char.lt_def, UInt32.lt_iff_toNat_lt]

theorem namesLe_iff (p q : List Name) : namesLe p q = true ↔ p ≤ q := by
  induction p generalizing q with
  | nil => simp [namesLe, nil_le]
  | cons m p ih =>
      cases q with
      | nil => simp [namesLe]
      | cons n q =>
          rw [namesLe, cons_le_cons_iff]
          split
          next h => simp [ih, h]
          next h => simp [h, Name.le_iff, le_iff_lt_or_eq]

theorem sortByNames_perm (paths : List (List Name)) : (sortByNames paths).Perm paths :=
  List.mergeSort_perm ..

/-- 同じもののない並びは、並べ替えると狭義に増える。 -/
theorem pairwise_sortByNames {paths : List (List Name)} (h : paths.Nodup) :
    (sortByNames paths).Pairwise (· < ·) := by
  have hle : (sortByNames paths).Pairwise (namesLe · · = true) :=
    List.pairwise_mergeSort (by simpa only [namesLe_iff] using fun _ _ _ => le_trans)
      (by simpa [namesLe_iff] using le_total) paths
  have hne : (sortByNames paths).Pairwise (· ≠ ·) := (sortByNames_perm paths).nodup_iff.mpr h
  exact hle.imp₂ (fun p q hpq hne => lt_of_le_of_ne ((namesLe_iff p q).mp hpq) hne) hne

/-- 狭義に増える並べ方は一つだけである。 -/
theorem sortByNames_eq {paths sorted : List (List Name)} (hperm : sorted.Perm paths)
    (hsorted : sorted.Pairwise (· < ·)) : sortByNames paths = sorted :=
  (pairwise_sortByNames (hperm.nodup_iff.mp hsorted.nodup)).eq_of_mem_iff hsorted fun f => by
    rw [(sortByNames_perm paths).mem_iff, hperm.mem_iff]

end Files

end GroupedVariants
