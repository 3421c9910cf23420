import GroupedVariants.Files.Access
import GroupedVariants.Proofs.Text.Utf8

/-!
# 場所ごとに見たファイルの木

木は、場所ごとにあるものの種類と、普通のファイルの内容とで見る。ファイルの内容を替えても、ほかの場所の見え方は変わらない。
-/

namespace GroupedVariants.Files

/-- 場所にあるものの種類。 -/
inductive Kind where
  | file
  | link (target : List Char)
  | directory
  deriving DecidableEq, Repr

namespace Entry

def kind : Entry → Kind
  | file _ => .file
  | link target => .link target
  | directory _ => .directory

def kindAt (root : Entry) (p : List Name) : Option Kind := (root.at? p).map kind

/-- 普通のファイルの内容。 -/
def bytesAt? (root : Entry) (p : List Name) : Option ByteArray :=
  (root.at? p).bind bytes?

variable {root root' : Entry} {n : Name} {p q : List Name} {bytes new : ByteArray}

theorem at?_cons (root : Entry) (n : Name) (p : List Name) :
    root.at? (n :: p) = (root.member? n).bind (·.at? p) := by
  rw [at?]
  cases root.member? n <;> rfl

theorem bytes?_eq_some_iff {e : Entry} : e.bytes? = some bytes ↔ e = file bytes := by
  cases e <;> simp [bytes?]

theorem bytesAt?_eq_some_iff : root.bytesAt? p = some bytes ↔ root.at? p = some (file bytes) := by
  simp [bytesAt?, Option.bind_eq_some_iff, bytes?_eq_some_iff]

theorem kindAt_of_at? {e : Entry} (h : root.at? p = some e) : root.kindAt p = some e.kind := by
  rw [kindAt, h]
  rfl

theorem kindAt_of_at?_none (h : root.at? p = none) : root.kindAt p = none := by
  rw [kindAt, h]
  rfl

theorem kindAt_of_bytesAt? (h : root.bytesAt? p = some bytes) : root.kindAt p = some .file :=
  kindAt_of_at? (bytesAt?_eq_some_iff.mp h)

theorem bytesAt?_cons (root : Entry) (n : Name) (p : List Name) :
    root.bytesAt? (n :: p) = (root.member? n).bind (·.bytesAt? p) := by
  rw [bytesAt?, at?_cons, Option.bind_assoc]
  rfl

theorem kindAt_cons (root : Entry) (n : Name) (p : List Name) :
    root.kindAt (n :: p) = (root.member? n).bind (·.kindAt p) := by
  rw [kindAt, at?_cons]
  cases root.member? n <;> rfl

/-! ## ファイルの内容を替える -/

theorem lookup_alter_self (f : Option Entry → Entry) (ms : List (Name × Entry)) :
    (alter n (fun old => some (f old)) ms).lookup n = some (f (ms.lookup n)) := by
  induction ms with
  | nil => simp [alter]
  | cons m ms ih =>
      obtain ⟨k, e⟩ := m
      by_cases h : k = n
      · simp [alter, h]
      · have hne : (n == k) = false := by simpa using Ne.symm h
        simp [alter, h, List.lookup_cons, hne, ih]

theorem lookup_alter_of_ne {m : Name} (hm : m ≠ n) (f : Option Entry → Entry)
    (ms : List (Name × Entry)) :
    (alter n (fun old => some (f old)) ms).lookup m = ms.lookup m := by
  have hne : (m == n) = false := by simpa using hm
  induction ms with
  | nil => simp [alter, List.lookup_cons, hne]
  | cons k ms ih =>
      obtain ⟨k, e⟩ := k
      by_cases h : k = n
      · simp [alter, h, List.lookup_cons, hne]
      · simp [alter, h, List.lookup_cons, ih]

theorem member?_put_self (root : Entry) (n : Name) (p : List Name) (e : Entry) :
    (root.put (n :: p) e).member? n = some (((root.member? n).getD empty).put p e) :=
  lookup_alter_self _ _

theorem member?_put_of_ne {m : Name} (hm : m ≠ n) (root : Entry) (p : List Name) (e : Entry) :
    (root.put (n :: p) e).member? m = root.member? m :=
  lookup_alter_of_ne hm _ _

theorem bytesAt?_put_self (root : Entry) (p : List Name) (bytes : ByteArray) :
    (root.put p (file bytes)).bytesAt? p = some bytes := by
  induction p generalizing root with
  | nil => rfl
  | cons n p ih =>
      rw [bytesAt?_cons, member?_put_self]
      exact ih _

/-- すでにあるファイルの内容を替えても、ほかの場所の見え方は変わらない。 -/
theorem view_put_of_ne (h : root.bytesAt? p = some bytes) (hq : q ≠ p) :
    (root.put p (file new)).kindAt q = root.kindAt q ∧
      (root.put p (file new)).bytesAt? q = root.bytesAt? q := by
  induction p generalizing root q with
  | nil =>
      obtain ⟨m, q, rfl⟩ := List.exists_cons_of_ne_nil hq
      have hroot : root = file bytes := by simpa [at?] using bytesAt?_eq_some_iff.mp h
      subst hroot
      exact ⟨rfl, rfl⟩
  | cons n p ih =>
      rw [bytesAt?_cons] at h
      obtain ⟨e, he, hbytes⟩ := Option.bind_eq_some_iff.mp h
      cases q with
      | nil =>
          -- 途中の場所にあるのは、改める前も後もディレクトリである。
          cases root with
          | directory ms => exact ⟨rfl, rfl⟩
          | file b => cases he
          | link t => cases he
      | cons m q =>
          by_cases hm : m = n
          · subst hm
            have hmember : (root.put (m :: p) (file new)).member? m = some (e.put p (file new)) := by
              rw [member?_put_self, he]
              rfl
            have hne : q ≠ p := fun hqp => hq (by rw [hqp])
            simpa only [kindAt_cons, bytesAt?_cons, hmember, he, Option.bind_some] using ih hbytes hne
          · simp only [kindAt_cons, bytesAt?_cons, member?_put_of_ne hm, and_self]

theorem kindAt_put (h : root.bytesAt? p = some bytes) (q : List Name) :
    (root.put p (file new)).kindAt q = root.kindAt q := by
  by_cases hq : q = p
  · rw [hq, kindAt_of_bytesAt? h, kindAt_of_bytesAt? (bytesAt?_put_self root p new)]
  · exact (view_put_of_ne h hq).1

/-! ## 道筋は、あるものの種類だけで決まる -/

theorem resolve_nil (root : Entry) (links : Nat) (origin : List Name) :
    root.resolve links origin [] = .ok origin := by
  rw [resolve]

theorem resolve_cons (root : Entry) (links : Nat) (origin rest : List Name) (n : Name) :
    root.resolve links origin (n :: rest) =
      if n = here then root.resolve links origin rest
      else if n = parent then root.resolve links origin.dropLast rest
      else if nameLimit < Text.byteLength n then .error .nameTooLong
      else
        match root.kindAt (origin ++ [n]), links with
        | none, _ => .error .missing
        | some .directory, _ => root.resolve links (origin ++ [n]) rest
        | some .file, _ => if rest.isEmpty then .ok (origin ++ [n]) else .error .notDirectory
        | some (.link _), 0 => .error .tooManyLinks
        | some (.link target), links + 1 =>
          root.resolve links (startOf origin target) (steps target ++ rest) := by
  rw [resolve, kindAt]
  cases root.at? (origin ++ [n]) with
  | none => rfl
  | some e =>
      cases e with
      | file b => rfl
      | directory ms => rfl
      | link target => cases links <;> rfl

theorem resolve_congr (h : ∀ q, root'.kindAt q = root.kindAt q) (links : Nat)
    (origin names : List Name) :
    root'.resolve links origin names = root.resolve links origin names := by
  induction links, origin, names using resolve.induct root with
  | case1 links origin => rw [resolve_nil, resolve_nil]
  | case2 links origin rest ih => rw [resolve_cons, resolve_cons, if_pos rfl, if_pos rfl, ih]
  | case3 links origin rest hn ih => simp [resolve_cons, hn, ih]
  | case4 links origin n rest hn hp hlong => simp [resolve_cons, hn, hp, hlong]
  | case5 links origin n rest hn hp hlong hat =>
      simp [resolve_cons, hn, hp, hlong, h, kindAt_of_at?_none hat]
  | case6 links origin n rest hn hp hlong ms hat ih =>
      simp [resolve_cons, hn, hp, hlong, h, kindAt_of_at? hat, kind, ih]
  | case7 links origin n rest hn hp hlong b hat hr =>
      simp [resolve_cons, hn, hp, hlong, h, kindAt_of_at? hat, kind, hr]
  | case8 links origin n rest hn hp hlong b hat hr =>
      simp [resolve_cons, hn, hp, hlong, h, kindAt_of_at? hat, kind, hr]
  | case9 origin n rest hn hp hlong target hat =>
      simp [resolve_cons, hn, hp, hlong, h, kindAt_of_at? hat, kind]
  | case10 origin n rest hn hp hlong target hat links ih =>
      simp [resolve_cons, hn, hp, hlong, h, kindAt_of_at? hat, kind, ih]

end Entry

namespace Tree

variable {tree tree' : Tree} {p : List Name} {path text : List Char}

theorem locate_congr (hcurrent : tree'.current = tree.current)
    (h : ∀ q, tree'.root.kindAt q = tree.root.kindAt q) (path : List Char) :
    tree'.locate path = tree.locate path := by
  rw [locate, locate, hcurrent, Entry.resolve_congr h]

/-! ## 文の読み書き -/

theorem readText_of_locate (h : tree.locate path = .ok p) :
    tree.readText path =
      match tree.root.bytesAt? p with
      | none => .error .isDirectory
      | some bytes =>
        match Text.decodeUtf8? bytes with
        | none => .error .notText
        | some text => .ok text := by
  rw [readText, h, Entry.bytesAt?]
  simp only [bind, Except.bind, Text.decodeUtf8?]
  rcases tree.root.at? p with _ | b | target | ms
  · rfl
  · simp only [Option.bind_some, Entry.bytes?]
    cases String.fromUTF8? b <;> rfl
  · rfl
  · rfl

theorem readText_of_locate_error {f : Fault} (h : tree.locate path = .error f) :
    tree.readText path = .error f := by
  rw [readText, h]
  rfl

theorem readText_eq_ok_iff :
    tree.readText path = .ok text ↔
      ∃ p, tree.locate path = .ok p ∧ tree.root.bytesAt? p = some (Text.encodeUtf8 text) := by
  cases hp : tree.locate path with
  | error f => simp [readText_of_locate_error hp]
  | ok p =>
      rw [readText_of_locate hp]
      simp only [Except.ok.injEq, exists_eq_left']
      cases tree.root.bytesAt? p with
      | none => simp
      | some bytes =>
          simp only [Option.some.injEq, ← Text.decodeUtf8?_eq_some_iff]
          cases Text.decodeUtf8? bytes <;> simp

theorem writeText_of_locate (h : tree.locate path = .ok p) (text : List Char) :
    tree.writeText path text =
      { tree with root := tree.root.put p (.file (Text.encodeUtf8 text)) } := by
  rw [writeText, h]
  rfl

end Tree

end GroupedVariants.Files
