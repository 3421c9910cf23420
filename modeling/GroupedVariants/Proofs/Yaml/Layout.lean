import GroupedVariants.Proofs.Yaml.Scalar
import GroupedVariants.Yaml.Document

/-!
# 字下げで書いた組と並びの読み戻し

どの行がどの組に属するかは、その行の桁だけで読み分けられる。
読む深さの限りは、書いた綴りの長さの四倍あれば足りる。
-/

namespace GroupedVariants.Yaml

open SingleQuoted (indentation)
open Layout

variable {c : Char} {k r s t value : List Char} {p : Position} {fresh indentless : Bool}
  {fuel floor col column l : Nat}

/-! ## 読み戻せる値 -/

/-- 空の値は裸では書けない。 -/
def Scalar.Valid (s : Scalar) : Prop := s.style = .plain → s.text ≠ []

/-- 裸で書ける、一行に収まる鍵。並びの項目や文書の印に似た記号では始まらない。 -/
structure Key (k : List Char) : Prop where
  plain : allowsPlain k = true
  short : k.length ≤ 1024
  head : ∃ c ∈ k.head?, c ∉ ['-', '.', ':', '?']

namespace Layout

mutual

def Valid : Layout → Prop
  | scalar s => s.Valid
  | list items => ∀ s ∈ items, s.Valid
  | record fields => fields ≠ [] ∧ ValidFields fields

def ValidFields : List (List Char × Layout) → Prop
  | [] => True
  | (k, v) :: fields => Key k ∧ v.Valid ∧ ValidFields fields

end

def itemNode (s : Scalar) : Node := .scalar s.text (isPlain s.text s.style)

mutual

/-- 書いた値から読まれる木。 -/
def node : Layout → Node
  | scalar s => itemNode s
  | list items => .sequence (items.map itemNode)
  | record fields => .mapping (entries fields)

def entries : List (List Char × Layout) → List (Node × Node)
  | [] => []
  | (k, v) :: fields => (.scalar k true, v.node) :: entries fields

end

/-! ## 行の切れ目 -/

/-- 初めの行の字下げを除いた、組の綴り。 -/
def openFields (col : Nat) : List (List Char × Layout) → List Char
  | [] => []
  | (k, v) :: fields => k ++ ':' :: (writeValue col v ++ writeFields col fields)

theorem writeFields_eq {fields : List (List Char × Layout)} (h : fields ≠ []) :
    writeFields col fields = indentation col ++ openFields col fields := by
  match fields, h with
  | (k, v) :: fields, _ => simp [writeFields, openFields]

theorem atBlank_writeValue (col : Nat) (v : Layout) (r : List Char) :
    atBlank (writeValue col v ++ r) = true := by
  match v with
  | scalar s => rfl
  | list [] => rfl
  | list (s :: items) => rfl
  | record fields => rfl

end Layout

/-- 値の次の行。値の続きとも、鍵の先とも、並びの続きとも読まれない。 -/
structure NextLine (r : List Char) : Prop where
  word : WordStart r
  sign : ∀ c ∈ r.head?, c ≠ ':' ∧ c ≠ '-'

theorem NextLine.nil : NextLine [] := ⟨nofun, nofun⟩

theorem NextLine.head?_ne (h : NextLine r) : r.head? ≠ some ':' := fun heq =>
  (h.sign ':' heq).1 rfl

theorem NextLine.atIndicator (h : NextLine r) :
    (Cursor.line l column r).atIndicator '-' = false := by
  cases r with
  | nil => rfl
  | cons c r => simp [Cursor.atIndicator, Cursor.line, (h.sign c rfl).2]

theorem atDocumentMark_cons (hdash : c ≠ '-') (hdot : c ≠ '.') :
    atDocumentMark (c :: t) = false := by
  simp [atDocumentMark, atDocumentStart, atDocumentEnd, hdash, hdot]

/-! ## 鍵 -/

namespace Key

theorem exists_cons (h : Key k) :
    ∃ c t, k = c :: t ∧ Bare c t ∧ c ∉ ['-', '.', ':', '?'] := by
  obtain ⟨c, hc, hsign⟩ := h.head
  cases k with
  | nil => cases hc
  | cons d t =>
      obtain rfl : d = c := Option.some.inj hc
      exact ⟨d, t, rfl, .ofAllowsPlain h.plain, hsign⟩

theorem nextLine (h : Key k) (r : List Char) : NextLine (k ++ r) := by
  obtain ⟨c, t, rfl, hbare, hsign⟩ := h.exists_cons
  refine ⟨(hbare.opens r).wordStart, fun x hx => ?_⟩
  obtain rfl : c = x := Option.some.inj hx
  simp only [List.mem_cons, not_or] at hsign
  exact ⟨hsign.2.2.1, hsign.1⟩

theorem atDocumentMark (h : Key k) (r : List Char) : atDocumentMark (k ++ r) = false := by
  obtain ⟨c, t, rfl, -, hsign⟩ := h.exists_cons
  simp only [List.mem_cons, not_or] at hsign
  exact atDocumentMark_cons hsign.1 hsign.2.1

theorem head?_ne_percent (h : Key k) (r : List Char) : (k ++ r).head? ≠ some '%' := by
  obtain ⟨c, t, rfl, hbare, -⟩ := h.exists_cons
  intro hc
  obtain rfl : c = '%' := Option.some.inj hc
  cases hbare.lead

theorem atIndicators_eq_false (h : Key k) (l col : Nat) (r : List Char) :
    (Cursor.line l col (k ++ r)).atIndicator '-' = false ∧
      (Cursor.line l col (k ++ r)).atIndicator '?' = false ∧
      (Cursor.line l col (k ++ r)).atIndicator ':' = false := by
  obtain ⟨c, t, rfl, hbare, -⟩ := h.exists_cons
  exact (hbare.opens r).atIndicators_eq_false ⟨l, col⟩ true

/-- 行頭の鍵が、その先の `:` まで読まれる。 -/
theorem readKey? (h : Key k) (hvalue : atBlank value = true) (fuel floor l col : Nat) :
    Yaml.readKey? (fuel + 1) floor (.line l col (k ++ ':' :: value)) =
      .ok (some (.scalar k true, ⟨':' :: value, ⟨l, col + k.length⟩, false, [], []⟩)) := by
  have hmark := h.atDocumentMark (':' :: value)
  have hshort := h.short
  obtain ⟨c, t, rfl, hbare, -⟩ := h.exists_cons
  have hquotes := hbare.not_mem
  simp only [List.mem_cons, not_or] at hquotes
  have hread : Plain.read false floor .none ⟨l, col⟩ (c :: (t ++ ':' :: value)) =
      .ok (⟨c :: t, ':' :: value, ⟨l, col + (c :: t).length⟩⟩, .none) := by
    have happend := Plain.read_append (p := ⟨l, col⟩) (r := ':' :: value) floor hbare.unbroken rfl
      (fun hne => absurd rfl hne) hbare.space (fun heq => absurd heq hbare.colon)
      (by rw [hmark, Bool.and_false])
    rw [List.cons_append, Plain.read_colon hvalue] at happend
    rw [happend]
    simp [Except.map, Scanned.precededBy, Position.skip]
  have hscalar : readInlineScalar false floor (.line l col (c :: (t ++ ':' :: value))) =
      .ok (some (.scalar (c :: t) true,
        ⟨':' :: value, ⟨l, col + (c :: t).length⟩, false, [], []⟩)) :=
    readInlineScalar_plain hquotes.1 hquotes.2.1 (hbare.canStart _) hread
  have hcolon : WordStart (':' :: value) := by
    intro x hx
    obtain rfl : ':' = x := Option.some.inj hx
    decide
  have hfits : keyFits (.line l col (c :: (t ++ ':' :: value)))
      ⟨':' :: value, ⟨l, col + (c :: t).length⟩, false, [], []⟩ = true := by
    have hwithin : col + (c :: t).length ≤ col + 1024 := Nat.add_le_add_left hshort col
    simp only [keyFits, Cursor.line, Cursor.column, beq_self_eq_true, hwithin, decide_true,
      Bool.and_true]
  have hindicator : (⟨':' :: value, ⟨l, col + (c :: t).length⟩, false, [], []⟩ :
      Cursor).atIndicator ':' = true := hvalue
  have hkey : readKeyFrom (fuel + 1) floor {} (.line l col (c :: (t ++ ':' :: value))) =
      readInlineScalar false floor (.line l col (c :: (t ++ ':' :: value))) :=
    (hbare.opens _).readKeyFrom_eq
  rw [Yaml.readKey?, List.cons_append, hkey, hscalar]
  simp only [bind, Except.bind]
  rw [Cursor.skipGap_word hcolon, hfits, hindicator]
  rfl

end Key

theorem readBlockEntry_key (h : Key k) (hvalue : atBlank value = true) {x : Node × Cursor}
    (hread : readBlockNode (fuel + 1) (col + 1) true {}
      ⟨value, ⟨l, col + k.length + 1⟩, false, [], []⟩ = .ok x) :
    readBlockEntry (fuel + 2) col (.line l col (k ++ ':' :: value)) =
      .ok ((.scalar k true, x.1), x.2) := by
  obtain ⟨-, hquestion, -⟩ := h.atIndicators_eq_false l col (':' :: value)
  rw [readBlockEntry, hquestion, h.readKey? hvalue]
  simp only [bind, Except.bind]
  have htake : (⟨':' :: value, ⟨l, col + k.length⟩, false, [], []⟩ : Cursor).take 1 =
      ⟨value, ⟨l, col + k.length + 1⟩, false, [], []⟩ := rfl
  rw [htake, hread]
  rfl

/-! ## 並び -/

theorem readBlockNode_brackets (hfloor : floor ≤ p.column) (hr : WordStart r) :
    ∃ y, readBlockNode (fuel + 4) floor indentless {}
        ⟨' ' :: '[' :: ']' :: lineOf column r, p, false, [], []⟩ = .ok (.sequence [], y) ∧
      y.Reaches column r := by
  have hword : WordStart ('[' :: ']' :: lineOf column r) := by
    intro x hx
    obtain rfl : '[' = x := Option.some.inj hx
    decide
  let before : Cursor := ⟨'[' :: ']' :: lineOf column r, p.next, false, [], []⟩
  let after : Cursor := ⟨lineOf column r, p.next.next.next, false, [], []⟩
  have hitems : readFlowItems (fuel + 1) floor ((before.take 1).skipGap true) =
      .ok ([], after) := rfl
  have hflow : readFlowContent (fuel + 2) floor before = .ok (some (.sequence [], after)) := by
    rw [readFlowContent, hitems]
    rfl
  have hkey : readKey? (fuel + 2) floor before = .ok none := rfl
  have hcontent : readBlockContent (fuel + 3) floor indentless {} before =
      .ok (.sequence [], after) := by
    rw [readBlockContent, hkey, hflow]
    rfl
  exact ⟨after, readBlockNode_space hword hfloor hcontent, Cursor.reaches_lineOf hr column _ _⟩

/-- 次の行から始まる値。 -/
theorem readBlockNode_lineOf (hs : WordStart s) {x : Node × Cursor}
    (hpresent : isAbsent floor indentless (.line (p.line + 1) col s) = false)
    (hread : readBlockContent fuel floor indentless {} (.line (p.line + 1) col s) = .ok x) :
    readBlockNode (fuel + 1) floor indentless {} ⟨lineOf col s, p, fresh, [], []⟩ = .ok x := by
  rw [readBlockNode, Cursor.skipGap_lineOf hs, hpresent, hread]
  rfl

/-- 並びの項目の、`-` の先。 -/
def openItem (col : Nat) (s : Scalar) : List Char :=
  '-' :: ' ' :: endLine (writeScalar (col + Literal.step) s.text s.style)

theorem writeItem_eq (col : Nat) (s : Scalar) :
    writeItem col s = indentation col ++ openItem col s :=
  rfl

theorem nextLine_openItem (col : Nat) (s : Scalar) (r : List Char) :
    WordStart (openItem col s ++ r) ∧ (openItem col s ++ r).head? ≠ some ':' := by
  refine ⟨fun x hx => ?_, by simp [openItem]⟩
  obtain rfl : '-' = x := Option.some.inj hx
  decide

/-- 同じ桁の項目では、並びは終わらない。 -/
theorem atItem_openItem (l col : Nat) (s : Scalar) (r : List Char) :
    let c := Cursor.line l col (openItem col s ++ r)
    (c.atEnd || c.atMark || decide (c.column < col)) = false ∧
      (c.column == col && c.atIndicator '-' && c.fresh) = true := by
  have hmark : atDocumentMark (openItem col s ++ r) = false := rfl
  have hindicator : (Cursor.line l col (openItem col s ++ r)).atIndicator '-' = true := rfl
  have hfull : (Cursor.line l col (openItem col s ++ r)).atEnd = false := rfl
  simp only [hfull, hindicator, Cursor.atMark]
  simp [Cursor.line, Cursor.column, hmark]

theorem readBlockNode_openItem {s : Scalar} (hs : s.Valid) (hcolumn : column ≤ col)
    (hr : WordStart r) (hcolon : r.head? ≠ some ':') (fuel l : Nat) :
    ∃ y, readBlockNode (fuel + 3) (col + 1) false {}
        (Cursor.line l col (openItem col s ++ (indentation column ++ r))).takeIndicator =
      .ok (itemNode s, y) ∧ y.Reaches column r :=
  readBlockNode_writeScalar (p := ⟨l, col + 1⟩) hs (Nat.lt_succ_of_le hcolumn) (Nat.le_refl _) hr
    hcolon

theorem two_le_length_writeItem (col : Nat) (s : Scalar) : 2 ≤ (writeItem col s).length := by
  simp only [writeItem, List.length_append, List.length_cons]
  omega

/-- 桁 `col` の項目が、浅いか項目でない次の行まで読まれる。 -/
theorem readBlockItems_writeItem (hcolumn : column ≤ col) (hr : NextLine r) {s : Scalar}
    {items : List Scalar} (hvalid : ∀ x ∈ s :: items, x.Valid)
    (hfuel : 4 * ((s :: items).flatMap (writeItem col)).length ≤ fuel) (l : Nat) :
    ∃ y, readBlockItems fuel col true (.line l col (openItem col s ++
        (items.flatMap (writeItem col) ++ (indentation column ++ r)))) =
        .ok ((s :: items).map itemNode, y) ∧ y.Reaches column r := by
  induction items generalizing s fuel l with
  | nil =>
      have hlength := two_le_length_writeItem col s
      simp only [List.flatMap_cons, List.length_append] at hfuel
      obtain ⟨fuel, rfl⟩ : ∃ n, fuel = n + 4 := Nat.exists_eq_add_of_le' (by omega)
      obtain ⟨y, hread, l', hskip⟩ :=
        readBlockNode_openItem (hvalid s List.mem_cons_self) hcolumn hr.word hr.head?_ne fuel l
      refine ⟨.line l' column r, ?_, Cursor.reaches_line hr.word l' column⟩
      simp only [List.flatMap_nil, List.nil_append]
      rw [readBlockItems, hread]
      simp only [bind, Except.bind, hskip, hr.atIndicator, Bool.and_false, Bool.false_and]
      split <;> rfl
  | cons s' items ih =>
      have hlength := two_le_length_writeItem col s
      rw [List.flatMap_cons, List.length_append] at hfuel
      obtain ⟨fuel, rfl⟩ : ∃ n, fuel = n + 4 := Nat.exists_eq_add_of_le' (by omega)
      obtain ⟨hword, hcolon⟩ := nextLine_openItem col s'
        (items.flatMap (writeItem col) ++ (indentation column ++ r))
      obtain ⟨y, hread, l', hskip⟩ :=
        readBlockNode_openItem (hvalid s List.mem_cons_self) (Nat.le_refl col) hword hcolon fuel l
      have hrestFuel : 4 * ((s' :: items).flatMap (writeItem col)).length ≤ fuel + 3 := by omega
      obtain ⟨z, hrest, hz⟩ := ih (fun x hx => hvalid x (List.mem_cons_of_mem s hx)) hrestFuel l'
      refine ⟨z, ?_, hz⟩
      rw [List.flatMap_cons, writeItem_eq, List.append_assoc, List.append_assoc, readBlockItems,
        hread]
      simp only [bind, Except.bind, hskip]
      rw [(atItem_openItem l' col s' _).1, (atItem_openItem l' col s' _).2, hrest]
      rfl

/-- 組の鍵と同じ桁の並び。 -/
theorem readBlockNode_items (hcolumn : column ≤ col) (hr : NextLine r) {s : Scalar}
    {items : List Scalar} (hvalid : ∀ x ∈ s :: items, x.Valid)
    (hfuel : 4 * ((s :: items).flatMap (writeItem col)).length ≤ fuel) :
    ∃ y, readBlockNode (fuel + 2) (col + 1) true {} ⟨lineOf col (openItem col s ++
        (items.flatMap (writeItem col) ++ (indentation column ++ r))), p, fresh, [], []⟩ =
        .ok (.sequence ((s :: items).map itemNode), y) ∧ y.Reaches column r := by
  obtain ⟨y, hread, hy⟩ := readBlockItems_writeItem hcolumn hr hvalid hfuel (p.line + 1)
  have hitem := atItem_openItem (p.line + 1) col s
    (items.flatMap (writeItem col) ++ (indentation column ++ r))
  generalize ht : openItem col s ++ (items.flatMap (writeItem col) ++ (indentation column ++ r)) = t
    at hread hitem
  have hindicator : (Cursor.line (p.line + 1) col t).atIndicator '-' = true := by
    subst ht
    rfl
  obtain ⟨hend, -⟩ := hitem
  simp only [Bool.or_eq_false_iff] at hend
  refine ⟨y, readBlockNode_lineOf (ht ▸ (nextLine_openItem col s _).1) ?_ ?_, hy⟩
  · simp only [isAbsent, hend, hindicator]
    simp [Cursor.column, Cursor.line]
  · rw [readBlockContent, hindicator]
    simp [Cursor.line, Cursor.column, bind, Except.bind, pure, Except.pure] at hread ⊢
    simp [hread]

/-! ## 組 -/

/-- 鍵から始まる行では、組は終わらない。 -/
theorem atKey (h : Key k) (l col : Nat) (r : List Char) :
    let c := Cursor.line l col (k ++ r)
    (c.atEnd || c.atMark || decide (c.column < col)) = false ∧ (c.column != col) = false := by
  have hmark : (Cursor.line l col (k ++ r)).atMark = false := by
    simp [Cursor.atMark, Cursor.line, h.atDocumentMark]
  have hfull : (Cursor.line l col (k ++ r)).atEnd = false := by
    obtain ⟨c, t, rfl, -⟩ := h.exists_cons
    rfl
  simp only [hmark, hfull]
  simp [Cursor.line, Cursor.column]

theorem exists_key {fields : List (List Char × Layout)} (hne : fields ≠ [])
    (h : ValidFields fields) (col : Nat) (r : List Char) :
    ∃ k t, openFields col fields ++ r = k ++ ':' :: t ∧ Key k ∧ atBlank t = true := by
  match fields, hne with
  | (k, v) :: fields, _ =>
      refine ⟨k, writeValue col v ++ (writeFields col fields ++ r), ?_, h.1,
        atBlank_writeValue col v _⟩
      simp [openFields]

theorem isAbsent_openFields {fields : List (List Char × Layout)} (hne : fields ≠ [])
    (h : ValidFields fields) (hfloor : floor ≤ col) (l : Nat) (r : List Char) :
    isAbsent floor indentless (.line l col (openFields col fields ++ r)) = false := by
  obtain ⟨k, t, ht, hk, -⟩ := exists_key hne h col r
  obtain ⟨hend, -⟩ := atKey hk l col (':' :: t)
  simp only [Bool.or_eq_false_iff] at hend
  have hcolumn : (Cursor.line l col (k ++ ':' :: t)).column = col := rfl
  have hdeep : floor ≤ col + 1 := Nat.le_succ_of_le hfloor
  have hlevel : col + 1 ≠ floor := by omega
  simp only [ht, isAbsent, hend, hcolumn]
  simp [hdeep, hlevel]

/-- 鍵から始まる語は、組として読まれる。 -/
theorem readBlockContent_openFields {fields : List (List Char × Layout)} (hne : fields ≠ [])
    (h : ValidFields fields) (r : List Char) {x : List (Node × Node) × Cursor}
    (hread : readBlockEntries (fuel + 1) col (.line l col (openFields col fields ++ r)) = .ok x) :
    readBlockContent (fuel + 2) floor indentless {} (.line l col (openFields col fields ++ r)) =
      .ok (.mapping x.1, x.2) := by
  obtain ⟨k, t, ht, hk, hblank⟩ := exists_key hne h col r
  rw [ht] at hread ⊢
  obtain ⟨hitem, hquestion, hcolon⟩ := hk.atIndicators_eq_false l col (':' :: t)
  have hcolumn : (Cursor.line l col (k ++ ':' :: t)).column = col := rfl
  rw [readBlockContent, hitem, hquestion, hcolon, hk.readKey? hblank]
  simp only [bind, Except.bind, hcolumn, hread]
  rfl

/-- 鍵と値の次の行で、組が終わる。 -/
theorem readBlockEntries_last (hend : column < col ∨ r = []) {e : Node × Node} {c y : Cursor}
    (hread : readBlockEntry fuel col c = .ok (e, y)) (hy : y.skipGap false = .line l column r) :
    readBlockEntries (fuel + 1) col c = .ok ([e], .line l column r) := by
  have hstop : ((Cursor.line l column r).atEnd || (Cursor.line l column r).atMark ||
      decide ((Cursor.line l column r).column < col)) = true := by
    rcases hend with hlt | rfl
    · simp [Cursor.column, Cursor.line, hlt]
    · rfl
  rw [readBlockEntries, hread]
  simp only [bind, Except.bind, hy, hstop]
  rfl

/-- 鍵と値の次の行に、同じ組の鍵がある。 -/
theorem readBlockEntries_more (hk : Key k) {e : Node × Node} {c y : Cursor}
    {x : List (Node × Node) × Cursor} (hread : readBlockEntry fuel col c = .ok (e, y))
    (hy : y.skipGap false = .line l col (k ++ t))
    (hrest : readBlockEntries fuel col (.line l col (k ++ t)) = .ok x) :
    readBlockEntries (fuel + 1) col c = .ok (e :: x.1, x.2) := by
  obtain ⟨hcontinue, hcolumn⟩ := atKey hk l col t
  rw [readBlockEntries, hread]
  simp only [bind, Except.bind, hy, hcontinue, hcolumn, hrest]
  rfl

mutual

/-- 組の値が、組の桁より深くない次の行まで読まれる。 -/
theorem readBlockNode_writeValue {col column fuel : Nat} {r : List Char} {p : Position}
    (hr : NextLine r) (hcolumn : column ≤ col) (hp : col < p.column) :
    (v : Layout) → v.Valid → 4 * (writeValue col v).length ≤ fuel →
    ∃ y, readBlockNode fuel (col + 1) true {}
        ⟨writeValue col v ++ (indentation column ++ r), p, false, [], []⟩ = .ok (v.node, y) ∧
      y.Reaches column r
  | scalar s, hvalid, hfuel => by
      obtain ⟨fuel, rfl⟩ : ∃ n, fuel = n + 3 := Nat.exists_eq_add_of_le' (by
        simp only [writeValue, List.length_cons] at hfuel
        omega)
      exact readBlockNode_writeScalar hvalid (Nat.lt_succ_of_le hcolumn) hp hr.word hr.head?_ne
  | list [], _, hfuel => by
      obtain ⟨fuel, rfl⟩ : ∃ n, fuel = n + 4 := Nat.exists_eq_add_of_le' (by
        simp [writeValue] at hfuel
        omega)
      exact readBlockNode_brackets hp hr.word
  | list (s :: items), hvalid, hfuel => by
      simp only [writeValue, List.length_cons] at hfuel
      obtain ⟨fuel, rfl⟩ : ∃ n, fuel = n + 2 := Nat.exists_eq_add_of_le' (by omega)
      have htext : writeValue col (list (s :: items)) ++ (indentation column ++ r) =
          lineOf col (openItem col s ++
            (items.flatMap (writeItem col) ++ (indentation column ++ r))) := by
        simp [writeValue, lineOf, writeItem_eq]
      rw [htext]
      exact readBlockNode_items hcolumn hr hvalid (by omega)
  | record fields, hvalid, hfuel => by
      obtain ⟨hne, hfields⟩ := hvalid
      simp only [writeValue, List.length_cons, Literal.step] at hfuel
      obtain ⟨fuel, rfl⟩ : ∃ n, fuel = n + 3 := Nat.exists_eq_add_of_le' (by omega)
      have htext : writeValue col (record fields) ++ (indentation column ++ r) =
          lineOf (col + 2) (openFields (col + 2) fields ++ (indentation column ++ r)) := by
        simp [writeValue, lineOf, writeFields_eq hne, Literal.step]
      have hdeeper : column < col + 2 := by omega
      have hfields' : 4 * (writeFields (col + 2) fields).length ≤ fuel + 1 := by omega
      obtain ⟨y, hread, hy⟩ := readBlockEntries_openFields hr (Nat.le_of_lt hdeeper) (.inl hdeeper)
        (p.line + 1) fields hne hfields hfields'
      obtain ⟨k, t, ht, hk, -⟩ := exists_key hne hfields (col + 2) (indentation column ++ r)
      have hword : WordStart (openFields (col + 2) fields ++ (indentation column ++ r)) :=
        ht ▸ (hk.nextLine _).word
      rw [htext]
      exact ⟨y, readBlockNode_lineOf hword (isAbsent_openFields hne hfields (by omega) _ _)
        (readBlockContent_openFields hne hfields _ hread), hy⟩

theorem readBlockEntries_openFields {col column fuel : Nat} {r : List Char}
    (hr : NextLine r) (hcolumn : column ≤ col) (hend : column < col ∨ r = []) (l : Nat) :
    (fields : List (List Char × Layout)) → fields ≠ [] → ValidFields fields →
    4 * (writeFields col fields).length ≤ fuel →
    ∃ y, readBlockEntries fuel col
        (.line l col (openFields col fields ++ (indentation column ++ r))) =
        .ok (entries fields, y) ∧ y.Reaches column r
  | [(k, v)], _, ⟨hk, hv, _⟩, hfuel => by
      simp only [writeFields, List.length_append, List.length_cons, List.append_nil] at hfuel
      obtain ⟨fuel, rfl⟩ : ∃ n, fuel = n + 3 := Nat.exists_eq_add_of_le' (by omega)
      have hafter : col < col + k.length + 1 := by omega
      have hvalue : 4 * (writeValue col v).length ≤ fuel + 1 := by omega
      obtain ⟨y, hread, l', hskip⟩ :=
        readBlockNode_writeValue (p := ⟨l, col + k.length + 1⟩) hr hcolumn hafter v hv hvalue
      have hentry := readBlockEntry_key hk (atBlank_writeValue col v _) hread
      refine ⟨.line l' column r, ?_, Cursor.reaches_line hr.word l' column⟩
      simpa [openFields, writeFields, entries] using readBlockEntries_last hend hentry hskip
  | (k, v) :: (k', v') :: fields, _, ⟨hk, hv, hfields⟩, hfuel => by
      rw [writeFields] at hfuel
      simp only [List.length_append, List.length_cons] at hfuel
      obtain ⟨fuel, rfl⟩ : ∃ n, fuel = n + 3 := Nat.exists_eq_add_of_le' (by omega)
      have hafter : col < col + k.length + 1 := by omega
      have hvalue : 4 * (writeValue col v).length ≤ fuel + 1 := by omega
      have hrestFuel : 4 * (writeFields col ((k', v') :: fields)).length ≤ fuel + 2 := by omega
      obtain ⟨t, ht, hk'⟩ : ∃ t, openFields col ((k', v') :: fields) ++ (indentation column ++ r) =
          k' ++ t ∧ Key k' := ⟨_, by rw [openFields, List.append_assoc], hfields.1⟩
      obtain ⟨y, hread, l', hskip⟩ := readBlockNode_writeValue (p := ⟨l, col + k.length + 1⟩)
        (hk'.nextLine t) (Nat.le_refl col) hafter v hv hvalue
      obtain ⟨z, hrest, hz⟩ := readBlockEntries_openFields hr hcolumn hend l'
        ((k', v') :: fields) (List.cons_ne_nil _ _) hfields hrestFuel
      rw [ht] at hrest
      have hentry := readBlockEntry_key hk (atBlank_writeValue col v _) hread
      refine ⟨z, ?_, hz⟩
      rw [openFields, writeFields_eq (List.cons_ne_nil _ _), List.append_assoc, List.cons_append,
        List.append_assoc, List.append_assoc, ht]
      exact readBlockEntries_more hk' hentry hskip hrest

end

/-! ## 書いた文書の文字 -/

namespace Layout

theorem printable_endLine (h : Printable s) : Printable (endLine s) := by
  rw [endLine]
  split
  · exact h
  · exact .append h (.singleton rfl)

theorem printable_writeItem (indent : Nat) (s : Scalar) : Printable (writeItem indent s) :=
  .append (.indentation indent)
    (.cons rfl (.cons rfl (printable_endLine (printable_writeScalar _ _ _))))

theorem printable_key (h : Key k) : Printable k := by
  have hplain := h.plain
  simp only [allowsPlain, Bool.and_eq_true, Bool.not_eq_true'] at hplain
  exact printable_of_needsDoubleQuotes hplain.1.1.1

mutual

theorem printable_writeValue (indent : Nat) :
    (v : Layout) → v.Valid → Printable (writeValue indent v)
  | scalar s, _ => .cons rfl (printable_endLine (printable_writeScalar _ _ _))
  | list [], _ => by
      have hbrackets : ∀ c ∈ " []\n".toList, isPrintable c = true :=
        List.all_eq_true.mp (by decide)
      exact hbrackets
  | list (s :: items), _ => by
      refine .cons rfl fun x hx => ?_
      obtain ⟨s, -, hx⟩ := List.mem_flatMap.mp hx
      exact printable_writeItem indent s x hx
  | record fields, h => .cons rfl (printable_writeFields _ fields h.2)

theorem printable_writeFields (indent : Nat) :
    (fields : List (List Char × Layout)) → ValidFields fields →
      Printable (writeFields indent fields)
  | [], _ => .nil
  | (k, v) :: fields, ⟨hk, hv, hfields⟩ => by
      rw [writeFields]
      exact .append (.append (.append (.indentation indent) (printable_key hk))
        (.cons rfl (printable_writeValue indent v hv)))
        (printable_writeFields indent fields hfields)

end

end Layout

/-! ## 文書 -/

theorem expectEnd_line (fuel l : Nat) {c : Cursor} (h : c.skipGap false = .line l 0 []) :
    expectEnd (fuel + 1) c = .ok () := by
  rw [expectEnd, h]
  rfl

theorem readRoot_word {c : Cursor} (hpercent : c.at? '%' = false)
    (hmark : atDocumentMark c.rest = false) :
    readRoot fuel c = readBlockNode fuel 0 false {} c := by
  have hstart : atDocumentStart c.rest = false := (Bool.or_eq_false_iff.mp hmark).1
  have hunmarked : c.atMark = false := by rw [Cursor.atMark, hmark, Bool.and_false]
  rw [readRoot, hpercent, hstart, hunmarked]
  simp only [Bool.and_false]
  rfl

theorem readBlockNode_root {fields : List (List Char × Layout)} (hne : fields ≠ [])
    (h : ValidFields fields) (hfuel : 4 * (openFields 0 fields).length ≤ fuel + 1) :
    ∃ y, readBlockNode (fuel + 3) 0 false {} (.line 0 0 (openFields 0 fields)) =
      .ok (.mapping (entries fields), y) ∧ y.Reaches 0 [] := by
  have htext : writeFields 0 fields = openFields 0 fields := writeFields_eq hne
  rw [← htext] at hfuel
  obtain ⟨y, hread, hy⟩ := readBlockEntries_openFields .nil (Nat.le_refl 0) (.inr rfl) 0 fields hne
    h hfuel
  have hcontent : readBlockContent (fuel + 2) 0 false {} _ = _ :=
    readBlockContent_openFields hne h _ hread
  have hpresent : isAbsent 0 false _ = false :=
    isAbsent_openFields hne h (Nat.le_refl 0) 0 (indentation 0 ++ [])
  have hnil : openFields 0 fields ++ (indentation 0 ++ []) = openFields 0 fields := by
    simp [indentation]
  rw [hnil] at hcontent hpresent
  obtain ⟨k, t, ht, hk, -⟩ := exists_key hne h 0 []
  have hword : WordStart (openFields 0 fields) := by
    rw [← List.append_nil (openFields 0 fields), ht]
    exact (hk.nextLine _).word
  refine ⟨y, ?_, hy⟩
  rw [readBlockNode, Cursor.skipGap_word hword, hpresent, hcontent]
  rfl

/-- 書いた組は、一つの文書として読み戻せる。 -/
theorem parse_writeFields {fields : List (List Char × Layout)} (hne : fields ≠ [])
    (h : ValidFields fields) :
    parse (writeFields 0 fields) = .ok (some (.mapping (entries fields))) := by
  have hprintable := printable_writeFields 0 fields h
  have htext : writeFields 0 fields = openFields 0 fields := writeFields_eq hne
  have hfuel : 4 * (openFields 0 fields).length ≤ 8 * (openFields 0 fields).length + 13 + 1 := by
    omega
  obtain ⟨y, hread, l, hskip⟩ := readBlockNode_root hne h hfuel
  obtain ⟨k, t, ht, hk, -⟩ := exists_key hne h 0 []
  rw [List.append_nil] at ht
  rw [parse, hprintable.allowed, hprintable.unifyBreaks_eq, htext]
  rw [ht] at hread ⊢
  generalize hs : k ++ ':' :: t = s at hread
  have hword : WordStart s := hs ▸ (hk.nextLine _).word
  have hhead : (s.head? == some '\ufeff') = false :=
    beq_eq_false_iff_ne.mpr fun heq => (hword '\ufeff' heq).2.2.2 rfl
  have hstart : ({ rest := s } : Cursor).skipGap false = .line 0 0 s := Cursor.skipGap_word hword
  have hfull : (Cursor.line 0 0 s).atEnd = false := by
    simp [Cursor.line, Cursor.atEnd, ← hs]
  have hpercent : (Cursor.line 0 0 s).at? '%' = false :=
    beq_eq_false_iff_ne.mpr (hs ▸ hk.head?_ne_percent _)
  have hroot : readRoot (8 * s.length + 16) (.line 0 0 s) =
      .ok (.mapping (entries fields), y) :=
    (readRoot_word hpercent (hs ▸ hk.atDocumentMark _)).trans hread
  simp only [hhead, Bool.not_true, Bool.false_eq_true, if_false, hstart, hfull, hroot, bind,
    Except.bind, expectEnd_line _ _ hskip]
  rfl

end GroupedVariants.Yaml
