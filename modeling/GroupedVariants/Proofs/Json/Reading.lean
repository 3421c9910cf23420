import GroupedVariants.Json.Reader
import GroupedVariants.Proofs.Json.Quoted
import Mathlib.Data.List.TakeDrop

/-!
# 書いた値は、元の値に読み戻せる

詰めた書き方も字下げした書き方も、間の空白が違うだけである。空白を任意とした補題から両方を得る。
-/

namespace GroupedVariants.Json

open Text

variable {v : Value} {vs : List Value} {k s t g rest : List Char} {fuel n : Nat}
  {ms : List (List Char × Value)}

/-! ## 空白 -/

def Spaces (g : List Char) : Prop := ∀ c ∈ g, isSpace c = true

theorem isSpace_cases {c : Char} (h : isSpace c = true) :
    c = ' ' ∨ c = '\t' ∨ c = '\n' ∨ c = '\r' := by
  simpa [isSpace, or_assoc] using h

theorem spaces_nil : Spaces [] := by simp [Spaces]

theorem spaces_blank : Spaces [' '] := by simp [Spaces, isSpace]

theorem spaces_newline (depth : Nat) : Spaces (Value.newline depth) := by
  intro c hc
  rcases List.mem_cons.mp hc with rfl | hc
  · rfl
  · rw [List.eq_of_mem_replicate hc]
    rfl

theorem skipSpace_append (hg : Spaces g) (s : List Char) : skipSpace (g ++ s) = skipSpace s :=
  List.dropWhile_append_of_pos hg

theorem skipSpace_cons {c : Char} (hc : isSpace c = false) (s : List Char) :
    skipSpace (c :: s) = c :: s := by
  simp [skipSpace, hc]

theorem readValue?_append (hg : Spaces g) (s : List Char) :
    readValue? fuel (g ++ s) = readValue? fuel s := by
  cases fuel with
  | zero => rw [readValue?, readValue?]
  | succ fuel => rw [readValue?, readValue?, skipSpace_append hg]

theorem readElements?_append (hg : Spaces g) (s : List Char) :
    readElements? fuel (g ++ s) = readElements? fuel s := by
  cases fuel with
  | zero => rw [readElements?, readElements?]
  | succ fuel => rw [readElements?, readElements?, readValue?_append hg]

theorem readMembers?_append (hg : Spaces g) (s : List Char) :
    readMembers? fuel (g ++ s) = readMembers? fuel s := by
  cases fuel with
  | zero => rw [readMembers?, readMembers?]
  | succ fuel => rw [readMembers?, readMembers?, skipSpace_append hg]

/-! ## 数 -/

/-- 数の続きと読まれる文字から始まらない。 -/
def Ends (rest : List Char) : Prop :=
  ∀ c ∈ rest.head?, isDigit c = false ∧ c ≠ '.' ∧ isExponentMark c = false

theorem ends_nil : Ends [] := by simp [Ends]

theorem ends_cons {c : Char} (hd : isDigit c = false) (hp : c ≠ '.')
    (he : isExponentMark c = false) (s : List Char) : Ends (c :: s) := by
  simp [Ends, hd, hp, he]

theorem takeDigits_append (hs : ∀ c ∈ s, isDigit c = true) (hr : Ends rest) :
    takeDigits (s ++ rest) = (s, rest) := by
  have htake : rest.takeWhile isDigit = [] := by
    cases rest with
    | nil => rfl
    | cons c rest => simp [(hr c rfl).1]
  have hdrop : rest.dropWhile isDigit = rest := by
    cases rest with
    | nil => rfl
    | cons c rest => simp [(hr c rfl).1]
  rw [takeDigits, List.span_eq_takeWhile_dropWhile, List.takeWhile_append_of_pos hs,
    List.dropWhile_append_of_pos hs, htake, hdrop, List.append_nil]

theorem readInteger?_decimal (n : Nat) (hr : Ends rest) :
    readInteger? (decimal n ++ rest) = some (decimal n, rest) := by
  have hdigits := takeDigits_append (isDigit_of_mem_decimal n) hr
  obtain ⟨c, s, hs⟩ := List.exists_cons_of_ne_nil (decimal_ne_nil n)
  rcases Nat.eq_zero_or_pos n with rfl | hn
  · have hrest : takeDigits rest = ([], rest) := takeDigits_append (s := []) (by simp) hr
    rw [decimal_of_lt (by decide)]
    simp [readInteger?, digit, hrest]
  · have hc : c ≠ '0' := by
      have hhead := head?_decimal_ne_zero hn
      rw [hs] at hhead
      simpa using hhead
    rw [hs] at hdigits ⊢
    rw [List.cons_append] at hdigits ⊢
    rw [readInteger?.eq_def]
    split
    · simp_all
    · rw [readDigits?, hdigits]

theorem readFraction?_ends (hr : Ends rest) : readFraction? rest = some ([], rest) := by
  cases rest with
  | nil => rfl
  | cons c rest =>
      have hc := (hr c rfl).2.1
      rw [readFraction?.eq_def]
      split
      · simp_all
      · rfl

theorem readExponent?_ends (hr : Ends rest) : readExponent? rest = some ([], rest) := by
  cases rest with
  | nil => rfl
  | cons c rest => simp [readExponent?, (hr c rfl).2.2]

theorem readNumber?_decimal (n : Nat) (hr : Ends rest) :
    readNumber? (decimal n ++ rest) = some (decimal n, rest) := by
  have hunsigned : readUnsigned? (decimal n ++ rest) = some (decimal n, rest) := by
    simp [readUnsigned?, readInteger?_decimal n hr, readFraction?_ends hr, readExponent?_ends hr]
  obtain ⟨c, s, hs⟩ := List.exists_cons_of_ne_nil (decimal_ne_nil n)
  have hc : isDigit c = true := isDigit_of_mem_decimal n c (by simp [hs])
  rw [hs, List.cons_append] at hunsigned ⊢
  rw [readNumber?.eq_def]
  split
  · rename_i h
    obtain ⟨rfl, -⟩ := List.cons.inj h
    exact absurd hc (by decide)
  · exact hunsigned

theorem isSpace_of_isDigit {c : Char} (hc : isDigit c = true) : isSpace c = false := by
  by_contra h
  rcases isSpace_cases (by simpa using h) with rfl | rfl | rfl | rfl <;>
    exact absurd hc (by decide)

theorem ends_append (hg : Spaces g) (h : Ends s) : Ends (g ++ s) := by
  cases g with
  | nil => exact h
  | cons c g =>
      rcases isSpace_cases (hg c List.mem_cons_self) with rfl | rfl | rfl | rfl <;>
        exact ends_cons rfl (by decide) rfl _

/-! ## 値の初めの文字 -/

/-- 空白からも、並びの閉じ括弧からも始まらない。 -/
def Opens (s : List Char) : Prop := ∃ c t, s = c :: t ∧ isSpace c = false ∧ c ≠ ']'

theorem readValue?_digit {c : Char} (hc : isDigit c = true) (s : List Char) :
    readValue? (fuel + 1) (c :: s) =
      (readNumber? (c :: s)).map fun p => (.number p.1, p.2) := by
  rw [readValue?.eq_def]
  simp only [skipSpace_cons (isSpace_of_isDigit hc)]
  split
  case h_7 => rfl
  -- ほかの場合の初めの文字は、どれも数字でない。
  all_goals
    rename_i h
    obtain ⟨rfl, -⟩ := List.cons.inj h
    exact absurd hc (by decide)

theorem readValue?_quote (s : List Char) :
    readValue? (fuel + 1) ('"' :: s) = (splitQuoted s).map fun p => (.string p.1, p.2) := by
  simp only [readValue?, skipSpace_cons (c := '"') rfl]

theorem readValue?_brackets (s : List Char) :
    readValue? (fuel + 1) ('[' :: ']' :: s) = some (.array [], s) := by
  simp only [readValue?, skipSpace_cons (c := '[') rfl, skipSpace_cons (c := ']') rfl]

theorem readValue?_bracket (hg : Spaces g) (hs : Opens s) :
    readValue? (fuel + 1) ('[' :: (g ++ s)) =
      (readElements? fuel s).map fun p => (.array p.1, p.2) := by
  obtain ⟨c, t, rfl, hc, hb⟩ := hs
  simp only [readValue?, skipSpace_cons (c := '[') rfl, skipSpace_append hg, skipSpace_cons hc]
  split
  · rename_i h
    exact absurd (List.cons.inj h).1 hb
  · rfl

theorem readValue?_braces (s : List Char) :
    readValue? (fuel + 1) ('{' :: '}' :: s) = some (.object [], s) := by
  simp only [readValue?, skipSpace_cons (c := '{') rfl, skipSpace_cons (c := '}') rfl]

theorem readValue?_brace (hg : Spaces g) (s : List Char) :
    readValue? (fuel + 1) ('{' :: (g ++ '"' :: s)) =
      (readMembers? fuel ('"' :: s)).map fun p => (.object p.1, p.2) := by
  simp only [readValue?, skipSpace_cons (c := '{') rfl, skipSpace_append hg,
    skipSpace_cons (c := '"') rfl]
  rfl

/-! ## 綴りの読み取り -/

/-- `s` は値 `v` の綴りで、続きが何であってもそこまでが読まれる。 -/
structure Reads (v : Value) (s : List Char) : Prop where
  opens : Opens s
  read : ∀ fuel rest, 2 * s.length ≤ fuel → Ends rest → readValue? fuel (s ++ rest) = some (v, rest)

/-- `s` は、閉じ括弧の前に並べた要素の綴りである。 -/
structure ReadsElements (vs : List Value) (s : List Char) : Prop where
  opens : Opens s
  read : ∀ fuel g rest, 2 * s.length + 1 ≤ fuel → Spaces g →
    readElements? fuel (s ++ (g ++ ']' :: rest)) = some (vs, rest)

/-- `s` は、閉じ括弧の前に並べた名と値の組の綴りである。 -/
structure ReadsMembers (ms : List (List Char × Value)) (s : List Char) : Prop where
  opens : ∃ t, s = '"' :: t
  read : ∀ fuel g rest, 2 * s.length + 1 ≤ fuel → Spaces g →
    readMembers? fuel (s ++ (g ++ '}' :: rest)) = some (ms, rest)

theorem reads_ofNat (n : Nat) : Reads (.ofNat n) (decimal n) := by
  obtain ⟨c, s, hs⟩ := List.exists_cons_of_ne_nil (decimal_ne_nil n)
  have hc : isDigit c = true := isDigit_of_mem_decimal n c (by simp [hs])
  refine ⟨⟨c, s, hs, isSpace_of_isDigit hc, ?_⟩, fun fuel rest hfuel hr => ?_⟩
  · rintro rfl
    exact absurd hc (by decide)
  · have hnumber := readNumber?_decimal n hr
    rw [hs, List.length_cons] at hfuel
    obtain ⟨fuel, rfl⟩ := Nat.exists_eq_succ_of_ne_zero (by omega : fuel ≠ 0)
    rw [hs, List.cons_append] at hnumber ⊢
    rw [readValue?_digit hc, hnumber, Value.ofNat, hs]
    rfl

theorem reads_ofText (s : List Char) : Reads (.ofText s) (Value.quoted (encode s)) := by
  refine ⟨⟨'"', _, rfl, rfl, by decide⟩, fun fuel rest hfuel hr => ?_⟩
  rw [Value.quoted, List.cons_append, List.length_cons] at hfuel
  obtain ⟨fuel, rfl⟩ := Nat.exists_eq_succ_of_ne_zero (by omega : fuel ≠ 0)
  have htext : Value.quoted (encode s) ++ rest = '"' :: (encode s ++ '"' :: rest) := by
    simp [Value.quoted]
  rw [htext, readValue?_quote, splitQuoted_encode]
  rfl

/-! ### 並び -/

theorem reads_array_nil : Reads (.array []) ['[', ']'] := by
  refine ⟨⟨'[', _, rfl, rfl, by decide⟩, fun fuel rest hfuel hr => ?_⟩
  rw [List.length_cons] at hfuel
  obtain ⟨fuel, rfl⟩ := Nat.exists_eq_succ_of_ne_zero (by omega : fuel ≠ 0)
  exact readValue?_brackets rest

theorem ReadsElements.array (h : ReadsElements vs s) {g' : List Char} (hg : Spaces g)
    (hg' : Spaces g') : Reads (.array vs) ('[' :: (g ++ (s ++ (g' ++ [']'])))) := by
  refine ⟨⟨'[', _, rfl, rfl, by decide⟩, fun fuel rest hfuel hr => ?_⟩
  simp only [List.length_cons, List.length_append] at hfuel
  obtain ⟨fuel, rfl⟩ := Nat.exists_eq_succ_of_ne_zero (by omega : fuel ≠ 0)
  have hread := h.read fuel g' rest (by omega) hg'
  have hopens : Opens (s ++ (g' ++ ']' :: rest)) := by
    obtain ⟨c, t, rfl, hc, hb⟩ := h.opens
    exact ⟨c, _, rfl, hc, hb⟩
  have htext : '[' :: (g ++ (s ++ (g' ++ [']']))) ++ rest =
      '[' :: (g ++ (s ++ (g' ++ ']' :: rest))) := by simp
  rw [htext, readValue?_bracket hg hopens, hread]
  rfl

theorem ReadsElements.single (h : Reads v s) : ReadsElements [v] s := by
  refine ⟨h.opens, fun fuel g rest hfuel hg => ?_⟩
  obtain ⟨fuel, rfl⟩ := Nat.exists_eq_succ_of_ne_zero (by omega : fuel ≠ 0)
  have hread := h.read fuel (g ++ ']' :: rest) (by omega)
    (ends_append hg (ends_cons rfl (by decide) rfl rest))
  rw [readElements?, hread]
  simp only [skipSpace_append hg, skipSpace_cons (c := ']') rfl]

theorem ReadsElements.cons (h : Reads v s) (h' : ReadsElements vs t) (hg : Spaces g) :
    ReadsElements (v :: vs) (s ++ ',' :: (g ++ t)) := by
  refine ⟨?_, fun fuel g' rest hfuel hg' => ?_⟩
  · obtain ⟨c, u, rfl, hc, hb⟩ := h.opens
    exact ⟨c, _, rfl, hc, hb⟩
  simp only [List.length_cons, List.length_append] at hfuel
  obtain ⟨fuel, rfl⟩ := Nat.exists_eq_succ_of_ne_zero (by omega : fuel ≠ 0)
  have hread := h.read fuel (',' :: (g ++ (t ++ (g' ++ ']' :: rest)))) (by omega)
    (ends_cons rfl (by decide) rfl _)
  have htail := h'.read fuel g' rest (by omega) hg'
  have htext : s ++ ',' :: (g ++ t) ++ (g' ++ ']' :: rest) =
      s ++ ',' :: (g ++ (t ++ (g' ++ ']' :: rest))) := by simp
  rw [htext, readElements?, hread]
  simp only [skipSpace_cons (c := ',') rfl, readElements?_append hg, htail, Option.map_some]

/-- 要素の綴り `f` を、区切りと空白 `g` でつないで書いたもの。 -/
theorem ReadsElements.of_printer {f : Value → List Char} {p : List Value → List Char}
    (hg : Spaces g) (hone : ∀ v, p [v] = f v)
    (hmore : ∀ v w vs, p (v :: w :: vs) = f v ++ ',' :: (g ++ p (w :: vs)))
    (h : ∀ u ∈ v :: vs, Reads u (f u)) : ReadsElements (v :: vs) (p (v :: vs)) := by
  induction vs generalizing v with
  | nil =>
      rw [hone]
      exact .single (h v List.mem_cons_self)
  | cons w vs ih =>
      rw [hmore]
      exact .cons (h v List.mem_cons_self) (ih fun u hu => h u (List.mem_cons_of_mem v hu)) hg

/-! ### 名と値の組 -/

theorem reads_object_nil : Reads (.object []) ['{', '}'] := by
  refine ⟨⟨'{', _, rfl, rfl, by decide⟩, fun fuel rest hfuel hr => ?_⟩
  rw [List.length_cons] at hfuel
  obtain ⟨fuel, rfl⟩ := Nat.exists_eq_succ_of_ne_zero (by omega : fuel ≠ 0)
  exact readValue?_braces rest

theorem ReadsMembers.object (h : ReadsMembers ms s) {g' : List Char} (hg : Spaces g)
    (hg' : Spaces g') : Reads (.object ms) ('{' :: (g ++ (s ++ (g' ++ ['}'])))) := by
  refine ⟨⟨'{', _, rfl, rfl, by decide⟩, fun fuel rest hfuel hr => ?_⟩
  simp only [List.length_cons, List.length_append] at hfuel
  obtain ⟨fuel, rfl⟩ := Nat.exists_eq_succ_of_ne_zero (by omega : fuel ≠ 0)
  have hread := h.read fuel g' rest (by omega) hg'
  obtain ⟨t, rfl⟩ := h.opens
  have htext : '{' :: (g ++ ('"' :: t ++ (g' ++ ['}']))) ++ rest =
      '{' :: (g ++ '"' :: (t ++ (g' ++ '}' :: rest))) := by simp
  rw [List.cons_append] at hread
  rw [htext, readValue?_brace hg, hread]
  rfl

theorem ReadsMembers.single (k : List Char) (hg : Spaces g) (h : Reads v s) :
    ReadsMembers [(encode k, v)] (Value.quoted (encode k) ++ ':' :: (g ++ s)) := by
  refine ⟨⟨_, rfl⟩, fun fuel g' rest hfuel hg' => ?_⟩
  simp only [List.length_cons, List.length_append] at hfuel
  obtain ⟨fuel, rfl⟩ := Nat.exists_eq_succ_of_ne_zero (by omega : fuel ≠ 0)
  have hread := h.read fuel (g' ++ '}' :: rest) (by omega)
    (ends_append hg' (ends_cons rfl (by decide) rfl rest))
  have htext : Value.quoted (encode k) ++ ':' :: (g ++ s) ++ (g' ++ '}' :: rest) =
      '"' :: (encode k ++ '"' :: ':' :: (g ++ (s ++ (g' ++ '}' :: rest)))) := by
    simp [Value.quoted]
  rw [htext, readMembers?]
  simp only [skipSpace_cons (c := '"') rfl, splitQuoted_encode, skipSpace_cons (c := ':') rfl,
    readValue?_append hg, hread, skipSpace_append hg', skipSpace_cons (c := '}') rfl]

theorem ReadsMembers.cons (k : List Char) (hg : Spaces g) (h : Reads v s)
    (h' : ReadsMembers ms t) {g' : List Char} (hg' : Spaces g') :
    ReadsMembers ((encode k, v) :: ms)
      (Value.quoted (encode k) ++ ':' :: (g ++ (s ++ ',' :: (g' ++ t)))) := by
  refine ⟨⟨_, rfl⟩, fun fuel g'' rest hfuel hg'' => ?_⟩
  simp only [List.length_cons, List.length_append] at hfuel
  obtain ⟨fuel, rfl⟩ := Nat.exists_eq_succ_of_ne_zero (by omega : fuel ≠ 0)
  have hread := h.read fuel (',' :: (g' ++ (t ++ (g'' ++ '}' :: rest)))) (by omega)
    (ends_cons rfl (by decide) rfl _)
  have htail := h'.read fuel g'' rest (by omega) hg''
  have htext : Value.quoted (encode k) ++ ':' :: (g ++ (s ++ ',' :: (g' ++ t))) ++
        (g'' ++ '}' :: rest) =
      '"' :: (encode k ++
        '"' :: ':' :: (g ++ (s ++ ',' :: (g' ++ (t ++ (g'' ++ '}' :: rest)))))) := by
    simp [Value.quoted]
  rw [htext, readMembers?]
  simp only [skipSpace_cons (c := '"') rfl, splitQuoted_encode, skipSpace_cons (c := ':') rfl,
    readValue?_append hg, hread, skipSpace_cons (c := ',') rfl, readMembers?_append hg', htail,
    Option.map_some]

/-- 値の綴り `f` を、名の後と組の間に空白を置いて書いたもの。 -/
theorem ReadsMembers.of_printer {f : Value → List Char} {g' : List Char}
    {p : List (List Char × Value) → List Char} {m : List Char × Value}
    (hg : Spaces g) (hg' : Spaces g')
    (hone : ∀ k v, p [(k, v)] = Value.quoted k ++ ':' :: (g ++ f v))
    (hmore : ∀ k v m ms, p ((k, v) :: m :: ms) =
      Value.quoted k ++ ':' :: (g ++ (f v ++ ',' :: (g' ++ p (m :: ms)))))
    (hk : ∀ n ∈ m :: ms, ∃ k, n.1 = encode k) (h : ∀ n ∈ m :: ms, Reads n.2 (f n.2)) :
    ReadsMembers (m :: ms) (p (m :: ms)) := by
  induction ms generalizing m with
  | nil =>
      obtain ⟨k, v⟩ := m
      obtain ⟨k, rfl⟩ := hk _ List.mem_cons_self
      rw [hone]
      exact .single k hg (h _ List.mem_cons_self)
  | cons n ms ih =>
      obtain ⟨k, v⟩ := m
      obtain ⟨k, rfl⟩ := hk _ List.mem_cons_self
      have hms := ih (fun u hu => hk u (List.mem_cons_of_mem _ hu))
        fun u hu => h u (List.mem_cons_of_mem _ hu)
      rw [hmore]
      exact .cons k hg (h _ List.mem_cons_self) hms hg'

/-! ## 書いた値 -/

/-- 数と文字列の綴りが、数と文字列から作ったものである。 -/
inductive Value.Spelled : Value → Prop
  | ofNat (n : Nat) : Spelled (.ofNat n)
  | ofText (s : List Char) : Spelled (.ofText s)
  | array {vs : List Value} (h : ∀ v ∈ vs, Spelled v) : Spelled (.array vs)
  | object {ms : List (List Char × Value)} (hk : ∀ m ∈ ms, ∃ k, m.1 = encode k)
      (hv : ∀ m ∈ ms, Spelled m.2) : Spelled (.object ms)

namespace Value

theorem Spelled.reads_compact (h : v.Spelled) : Reads v v.compact := by
  induction h with
  | ofNat n => exact reads_ofNat n
  | ofText s => exact reads_ofText s
  | @array vs _ ih =>
      cases vs with
      | nil => exact reads_array_nil
      | cons v vs =>
          have hvs : ReadsElements (v :: vs) (compactElements (v :: vs)) :=
            .of_printer spaces_nil (fun _ => rfl) (fun _ _ _ => rfl) ih
          exact hvs.array spaces_nil spaces_nil
  | @object ms hk _ ih =>
      cases ms with
      | nil => exact reads_object_nil
      | cons m ms =>
          have hms : ReadsMembers (m :: ms) (compactMembers (m :: ms)) :=
            .of_printer spaces_nil spaces_nil (fun _ _ => rfl)
              (fun _ _ _ _ => by simp [compactMembers]) hk ih
          exact hms.object spaces_nil spaces_nil

theorem Spelled.reads_pretty (h : v.Spelled) (depth : Nat) : Reads v (v.pretty depth) := by
  have hline := spaces_newline depth
  have hline' := spaces_newline (depth + 1)
  induction h generalizing depth with
  | ofNat n => exact reads_ofNat n
  | ofText s => exact reads_ofText s
  | @array vs _ ih =>
      cases vs with
      | nil => exact reads_array_nil
      | cons v vs =>
          have hvs : ReadsElements (v :: vs) (prettyElements (depth + 1) (v :: vs)) :=
            .of_printer hline' (fun _ => rfl) (fun _ _ _ => by simp [prettyElements])
              fun u hu => ih u hu (depth + 1) hline' (spaces_newline _)
          simpa [pretty] using hvs.array hline' hline
  | @object ms hk _ ih =>
      cases ms with
      | nil => exact reads_object_nil
      | cons m ms =>
          have hms : ReadsMembers (m :: ms) (prettyMembers (depth + 1) (m :: ms)) :=
            .of_printer spaces_blank hline' (fun _ _ => rfl)
              (fun _ _ _ _ => by simp [prettyMembers]) hk
              fun u hu => ih u hu (depth + 1) hline' (spaces_newline _)
          simpa [pretty] using hms.object hline' hline

theorem parse?_reads (h : Reads v s) (hg : Spaces g) : parse? (s ++ g) = some v := by
  have hends : Ends (g ++ []) := ends_append hg ends_nil
  have hskip : skipSpace (g ++ []) = [] := skipSpace_append hg []
  rw [List.append_nil] at hends hskip
  have hfuel : 2 * s.length ≤ 2 * (s ++ g).length + 1 := by
    rw [List.length_append]
    omega
  rw [parse?, h.read _ g hfuel hends]
  simp only [hskip, List.isEmpty_nil, if_true]

end Value

end GroupedVariants.Json
