import GroupedVariants.Proofs.Text.Parts
import GroupedVariants.Repl

/-!
# 行の読み方

行の形は、初めの空白の後にあるもので決まる。名の大小をそろえる変換は、ASCII の文字と、それ以外の文字の行き先だけを
定めておけば足りる。
-/

namespace GroupedVariants.Repl

variable {line name tail rest word : List Char} {lower : List Char → List Char}

/-! ## 行の形 -/

/-- 初めの空白の後が、コロンのほかの文字である行。 -/
def Plain (line : List Char) : Prop :=
  ∃ before c after, line = before ++ c :: after ∧ (∀ b ∈ before, Text.isBlank b = true) ∧
    Text.isBlank c = false ∧ c ≠ ':'

/-- 名の後に何もないか、初めの空白の先が残りである。 -/
inductive Remainder : List Char → List Char → Prop
  | none : Remainder [] []
  | some {w : Char} {rest : List Char} (h : Text.isBlank w = true) : Remainder (w :: rest) rest

/-- 初めの空白の後がコロンで、名が続く行。名は空白を含まない。 -/
def Invokes (line name rest : List Char) : Prop :=
  ∃ before tail, line = before ++ ':' :: (name ++ tail) ∧ (∀ b ∈ before, Text.isBlank b = true) ∧
    (∀ c ∈ name, Text.isBlank c = false) ∧ Remainder tail rest

theorem exists_remainder (s : List Char) :
    ∃ name tail rest, s = name ++ tail ∧ (∀ c ∈ name, Text.isBlank c = false) ∧
      Remainder tail rest := by
  have hname : ∀ c ∈ s.takeWhile (!Text.isBlank ·), Text.isBlank c = false := fun c hc => by
    simpa using List.mem_takeWhile_imp hc
  have hs : s = s.takeWhile (!Text.isBlank ·) ++ s.dropWhile (!Text.isBlank ·) :=
    List.takeWhile_append_dropWhile.symm
  cases htail : s.dropWhile (!Text.isBlank ·) with
  | nil => exact ⟨_, [], [], htail ▸ hs, hname, .none⟩
  | cons w rest =>
      have hhead := List.head?_dropWhile_not (!Text.isBlank ·) s
      rw [htail] at hhead
      exact ⟨_, w :: rest, rest, htail ▸ hs, hname, .some (by simpa using hhead)⟩

theorem blank_or_plain_or_invokes (line : List Char) :
    Text.trim line = [] ∨ Plain line ∨ ∃ name rest, Invokes line name rest := by
  cases h : Text.trimStart line with
  | nil =>
      rw [Text.trim, h]
      exact .inl rfl
  | cons c s =>
      obtain ⟨before, hline, hbefore, hc⟩ := Text.dropWhile_eq_iff.mp h
      by_cases hcolon : c = ':'
      · subst hcolon
        obtain ⟨name, tail, rest, rfl, hname, htail⟩ := exists_remainder s
        exact .inr (.inr ⟨name, rest, before, tail, hline, hbefore, hname, htail⟩)
      · exact .inr (.inl ⟨before, c, s, hline, hbefore, hc c rfl, hcolon⟩)

theorem request_of_blank (h : Text.trim line = []) : request line = .blank := by
  rw [request, Text.trimStart_eq_nil_of_trim h]

theorem request_of_plain (h : Plain line) : request line = .expansion := by
  obtain ⟨before, c, after, rfl, hbefore, hc, hcolon⟩ := h
  rw [request, Text.trimStart_append hc hbefore]
  split
  next heq => cases heq
  next heq => exact absurd (List.head_eq_of_cons_eq heq) hcolon
  next => rfl

/-! ## 命令の名 -/

inductive Command where
  | help
  | exit
  | options
  | spans
  deriving DecidableEq

namespace Command

def names : Command → List (List Char)
  | help => ["help".toList, "?".toList]
  | exit => ["quit".toList, "exit".toList, "q".toList]
  | options => ["options".toList, "o".toList]
  | spans => ["matches".toList, "m".toList]

def request (rest : List Char) : Command → Request
  | help => .help
  | exit => .quit
  | options => .options
  | spans => .spans rest

end Command

theorem takeWhile_name (hname : ∀ c ∈ name, Text.isBlank c = false) (htail : Remainder tail rest) :
    (name ++ tail).takeWhile (!Text.isBlank ·) = name := by
  rw [List.takeWhile_append_of_pos fun c hc => by simp [hname c hc]]
  cases htail with
  | none => exact List.append_nil name
  | some hw => rw [List.takeWhile_cons_of_neg (by simp [hw]), List.append_nil]

theorem drop_name (htail : Remainder tail rest) : (name ++ tail).drop (name.length + 1) = rest := by
  rw [List.drop_append, List.drop_eq_nil_of_le (Nat.le_succ _)]
  cases htail with
  | none => simp
  | some hw => simp

theorem command_of_mem {k : Command} (hname : ∀ c ∈ name, Text.isBlank c = false)
    (htail : Remainder tail rest) (h : name.map Char.toLower ∈ k.names) :
    command (name ++ tail) = k.request rest := by
  simp only [command, takeWhile_name hname htail, drop_name htail]
  cases k <;> simp only [Command.names, List.mem_cons, List.not_mem_nil, or_false] at h
  case help => rcases h with h | h <;> rw [h] <;> rfl
  case exit => rcases h with h | h | h <;> rw [h] <;> rfl
  case options => rcases h with h | h <;> rw [h] <;> rfl
  case spans => rcases h with h | h <;> rw [h] <;> rfl

theorem command_of_not_mem (hname : ∀ c ∈ name, Text.isBlank c = false)
    (htail : Remainder tail rest) (h : ∀ k : Command, name.map Char.toLower ∉ k.names) :
    command (name ++ tail) = .unknown name := by
  have hne {k : Command} {s : String} (hs : s.toList ∈ k.names)
      (heq : String.ofList (name.map Char.toLower) = s) : False := by
    refine h k ?_
    rwa [← heq, String.toList_ofList] at hs
  simp only [command, takeWhile_name hname htail, drop_name htail]
  split
  next heq => exact (hne (k := .help) (by decide) heq).elim
  next heq => exact (hne (k := .help) (by decide) heq).elim
  next heq => exact (hne (k := .exit) (by decide) heq).elim
  next heq => exact (hne (k := .exit) (by decide) heq).elim
  next heq => exact (hne (k := .exit) (by decide) heq).elim
  next heq => exact (hne (k := .options) (by decide) heq).elim
  next heq => exact (hne (k := .options) (by decide) heq).elim
  next heq => exact (hne (k := .spans) (by decide) heq).elim
  next heq => exact (hne (k := .spans) (by decide) heq).elim
  next => rfl

/-! ## 大小をそろえる変換 -/

/-- 名を小文字にする変換。ASCII の外の文字は、ASCII の外の文字か `k` を残す。 -/
structure Lowering (lower : List Char → List Char) : Prop where
  ascii : ∀ s, (∀ c ∈ s, c.toNat < 128) → lower s = s.map Char.toLower
  wide : ∀ s, ∀ c ∈ s, 128 ≤ c.toNat → ∃ b ∈ lower s, 128 ≤ b.toNat ∨ b = 'k'

theorem Lowering.toLower : Lowering (List.map Char.toLower) where
  ascii _ _ := rfl
  wide s c hc hwide := by
    have hupper : ¬ (c.val ≥ 'A'.val ∧ c.val ≤ 'Z'.val) := by
      rintro ⟨-, hle⟩
      have hz : c.toNat ≤ 90 := UInt32.le_iff_toNat_le.mp hle
      omega
    exact ⟨c, List.mem_map.mpr ⟨c, hc, dif_neg hupper⟩, .inl hwide⟩

theorem Lowering.eq_iff (h : Lowering lower) (hword : ∀ c ∈ word, c.toNat < 128 ∧ c ≠ 'k') :
    lower name = word ↔ name.map Char.toLower = word := by
  -- どちらの変換で `word` になっても、`name` に ASCII の外の文字はない。
  have hascii {f : List Char → List Char} (hf : Lowering f) (heq : f name = word) :
      lower name = name.map Char.toLower := by
    refine h.ascii name fun c hc => ?_
    refine Nat.lt_of_not_le fun hwide => ?_
    obtain ⟨b, hb, hb'⟩ := hf.wide name c hc hwide
    obtain ⟨hlow, hk⟩ := hword b (heq ▸ hb)
    exact hb'.elim (Nat.not_le.mpr hlow) hk
  constructor
  · intro heq
    rw [← hascii h heq, heq]
  · intro heq
    rw [hascii Lowering.toLower heq, heq]

theorem Lowering.mem_names_iff (h : Lowering lower) (k : Command) :
    lower name ∈ k.names ↔ name.map Char.toLower ∈ k.names := by
  have hall : ∀ word ∈ k.names, word.all (fun c => c.toNat < 128 ∧ c ≠ 'k') = true := by
    cases k <;> decide
  have hnames : ∀ word ∈ k.names, ∀ c ∈ word, c.toNat < 128 ∧ c ≠ 'k' := fun word hword c hc =>
    of_decide_eq_true (List.all_eq_true.mp (hall word hword) c hc)
  constructor
  · intro hmem
    rwa [(h.eq_iff (hnames _ hmem)).mp rfl]
  · intro hmem
    rwa [(h.eq_iff (hnames _ hmem)).mpr rfl]

/-! ## 命令の行の読み -/

theorem Invokes.request_eq (h : Invokes line name rest) :
    ∃ tail, request line = command (name ++ tail) ∧ (∀ c ∈ name, Text.isBlank c = false) ∧
      Remainder tail rest := by
  obtain ⟨before, tail, rfl, hbefore, hname, htail⟩ := h
  refine ⟨tail, ?_, hname, htail⟩
  rw [request, Text.trimStart_append (by decide) hbefore]
  rfl

theorem request_of_mem (hlower : Lowering lower) (h : Invokes line name rest) {k : Command}
    (hk : lower name ∈ k.names) : request line = k.request rest := by
  obtain ⟨tail, heq, hname, htail⟩ := h.request_eq
  rw [heq, command_of_mem hname htail ((hlower.mem_names_iff k).mp hk)]

theorem request_of_not_mem (hlower : Lowering lower) (h : Invokes line name rest)
    (hk : ∀ k : Command, lower name ∉ k.names) : request line = .unknown name := by
  obtain ⟨tail, heq, hname, htail⟩ := h.request_eq
  rw [heq, command_of_not_mem hname htail fun k hmem => hk k ((hlower.mem_names_iff k).mpr hmem)]

end GroupedVariants.Repl
