import GroupedVariants.Proofs.Delimiters.Check
import GroupedVariants.Scan.Machine

/-!
# 動作の表

表の行は状態の種類、列は文字の条件である。使える区切り文字では二つの条件がともに成り立つことはないので、条件を
どの順に調べても同じ欄が選ばれる。
-/

namespace GroupedVariants.Scan

variable {d : Delimiters} {c : Char}

/-! ## 表 -/

/-- 文字の条件。区切り文字であるか、語を切る文字であるか。 -/
inductive Condition where
  | is (r : Role)
  | breaking
  deriving DecidableEq

def Condition.holds (d : Delimiters) (c : Char) : Condition → Bool
  | is r => c = d.get r
  | breaking => Text.isBreaking c

inductive Mode where
  | idle
  | word
  | variant
  | itemStart
  | item
  | itemVariant
  | afterGroup
  deriving DecidableEq

def State.mode : State → Mode
  | idle => .idle
  | word _ => .word
  | variant _ => .variant
  | itemStart => .itemStart
  | item _ => .item
  | itemVariant _ => .itemVariant
  | afterGroup => .afterGroup

/-- 表の一欄。動作と、その後の状態。 -/
structure Cell where
  action : Action
  next : Mode

/-- その行で調べない条件の欄は空である。 -/
def cell? : Mode → Condition → Option Cell
  | .idle, .breaking => some ⟨.leave, .idle⟩
  | .word, .is .variant => some ⟨.mark, .variant⟩
  | .word, .breaking => some ⟨.leave, .idle⟩
  | .variant, .is .opening => some ⟨.enter, .itemStart⟩
  | .variant, .breaking => some ⟨.leave, .idle⟩
  | .itemStart, .breaking => some ⟨.abandon, .idle⟩
  | .itemStart, .is .closing => some ⟨.abandon, .idle⟩
  | .item, .is .variant => some ⟨.mark, .itemVariant⟩
  | .item, .is .closing => some ⟨.close, .afterGroup⟩
  | .item, .is .separator => some ⟨.separate, .itemStart⟩
  | .itemVariant, .is .opening => some ⟨.enter, .itemStart⟩
  | .itemVariant, .breaking => some ⟨.abandon, .idle⟩
  | .afterGroup, .breaking => some ⟨.abandon, .idle⟩
  | .afterGroup, .is .closing => some ⟨.close, .afterGroup⟩
  | .afterGroup, .is .separator => some ⟨.separate, .itemStart⟩
  | _, _ => none

/-- 調べる条件がどれも成り立たないときの欄。 -/
def otherwise : Mode → Cell
  | .idle => ⟨.begin, .word⟩
  | .word => ⟨.extend, .word⟩
  | .variant => ⟨.extend, .word⟩
  | .itemStart => ⟨.begin, .item⟩
  | .item => ⟨.extend, .item⟩
  | .itemVariant => ⟨.extend, .item⟩
  | .afterGroup => ⟨.abandon, .idle⟩

def candidate? (d : Delimiters) (m : Mode) (c : Char) (k : Condition) : Option Cell :=
  bif k.holds d c then cell? m k else none

/-- `order` の順に調べて、初めに成り立つ条件の欄。 -/
def select (d : Delimiters) (order : List Condition) (m : Mode) (c : Char) : Cell :=
  (order.findSome? (candidate? d m c)).getD (otherwise m)

/-- 調べる条件をすべて含む順。 -/
def Complete (m : Mode) (order : List Condition) : Prop :=
  ∀ k, (cell? m k).isSome → k ∈ order

/-! ## 順によらないこと -/

theorem Condition.eq_of_holds (hd : d.Usable) {k l : Condition} (hk : k.holds d c = true)
    (hl : l.holds d c = true) : k = l := by
  cases k with
  | is r =>
      obtain rfl : c = d.get r := by simpa [holds] using hk
      cases l with
      | is s =>
          have hrs : r = s := Decidable.byContradiction fun hne =>
            hd.distinct r s hne (by simpa [holds] using hl)
          rw [hrs]
      | breaking => exact absurd hl (by simp [holds, hd.solid r])
  | breaking =>
      cases l with
      | is s =>
          obtain rfl : c = d.get s := by simpa [holds] using hl
          exact absurd hk (by simp [holds, hd.solid s])
      | breaking => rfl

theorem findSome?_eq_some_iff_of_unique {α β : Type} {f : α → Option β} {l : List α} {b : β}
    (h : ∀ x ∈ l, ∀ y ∈ l, (f x).isSome → (f y).isSome → x = y) :
    l.findSome? f = some b ↔ ∃ x ∈ l, f x = some b := by
  refine ⟨List.exists_of_findSome?_eq_some, fun ⟨x, hx, hfx⟩ => ?_⟩
  cases hl : l.findSome? f with
  | none =>
      rw [List.findSome?_eq_none_iff.mp hl x hx] at hfx
      cases hfx
  | some b' =>
      obtain ⟨y, hy, hfy⟩ := List.exists_of_findSome?_eq_some hl
      obtain rfl := h x hx y hy (by simp [hfx]) (by simp [hfy])
      exact hfy.symm.trans hfx

theorem candidate?_eq_some_iff {m : Mode} {k : Condition} {e : Cell} :
    candidate? d m c k = some e ↔ k.holds d c = true ∧ cell? m k = some e := by
  cases h : k.holds d c <;> simp [candidate?, h]

theorem findSome?_candidate?_eq_some_iff (hd : d.Usable) {m : Mode} {order : List Condition}
    (h : Complete m order) {e : Cell} :
    order.findSome? (candidate? d m c) = some e ↔ ∃ k, candidate? d m c k = some e := by
  have hunique : ∀ k ∈ order, ∀ l ∈ order, (candidate? d m c k).isSome →
      (candidate? d m c l).isSome → k = l := by
    intro k _ l _ hk hl
    obtain ⟨_, hk⟩ := Option.isSome_iff_exists.mp hk
    obtain ⟨_, hl⟩ := Option.isSome_iff_exists.mp hl
    exact Condition.eq_of_holds hd (candidate?_eq_some_iff.mp hk).1 (candidate?_eq_some_iff.mp hl).1
  rw [findSome?_eq_some_iff_of_unique hunique]
  constructor
  · rintro ⟨k, -, hk⟩
    exact ⟨k, hk⟩
  · rintro ⟨k, hk⟩
    exact ⟨k, h k (by simp [(candidate?_eq_some_iff.mp hk).2]), hk⟩

theorem select_eq_select (hd : d.Usable) {m : Mode} {order order' : List Condition}
    (h : Complete m order) (h' : Complete m order') : select d order m c = select d order' m c := by
  have heq : order.findSome? (candidate? d m c) = order'.findSome? (candidate? d m c) := by
    ext e
    rw [findSome?_candidate?_eq_some_iff hd h,
      findSome?_candidate?_eq_some_iff hd h']
  exact congrArg (·.getD (otherwise m)) heq

/-! ## 機械の調べる順 -/

def tested : Mode → List Condition
  | .idle => [.breaking]
  | .word => [.is .variant, .breaking]
  | .variant => [.is .opening, .breaking]
  | .itemStart => [.breaking, .is .closing]
  | .item => [.is .separator, .is .variant, .is .closing]
  | .itemVariant => [.is .opening, .breaking]
  | .afterGroup => [.breaking, .is .closing, .is .separator]

theorem complete_tested (m : Mode) : Complete m (tested m) := by
  intro k
  cases k with
  | is r => cases m <;> cases r <;> decide
  | breaking => cases m <;> decide

@[simp] theorem select_nil (m : Mode) : select d [] m c = otherwise m := rfl

theorem select_cons (m : Mode) (k : Condition) (order : List Condition) :
    select d (k :: order) m c =
      bif k.holds d c then (cell? m k).getD (select d order m c) else select d order m c := by
  cases hk : k.holds d c <;> cases hc : cell? m k <;> simp [select, candidate?, hk, hc]

theorem action_eq_select_tested (d : Delimiters) (s : State) (c : Char) :
    action d s c = (select d (tested s.mode) s.mode c).action := by
  cases s with
  | itemStart =>
      -- 二つの条件は欄が同じで、機械は一度に調べる。
      simp only [State.mode, tested, select_cons, select_nil, cell?, Option.getD_some, otherwise,
        Condition.holds, Bool.cond_eq_ite, apply_ite Cell.action, decide_eq_true_eq]
      cases hb : Text.isBreaking c <;> by_cases hc : c = d.closing <;>
        simp [action, hb, hc, Delimiters.get]
  | idle | word w | variant w | item w | itemVariant w | afterGroup =>
      simp only [State.mode, tested, select_cons, select_nil, cell?, Option.getD_some, otherwise,
        Condition.holds, Bool.cond_eq_ite, apply_ite Cell.action, decide_eq_true_eq]
      rfl

/-! ## 動作の後の状態 -/

/-- 欄の示す状態。ただし一番外の群が閉じると群の外に出る。 -/
def Cell.landing (e : Cell) (outermost : Bool) : Mode :=
  if e.action = .close ∧ outermost then .idle else e.next

def Mode.inGroup : Mode → Bool
  | idle | word | variant => false
  | itemStart | item | itemVariant | afterGroup => true

theorem State.inGroup_mode (s : State) : s.mode.inGroup = s.inGroup := by
  cases s <;> rfl

def Action.target (inGroup outermost : Bool) : Action → Mode
  | leave | abandon => .idle
  | begin | extend => if inGroup then .item else .word
  | mark => if inGroup then .itemVariant else .variant
  | enter | separate => .itemStart
  | close => if outermost then .idle else .afterGroup

theorem target_of_cell? {m : Mode} {k : Condition} {e : Cell} (h : cell? m k = some e)
    (outermost : Bool) : e.action.target m.inGroup outermost = e.landing outermost := by
  cases k with
  | is r => cases m <;> cases r <;> cases h <;> cases outermost <;> rfl
  | breaking => cases m <;> cases h <;> cases outermost <;> rfl

theorem target_select (d : Delimiters) (order : List Condition) (m : Mode) (c : Char)
    (outermost : Bool) :
    (select d order m c).action.target m.inGroup outermost =
      (select d order m c).landing outermost := by
  cases h : order.findSome? (candidate? d m c) with
  | none =>
      rw [select, h]
      cases m <;> cases outermost <;> rfl
  | some e =>
      obtain ⟨k, -, hk⟩ := List.exists_of_findSome?_eq_some h
      rw [select, h]
      exact target_of_cell? (candidate?_eq_some_iff.mp hk).2 outermost

namespace Machine

theorem length_finishItem (m : Machine) : m.finishItem.length = m.stack.length := by
  rw [finishItem]
  split
  next h =>
      rw [h]
      rfl
  next => rfl

theorem mode_close (m : Machine) :
    m.close.state.mode = if m.stack.length ≤ 1 then .idle else .afterGroup := by
  rw [← m.length_finishItem, close]
  split
  next h => rw [h]; rfl
  next h => rw [h]; rfl
  next h => rw [h]; rfl

theorem mode_perform (m : Machine) (c : Char) (a : Action) :
    (m.perform c a).state.mode = a.target m.state.inGroup (m.stack.length ≤ 1) := by
  cases a with
  | close => simp only [perform, mode_close, Action.target, decide_eq_true_eq]
  | begin | extend =>
      cases h : m.state.inGroup <;> simp [perform, reading, h, State.mode, Action.target]
  | mark =>
      cases h : m.state.inGroup <;> simp [perform, marked, h, State.mode, Action.target]
  | leave | enter | separate | abandon => rfl

theorem feed_eq_select (hd : d.Usable) (m : Machine) (c : Char) {order : List Condition}
    (h : Complete m.state.mode order) :
    feed d m c = (m.perform c (select d order m.state.mode c).action).advance c := by
  rw [feed, action_eq_select_tested, select_eq_select hd (complete_tested _) h]

theorem mode_feed (hd : d.Usable) (m : Machine) (c : Char) {order : List Condition}
    (h : Complete m.state.mode order) :
    (feed d m c).state.mode = (select d order m.state.mode c).landing (m.stack.length ≤ 1) := by
  rw [feed_eq_select hd m c h, advance, mode_perform, ← State.inGroup_mode, target_select]

end Machine

end GroupedVariants.Scan

namespace GroupedVariants.Delimiters

open Scan

/-- 検査は、語を切る文字も重なりもない組だけを通し、ほかは宣言の順で初めの誤りを咎める。通った組では、どの状態でも
条件を調べる順によらず表のとおりに動く。 -/
theorem check_exact (d : Delimiters) :
    (d.check = .ok () ↔
        (∀ r, Text.isBreaking (d.get r) = false) ∧ ∀ r s, r ≠ s → d.get r ≠ d.get s) ∧
      (∀ e, d.check = .error e ↔
        (∃ r, d.FirstReserved r ∧ e = .reserved r (d.get r) ∧ e.code = "RESERVED_DELIMITER") ∨
          (∀ r, Text.isBreaking (d.get r) = false) ∧
            ∃ r s, d.FirstCollision r s ∧ e = .collision r s (d.get r) ∧
              e.code = "DELIMITER_COLLISION") ∧
      (d.check = .ok () → ∀ (m : Machine) (c : Char),
        (∀ k l : Condition, k.holds d c = true → l.holds d c = true → k = l) ∧
          ∀ order, Complete m.state.mode order →
            m.feed d c = (m.perform c (select d order m.state.mode c).action).advance c ∧
              (m.feed d c).state.mode =
                (select d order m.state.mode c).landing (m.stack.length ≤ 1)) := by
  refine ⟨?_, fun e => ?_, fun h m c => ?_⟩
  · rw [check_eq_ok_iff]
    exact ⟨fun h => ⟨h.solid, h.distinct⟩, fun h => ⟨h.1, h.2⟩⟩
  · rw [check_eq_error_iff]
    constructor
    · rintro (⟨r, hr, rfl⟩ | ⟨hsolid, r, s, hrs, rfl⟩)
      · exact .inl ⟨r, hr, rfl, rfl⟩
      · exact .inr ⟨hsolid, r, s, hrs, rfl, rfl⟩
    · rintro (⟨r, hr, he, -⟩ | ⟨hsolid, r, s, hrs, he, -⟩)
      · exact .inl ⟨r, hr, he⟩
      · exact .inr ⟨hsolid, r, s, hrs, he⟩
  · have hd := Usable.of_check h
    exact ⟨fun k l hk hl => Condition.eq_of_holds hd hk hl, fun order horder =>
      ⟨m.feed_eq_select hd c horder, m.mode_feed hd c horder⟩⟩

/-- 語を切る文字は重なりより先に咎められる。項目の中では、閉じ文字を先に調べても同じ欄になる。 -/
theorem check_exact_colliding :
    let d : Delimiters := { opening := ':', closing := '[', separator := '[' }
    let m : Machine := ⟨.item ⟨2, ['b']⟩, 3, [⟨['a', ':'], 0, [], []⟩], []⟩
    let order : List Condition := [.is .closing, .is .separator, .is .variant]
    d.check = .error (.reserved .closing '[') ∧
      Complete m.state.mode order ∧
      m.feed {} ')' = ⟨.idle, 4, [], [⟨0, 3, ['a', ':', 'b']⟩]⟩ ∧
      (m.feed {} ')').state.mode = (select {} order m.state.mode ')').landing true := by
  intro d m order
  have hfirst : d.FirstReserved .closing := by
    refine ⟨by decide, fun s hs => ?_⟩
    cases s <;> first | rfl | exact absurd hs (by decide)
  have hcomplete : Complete m.state.mode order := by
    intro k
    rcases k with r | _
    · cases r <;> decide
    · decide
  have hcheck := ((check_exact d).2.1 (.reserved .closing '[')).mpr (.inl ⟨_, hfirst, rfl, rfl⟩)
  obtain ⟨-, hstep⟩ := (check_exact {}).2.2 rfl m ')'
  obtain ⟨hfeed, hmode⟩ := hstep order hcomplete
  exact ⟨hcheck, hcomplete, by rw [hfeed]; decide, hmode⟩

end GroupedVariants.Delimiters
