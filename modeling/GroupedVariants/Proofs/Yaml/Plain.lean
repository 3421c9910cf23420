import GroupedVariants.Proofs.Yaml.Quoted
import GroupedVariants.Yaml.Plain

/-!
# 裸で書いた値は、元の文字列に読み戻せる
-/

namespace GroupedVariants.Yaml

variable {c : Char} {s r : List Char} {g : Gap} {p : Position} {limit column : Nat}

namespace Plain

/-- 一行の中で途切れずに読まれる。終わりの `:` は、その先を見なければ決まらない。 -/
structure Unbroken (s : List Char) : Prop where
  inline : ∀ c ∈ s, isBreak c = false ∧ c ≠ '\t'
  hash : hasAdjacent isBlankOrBreak (· == '#') s = false
  colon : hasAdjacent (· == ':') isBlankOrBreak s = false

namespace Unbroken

theorem tail (h : Unbroken (c :: s)) : Unbroken s :=
  ⟨fun x hx => h.inline x (List.mem_cons_of_mem c hx), hasAdjacent_tail h.hash,
    hasAdjacent_tail h.colon⟩

theorem isInlineBlank_eq (h : Unbroken (c :: s)) (hspace : c ≠ ' ') : isInlineBlank c = false := by
  simp [isInlineBlank, hspace, (h.inline c List.mem_cons_self).2]

/-- `:` の次は、値の中でも終わりでも空白でない。 -/
theorem colon_stops (h : Unbroken (c :: s)) (hlast : s = [] → c = ':' → atBlank r = false) :
    (c == ':' && atBlank (s ++ r)) = false := by
  by_cases hc : c = ':'
  · subst hc
    cases s with
    | nil => simpa using hlast rfl rfl
    | cons d s =>
        have hd : isBlankOrBreak d = false := not_of_hasAdjacent h.colon rfl d rfl
        simpa [atBlank, isBlankOrBreak] using hd
  · simp [hc]

end Unbroken

theorem map_precededBy_nil (e : Except Fault (Scanned × Gap)) :
    (e.map fun x => (x.1.precededBy [], x.2)) = e := by
  cases e <;> rfl

theorem map_precededBy (e : Except Fault (Scanned × Gap)) (s t : List Char) :
    ((e.map fun x => (x.1.precededBy t, x.2)).map fun x => (x.1.precededBy s, x.2)) =
      e.map fun x => (x.1.precededBy (s ++ t), x.2) := by
  cases e <;> simp [Except.map]

theorem read_space (hg : g.hasBreak = false) (r : List Char) :
    read false limit g p (' ' :: r) = read false limit (g.addBlank ' ') p.next r := by
  simp [read, isInlineBlank, hg]

theorem read_cons (hblank : isInlineBlank c = false) (hbreak : isBreak c = false)
    (hstop : stopsAt false limit g p c r = false) :
    read false limit g p (c :: r) =
      (read false limit .none p.next r).map fun x => (x.1.precededBy (g.folded ++ [c]), x.2) := by
  simp [read, hblank, hbreak, hstop, isAmbiguous]

/-- 途切れない綴りは、間隔で終わらなければその先まで読まれる。 -/
theorem read_append (limit : Nat) (h : Unbroken s) (hg : g.hasBreak = false)
    (hgap : g ≠ .none → s ≠ [] ∧ s.head? ≠ some '#') (hspace : s.getLast? ≠ some ' ')
    (hcolon : s.getLast? = some ':' → atBlank r = false)
    (hmark : (p.column == 0 && atDocumentMark (s ++ r)) = false) :
    read false limit g p (s ++ r) =
      (read false limit .none (p.skip s.length) r).map
        fun x => (x.1.precededBy (g.folded ++ s), x.2) := by
  induction s generalizing g p with
  | nil =>
      obtain rfl : g = .none := Decidable.byContradiction fun hne => (hgap hne).1 rfl
      exact (map_precededBy_nil _).symm
  | cons c s ih =>
      have hspace' : s.getLast? ≠ some ' ' := by
        cases s with
        | nil => simp
        | cons d s => simpa [List.getLast?_cons_cons] using hspace
      have hcolon' : s.getLast? = some ':' → atBlank r = false := by
        cases s with
        | nil => simp
        | cons d s => simpa [List.getLast?_cons_cons] using hcolon
      have hnext : (p.next.column == 0 && atDocumentMark (s ++ r)) = false := by
        simp [Position.next]
      by_cases hc : c = ' '
      · subst hc
        have hne : s ≠ [] := by
          rintro rfl
          exact hspace rfl
        have hhash : s.head? ≠ some '#' := fun heq => by
          simpa using not_of_hasAdjacent h.hash rfl '#' heq
        rw [List.cons_append, read_space hg, ih h.tail (by simpa using hg) (fun _ => ⟨hne, hhash⟩)
          hspace' hcolon' hnext, Gap.folded_addBlank hg, p.skip_next, List.append_assoc]
        rfl
      · have hstop : stopsAt false limit g p c (s ++ r) = false := by
          have hfirst : (c == '#' && !g.isNone) = false := by
            cases g with
            | none => simp [Gap.isNone]
            | blanks t => simpa [Gap.isNone] using (hgap fun heq => by cases heq).2
            | breaks f m => cases hg
          have hend : (c == ':' && atBlank (s ++ r)) = false := by
            refine h.colon_stops fun hs hc => hcolon ?_
            simp [hs, hc]
          simp only [stopsAt, hg, hfirst, hend, Bool.false_and, Bool.or_false, Bool.false_or]
          exact hmark
        rw [List.cons_append, read_cons (h.isInlineBlank_eq hc)
          (h.inline c List.mem_cons_self).1 hstop, ih h.tail rfl (fun hne => absurd rfl hne) hspace'
          hcolon' hnext, map_precededBy, p.skip_next, List.append_assoc]
        rfl

/-! ## 終わり -/

theorem read_indentation (f : Option Char) (m : List Char) (n : Nat) (r : List Char) :
    read false limit (.breaks f m) p (SingleQuoted.indentation n ++ r) =
      read false limit (.breaks f m) (p.skip n) r := by
  induction n generalizing p with
  | zero => rfl
  | succ n ih =>
      have hspace : read false limit (.breaks f m) p (' ' :: (SingleQuoted.indentation n ++ r)) =
          read false limit (.breaks f m) p.next (SingleQuoted.indentation n ++ r) := by
        simp [read, isInlineBlank, Gap.addBlank]
      rw [SingleQuoted.indentation, List.replicate_succ, List.cons_append, ← p.skip_next, ← ih]
      exact hspace

/-- 浅い次の行で終わり、その頭まで読み進む。 -/
theorem read_lineOf (hr : WordStart r) (hcolumn : column < limit) :
    read false limit .none p (lineOf column r) =
      .ok (⟨[], r, ⟨p.line + 1, column⟩⟩, .breaks (some '\n') []) := by
  have hposition : p.nextLine.skip column = ⟨p.line + 1, column⟩ := by
    simp [Position.nextLine, Position.skip]
  have hbreak : read false limit .none p (lineOf column r) =
      read false limit (.breaks (some '\n') []) p.nextLine
        (SingleQuoted.indentation column ++ r) := by
    simp [lineOf, read, isInlineBlank, isBreak, Gap.addBreak]
  rw [hbreak, read_indentation, hposition]
  cases r with
  | nil => rfl
  | cons c r =>
      obtain ⟨hblank, hbreak, -⟩ := hr c rfl
      simp [read, hblank, hbreak, stopsAt, Gap.hasBreak, hcolumn]

/-- 空白の続く `:` の前で終わる。 -/
theorem read_colon (hr : atBlank r = true) :
    read false limit .none p (':' :: r) = .ok (⟨[], ':' :: r, p⟩, .none) := by
  simp [read, isInlineBlank, isBreak, stopsAt, hr]

end Plain

end GroupedVariants.Yaml
