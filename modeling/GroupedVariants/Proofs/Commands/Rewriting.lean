import GroupedVariants.Proofs.Commands.Pass
import GroupedVariants.Proofs.Files.Tree
import GroupedVariants.Proofs.Splice
import Mathlib.Logic.Function.Iterate

/-!
# ファイルをその場で書き換える

同じファイルを何度も指せば、その回数だけ展開される。読めない入力があれば、その手前までの書き換えが残る。
-/

namespace GroupedVariants

open Files Text

variable {t : Transformer} {tree now : Tree} {done : List Input} {i : Input}
  {path text : List Char} {p q : List Name} {bytes : ByteArray}

/-- 入力の指すファイルが場所 `p` にある。 -/
def Input.reaches (tree : Tree) (p : List Name) : Input → Bool
  | stdin => false
  | file path =>
    match tree.locate path with
    | .ok q => q == p
    | .error _ => false

theorem Input.reaches_file_iff :
    (file path).reaches tree p = true ↔ tree.locate path = .ok p := by
  rw [reaches]
  cases tree.locate path <;> simp

namespace Transformer

/-- 文であれば展開した内容。 -/
def expandBytes (t : Transformer) (bytes : ByteArray) : ByteArray :=
  match decodeUtf8? bytes with
  | some text => encodeUtf8 (t.expand text)
  | none => bytes

theorem expandBytes_encodeUtf8 (t : Transformer) (text : List Char) :
    t.expandBytes (encodeUtf8 text) = encodeUtf8 (t.expand text) := by
  rw [expandBytes, decodeUtf8?_encodeUtf8]

theorem decodeUtf8?_expandBytes (t : Transformer) (bytes : ByteArray) :
    decodeUtf8? (t.expandBytes bytes) = (decodeUtf8? bytes).map t.expand := by
  rw [expandBytes]
  cases h : decodeUtf8? bytes with
  | none => exact h
  | some text => exact decodeUtf8?_encodeUtf8 _

theorem decodeUtf8?_iterate (t : Transformer) (k : Nat) (bytes : ByteArray) :
    decodeUtf8? (t.expandBytes^[k] bytes) = (decodeUtf8? bytes).map t.expand^[k] := by
  induction k with
  | zero => exact Option.map_id'.symm
  | succ k ih =>
      rw [Function.iterate_succ', Function.iterate_succ', Function.comp, decodeUtf8?_expandBytes,
        ih, Option.map_map]

theorem rewriteInPlace_file (t : Transformer) (path text : List Char) (s : Sources) :
    t.rewriteInPlace ⟨.file path, text⟩ s =
      { s with tree := (t.rewriteInPlace ⟨.file path, text⟩ s).tree } := by
  cases h : t.rewrite? text <;> simp [rewriteInPlace, h]

/-- 一つの入力を書き戻すと、その先のファイルだけが展開した文になる。 -/
theorem view_rewriteInPlace {s : Sources} (hp : s.tree.locate path = .ok p)
    (hb : s.tree.root.bytesAt? p = some (encodeUtf8 text)) (q : List Name) :
    let after := (t.rewriteInPlace ⟨.file path, text⟩ s).tree
    after.current = s.tree.current ∧ after.root.kindAt q = s.tree.root.kindAt q ∧
      after.root.bytesAt? q =
        if q = p then some (encodeUtf8 (t.expand text)) else s.tree.root.bytesAt? q := by
  intro after
  cases h : t.rewrite? text with
  | none =>
      have hafter : after = s.tree := by simp [after, rewriteInPlace, h]
      rw [hafter, t.expand_eq_getD, h, Option.getD_none]
      refine ⟨rfl, rfl, ?_⟩
      split
      · next hq => rw [hq, hb]
      · rfl
  | some new =>
      have hafter : after =
          { s.tree with root := s.tree.root.put p (.file (encodeUtf8 (t.expand text))) } := by
        simp [after, rewriteInPlace, h, Tree.writeText_of_locate hp, t.expand_eq_getD]
      rw [hafter]
      refine ⟨rfl, Entry.kindAt_put hb q, ?_⟩
      split
      · next hq => rw [hq, Entry.bytesAt?_put_self]
      · next hq => exact (Entry.view_put_of_ne hb hq).2

end Transformer

/-! ## 順に書き戻した木 -/

/-- `done` を順に書き戻した木。どのファイルも、それを指した回数だけ展開されている。 -/
structure Rewritten (t : Transformer) (tree : Tree) (done : List Input) (now : Tree) : Prop where
  current : now.current = tree.current
  kind : ∀ q, now.root.kindAt q = tree.root.kindAt q
  bytes : ∀ q, now.root.bytesAt? q =
    (tree.root.bytesAt? q).map t.expandBytes^[done.countP (Input.reaches tree q)]

namespace Rewritten

theorem refl (t : Transformer) (tree : Tree) : Rewritten t tree [] tree :=
  ⟨rfl, fun _ => rfl, fun _ => Option.map_id'.symm⟩

theorem locate (h : Rewritten t tree done now) (path : List Char) :
    now.locate path = tree.locate path :=
  Tree.locate_congr h.current h.kind path

/-- それまでに同じファイルを指した回数だけ展開した文が読まれる。 -/
theorem readText (h : Rewritten t tree done now) (hp : tree.locate path = .ok p) :
    now.readText path =
      (tree.readText path).map t.expand^[done.countP (Input.reaches tree p)] := by
  have hnow : now.locate path = .ok p := by rw [h.locate, hp]
  rw [Tree.readText_of_locate hp, Tree.readText_of_locate hnow, h.bytes]
  cases tree.root.bytesAt? p with
  | none => rfl
  | some bytes =>
      simp only [Option.map_some, Transformer.decodeUtf8?_iterate]
      cases decodeUtf8? bytes <;> rfl

theorem exists_readText (h : Rewritten t tree done now) (hr : now.readText path = .ok text) :
    ∃ p first, tree.locate path = .ok p ∧ tree.readText path = .ok first ∧
      text = t.expand^[done.countP (Input.reaches tree p)] first := by
  obtain ⟨p, hp, -⟩ := Tree.readText_eq_ok_iff.mp hr
  rw [h.locate] at hp
  rw [h.readText hp] at hr
  cases hfirst : tree.readText path with
  | error f =>
      rw [hfirst] at hr
      cases hr
  | ok first =>
      rw [hfirst] at hr
      exact ⟨p, first, hp, rfl, (Except.ok.inj hr).symm⟩

theorem readText_of_error {cause : Fault} (h : Rewritten t tree done now)
    (hr : now.readText path = .error cause) : tree.readText path = .error cause := by
  cases hp : tree.locate path with
  | error f =>
      have hnow : now.locate path = .error f := by rw [h.locate, hp]
      rwa [Tree.readText_of_locate_error hnow, ← Tree.readText_of_locate_error hp] at hr
  | ok p =>
      rw [h.readText hp] at hr
      cases hfirst : tree.readText path with
      | error f =>
          rw [hfirst] at hr
          exact hr
      | ok first =>
          rw [hfirst] at hr
          cases hr

/-- 読めた入力を書き戻すと、指した回数が一つ増える。 -/
theorem step {s : Sources} (h : Rewritten t tree done s.tree)
    (hr : s.tree.readText path = .ok text) :
    Rewritten t tree (done ++ [.file path]) (t.rewriteInPlace ⟨.file path, text⟩ s).tree := by
  obtain ⟨p, hp, hb⟩ := Tree.readText_eq_ok_iff.mp hr
  have hfirst : tree.locate path = .ok p := by rw [← h.locate, hp]
  have hview := Transformer.view_rewriteInPlace (t := t) hp hb
  refine ⟨(hview p).1.trans h.current, fun q => (hview q).2.1.trans (h.kind q), fun q => ?_⟩
  rw [(hview q).2.2, List.countP_append, List.countP_singleton]
  by_cases hq : q = p
  · subst hq
    have hk := h.bytes q
    rw [hb] at hk
    obtain ⟨b, hbytes, hk⟩ := Option.map_eq_some_iff.mp hk.symm
    rw [if_pos rfl, if_pos (Input.reaches_file_iff.mpr hfirst), hbytes, Option.map_some,
      Function.iterate_succ_apply', hk, Transformer.expandBytes_encodeUtf8]
  · have hne : ¬ (Input.file path).reaches tree q = true := by
      rw [Input.reaches_file_iff, hfirst]
      exact fun heq => hq (Except.ok.inj heq).symm
    rw [if_neg hq, if_neg hne, h.bytes, Nat.add_zero]

end Rewritten

/-! ## 入力の並び全体 -/

/-- `done` の後に順に読んだ入力の文。それまでに同じファイルを指した回数だけ展開されている。 -/
inductive ReadInTurn (t : Transformer) (tree : Tree) :
    List Input → List Input → List Reading → Prop
  | nil (done : List Input) : ReadInTurn t tree done [] []
  | cons {done is : List Input} {path text : List Char} {p : List Name} {rs : List Reading}
      (hp : tree.locate path = .ok p) (ht : tree.readText path = .ok text)
      (h : ReadInTurn t tree (done ++ [.file path]) is rs) :
      ReadInTurn t tree done (.file path :: is)
        (⟨.file path, t.expand^[done.countP (Input.reaches tree p)] text⟩ :: rs)

/-- 読みながら書き戻すあいだも、読めるかどうかと読めないわけとは、初めの木と変わらない。 -/
theorem Rewritten.expandPass {s : Sources} (h : Rewritten t s.tree done now)
    (paths : List (List Char)) :
    let pass := t.expandPass true { s with tree := now } (paths.map .file)
    Rewritten t s.tree (done ++ s.readable (paths.map .file)) pass.sources.tree ∧
      ReadInTurn t s.tree done (s.readable (paths.map .file)) pass.readings ∧
      pass.fault? = s.firstFault? (paths.map .file) := by
  induction paths generalizing done now with
  | nil =>
      refine ⟨?_, .nil done, rfl⟩
      rw [List.map_nil, Sources.readable_nil, List.append_nil]
      exact h
  | cons path paths ih =>
      intro pass
      rw [List.map_cons]
      cases hr : now.readText path with
      | error cause =>
          have hnow : (Input.file path).read { s with tree := now } = .error ⟨.file path, cause⟩ :=
            Input.read_file_of_error hr
          have hs := Input.read_file_of_error (s := s) (h.readText_of_error hr)
          have hpass : pass = ⟨[], some _, { s with tree := now }⟩ :=
            Pass.run_cons_of_error hnow _
          rw [hpass, Sources.readable_cons_of_error hs, Sources.firstFault?_cons_of_error hs,
            List.append_nil]
          exact ⟨h, .nil done, rfl⟩
      | ok text =>
          have hnow : (Input.file path).read { s with tree := now } = .ok text :=
            Input.read_file_eq_ok_iff.mpr hr
          obtain ⟨p, first, hp, hfirst, rfl⟩ := h.exists_readText hr
          have hs : (Input.file path).read s = .ok first := Input.read_file_eq_ok_iff.mpr hfirst
          have hstep := h.step (s := { s with tree := now }) hr
          obtain ⟨hwritten, hreadings, hfault⟩ := ih hstep
          have hpass : pass = _ := Pass.run_cons_of_read hnow _
          simp only [if_true] at hpass
          rw [Transformer.rewriteInPlace_file] at hpass
          rw [hpass, Sources.readable_cons_of_read hs, Sources.firstFault?_cons_of_read hs]
          refine ⟨?_, .cons hp hfirst hreadings, hfault⟩
          rw [← List.singleton_append, ← List.append_assoc]
          exact hwritten

namespace ReadInTurn

variable {is : List Input} {rs : List Reading}

end ReadInTurn

/-- リンクを通しても同じファイルであり、二度の展開は一度の展開と違う。 -/
example :
    let root : Entry := .directory
      [("a".toList, .file (encodeUtf8 "m:(x,n):(p,q)".toList)), ("b".toList, .link "/a".toList)]
    (Transformer.default.expandPass true ⟨⟨root, []⟩, ByteArray.empty⟩
      [.file "a".toList, .file "b".toList]).sources.tree.root.bytesAt? ["a".toList] =
      some (encodeUtf8 "m:x m:n:p m:n:q".toList) := by
  cbv

end GroupedVariants
