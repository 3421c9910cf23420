import GroupedVariants.Commands.Pass
import Mathlib.Data.List.TakeWhile

/-!
# 入力は、読めないものの手前まで順に読まれる
-/

namespace GroupedVariants

variable {s : Sources} {i : Input} {is : List Input} {f : ReadFault} {text : List Char}

namespace Input

/-- 読めないわけ。 -/
def fault? (s : Sources) (i : Input) : Option ReadFault :=
  match i.read s with
  | .error f => some f
  | .ok _ => none

theorem fault?_of_read (h : i.read s = .ok text) : i.fault? s = none := by
  rw [fault?, h]

theorem fault?_of_read_error (h : i.read s = .error f) : i.fault? s = some f := by
  rw [fault?, h]

theorem read_file_eq_ok_iff {path : List Char} :
    (file path).read s = .ok text ↔ s.tree.readText path = .ok text := by
  rw [read]
  cases s.tree.readText path <;> simp [Except.mapError]

theorem read_file_of_error {path : List Char} {cause : Files.Fault}
    (h : s.tree.readText path = .error cause) :
    (file path).read s = .error ⟨file path, cause⟩ := by
  rw [read, h]
  rfl

end Input

namespace Sources

/-- 初めの読めない入力の手前まで。 -/
def readable (s : Sources) (is : List Input) : List Input :=
  is.takeWhile fun i => (i.fault? s).isNone

/-- 初めの読めない入力の、読めないわけ。 -/
def firstFault? (s : Sources) (is : List Input) : Option ReadFault := is.findSome? (Input.fault? s)

@[simp] theorem readable_nil (s : Sources) : s.readable [] = [] := rfl

theorem readable_cons_of_read (h : i.read s = .ok text) (is : List Input) :
    s.readable (i :: is) = i :: s.readable is := by
  simp [readable, Input.fault?_of_read h]

theorem readable_cons_of_error (h : i.read s = .error f) (is : List Input) :
    s.readable (i :: is) = [] := by
  simp [readable, Input.fault?_of_read_error h]

theorem firstFault?_cons_of_read (h : i.read s = .ok text) (is : List Input) :
    s.firstFault? (i :: is) = s.firstFault? is := by
  simp [firstFault?, Input.fault?_of_read h]

theorem firstFault?_cons_of_error (h : i.read s = .error f) (is : List Input) :
    s.firstFault? (i :: is) = some f := by
  simp [firstFault?, Input.fault?_of_read_error h]

end Sources

namespace Pass

variable {edit : Reading → Sources → Sources}

theorem run_cons_of_read (h : i.read s = .ok text) (is : List Input) :
    run edit s (i :: is) =
      { run edit (edit ⟨i, text⟩ s) is with
        readings := ⟨i, text⟩ :: (run edit (edit ⟨i, text⟩ s) is).readings } := by
  rw [run, h]

theorem run_cons_of_error (h : i.read s = .error f) (is : List Input) :
    run edit s (i :: is) = ⟨[], some f, s⟩ := by
  rw [run, h]

end Pass

namespace Transformer

end Transformer

end GroupedVariants
