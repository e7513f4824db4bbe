import Mathlib.Data.Nat.Notation
import Mathlib.Tactic.SplitIfs

/-! Tables of open file descriptors. A new descriptor is the lowest one that is free. -/
namespace SsuOs.Lib

def FdTable (F : Type) := List (Option F)

namespace FdTable

variable {F : Type} {t : FdTable F} {f r w : F} {fd old new : ℕ}

def empty : FdTable F := []

def get : FdTable F → ℕ → Option F
  | [], _ => none
  | x :: _, 0 => x
  | _ :: t, fd + 1 => get t fd

def put : FdTable F → ℕ → Option F → FdTable F
  | [], 0, x => [x]
  | [], fd + 1, x => none :: put [] fd x
  | _ :: t, 0, x => x :: t
  | y :: t, fd + 1, x => y :: put t fd x

def lowestFree : FdTable F → ℕ
  | [] => 0
  | none :: _ => 0
  | some _ :: t => lowestFree t + 1

def alloc (t : FdTable F) (f : F) : ℕ × FdTable F := (t.lowestFree, t.put t.lowestFree (some f))

/-- The descriptors of the read end `r` and the write end `w`. -/
def pipe (t : FdTable F) (r w : F) : (ℕ × ℕ) × FdTable F :=
  (((t.alloc r).1, ((t.alloc r).2.alloc w).1), ((t.alloc r).2.alloc w).2)

/-- Fails without effect on a descriptor that is not open. -/
def close (t : FdTable F) (fd : ℕ) : FdTable F := t.put fd none

/-- Fails without effect when `old` is not open. -/
def dup2 (t : FdTable F) (old new : ℕ) : FdTable F :=
  match t.get old with
  | none => t
  | some f => t.put new (some f)

@[simp] theorem get_empty (fd : ℕ) : (empty : FdTable F).get fd = none := rfl

@[simp] theorem get_put (t : FdTable F) (fd fd' : ℕ) (x : Option F) :
    (t.put fd x).get fd' = if fd' = fd then x else t.get fd' := by
  fun_induction put t fd x generalizing fd' with
  | case1 x => cases fd' <;> simp [get]
  | case2 x fd ih => cases fd' <;> simp [get, ih]
  | case3 x y t => cases fd' <;> simp [get]
  | case4 x y t fd ih => cases fd' <;> simp [get, ih]

@[simp] theorem get_lowestFree (t : FdTable F) : t.get t.lowestFree = none := by
  fun_induction lowestFree t with
  | case1 => rfl
  | case2 t => rfl
  | case3 t x ih => exact ih

theorem lowestFree_ne (h : t.get fd ≠ none) : t.lowestFree ≠ fd := by
  rintro rfl
  exact h t.get_lowestFree

theorem get_pipe (t : FdTable F) (r w : F) (fd : ℕ) :
    (t.pipe r w).2.get fd =
      if fd = (t.pipe r w).1.2 then some w else if fd = (t.pipe r w).1.1 then some r
      else t.get fd := by
  rw [pipe, alloc, alloc, get_put, get_put]

theorem pipe_fst_ne (h : t.get fd ≠ none) : (t.pipe r w).1.1 ≠ fd := lowestFree_ne h

theorem pipe_snd_ne (h : t.get fd ≠ none) : (t.pipe r w).1.2 ≠ fd := by
  refine lowestFree_ne ?_
  rw [alloc, get_put]
  split_ifs <;> simp [h]

theorem pipe_fst_ne_snd : (t.pipe r w).1.1 ≠ (t.pipe r w).1.2 := by
  have h : (t.alloc r).2.get t.lowestFree ≠ none := by simp [alloc]
  exact (lowestFree_ne h).symm

@[simp] theorem get_close (t : FdTable F) (fd fd' : ℕ) :
    (t.close fd).get fd' = if fd' = fd then none else t.get fd' := get_put t fd fd' none

theorem get_dup2 (h : t.get old = some f) (fd : ℕ) :
    (t.dup2 old new).get fd = if fd = new then some f else t.get fd := by
  rw [dup2, h]
  exact get_put t new fd (some f)

end FdTable

end SsuOs.Lib
