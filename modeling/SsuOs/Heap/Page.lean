import Mathlib.Data.List.FinRange
import SsuOs.Lib.SlotList
import SsuOs.Lib.Tiling

/-! The chunk table of one page, as `alloc.c` and `ealloc.c` share it: a doubly linked list of
array slots, searched by `alloc`, released by `dealloc` and coalesced by `merge_chunk`. -/
namespace SsuOs.Heap
open SsuOs.Lib

/-- `struct mm`; `isUsing` is its field `using`. -/
structure Mm where
  addr : ℕ
  chunkSize : ℤ
  flag : ℤ
  isUsing : ℤ
  nextIdx : ℤ
  prevIdx : ℤ
  deriving DecidableEq

def Mm.zero : Mm := ⟨0, 0, 0, 0, 0, 0⟩

/-- The list head and the chunk array of a page with `n` slots. -/
structure Page (n : ℕ) where
  headIdx : ℤ
  chunks : Fin n → Mm

inductive Fault
  | outOfBounds
  | outOfFuel
  deriving DecidableEq

/-- `PAGESIZE`, in `alloc.h` and in `ealloc.h`. -/
abbrev pageSize : ℕ := 4096

theorem pageSize_pos : (0 : ℤ) < pageSize := by decide

theorem pageSize_eq {m : ℕ} (hm : m ∣ pageSize) :
    (pageSize : ℤ) = (pageSize / m : ℕ) * (m : ℤ) := by
  exact_mod_cast (Nat.div_mul_cancel hm).symm

/-- A size of which an allocator with the unit `m` has blocks. -/
def ValidSize (m : ℕ) (size : ℤ) : Prop := 0 < size ∧ (m : ℤ) ∣ size ∧ size ≤ pageSize

instance (m : ℕ) (size : ℤ) : Decidable (ValidSize m size) := inferInstanceAs (Decidable (_ ∧ _))

/-- A size without blocks that the check of `alloc` lets pass. -/
def Slips (m : ℕ) (size : ℤ) : Prop := size ≤ 0 ∧ (m : ℤ) ∣ size

instance (m : ℕ) (size : ℤ) : Decidable (Slips m size) := inferInstanceAs (Decidable (_ ∧ _))

/-- The size that a call passes to `alloc`, if it is one of `alloc`, does not slip. -/
def SizeChecked (m : ℕ) (size : Option ℤ) : Prop := ∀ z ∈ size, ¬Slips m z

instance (m : ℕ) (size : Option ℤ) : Decidable (SizeChecked m size) :=
  inferInstanceAs (Decidable (∀ z ∈ size, ¬Slips m z))

section

variable {m : ℕ} {size : ℤ}

theorem not_refused (hd : (m : ℤ) ∣ size) (hle : size ≤ pageSize) :
    ¬(size.tmod m ≠ 0 ∨ size > pageSize) := by
  rintro (hne | hgt)
  · exact hne (Int.tmod_eq_zero_of_dvd hd)
  · exact absurd hgt (not_lt.mpr hle)

theorem ValidSize.not_refused (hs : ValidSize m size) :
    ¬(size.tmod m ≠ 0 ∨ size > pageSize) :=
  Heap.not_refused hs.2.1 hs.2.2

theorem Slips.not_refused (hs : Slips m size) : ¬(size.tmod m ≠ 0 ∨ size > pageSize) :=
  Heap.not_refused hs.2 (hs.1.trans pageSize_pos.le)

/-- The check refuses all sizes but the valid ones and those that slip. -/
theorem refused_iff : (size.tmod m ≠ 0 ∨ size > pageSize) ↔ ¬ValidSize m size ∧ ¬Slips m size := by
  constructor
  · intro hbad
    exact ⟨fun hs => hs.not_refused hbad, fun hs => hs.not_refused hbad⟩
  · rintro ⟨hval, hslip⟩
    by_contra hok
    push Not at hok
    have hd : (m : ℤ) ∣ size := Int.dvd_of_tmod_eq_zero hok.1
    by_cases hpos : 0 < size
    · exact hval ⟨hpos, hd, hok.2⟩
    · exact hslip ⟨not_lt.mp hpos, hd⟩

end

/-- Addition to a 64-bit pointer. -/
def ptrAdd (p : ℕ) (k : ℤ) : ℕ := ((p + k) % 2 ^ 64).toNat

/-- The array index `i`, provided it lies inside the array. -/
def slot (n : ℕ) (i : ℤ) : Except Fault (Fin n) :=
  if h : 0 ≤ i ∧ i < n then .ok ⟨i.toNat, by omega⟩ else .error .outOfBounds

namespace Page

variable {n : ℕ}

def set (p : Page n) (i : Fin n) (c : Mm) : Page n :=
  { p with chunks := Function.update p.chunks i c }

def fresh : Page n := ⟨-1, fun _ => Mm.zero⟩

/-- Enter a newly mapped page of `P` bytes as the only chunk, in the slot `z` of index zero. -/
def start (addr : ℕ) (P : ℤ) (z : Fin n) (p : Page n) : Page n :=
  { p.set z ⟨addr, P, 0, 1, -1, -1⟩ with headIdx := 0 }

def findNext (p : Page n) : ℤ :=
  match (List.finRange n).find? (fun i => (p.chunks i).isUsing = 0) with
  | some i => i
  | none => -1

/-- How the search loop of `alloc` leaves a page. -/
inductive Search (n : ℕ)
  | found (addr : ℕ) (p : Page n)
  | lastTooSmall
  | ranOff

/-- The part of `alloc` that takes `size` bytes from the front of the larger chunk `tmp`. -/
def splitChunk (size : ℤ) (t : Fin n) (p : Page n) : Except Fault (Search n) := do
  let tmp := p.chunks t
  let newIdx := p.findNext
  let new : Mm := ⟨tmp.addr, size, 1, 1, t, tmp.prevIdx⟩
  let p ←
    if tmp.prevIdx ≠ -1 then do
      let q ← slot n tmp.prevIdx
      pure (p.set q { p.chunks q with nextIdx := newIdx })
    else pure { p with headIdx := newIdx }
  let p := p.set t { tmp with
    prevIdx := newIdx, addr := ptrAdd tmp.addr size, chunkSize := tmp.chunkSize - size }
  let x ← slot n newIdx
  pure (.found new.addr (p.set x new))

/-- The `while` loop of `alloc` over one page, from `tmp_idx` on. -/
def allocLoop (size : ℤ) : ℕ → ℤ → Page n → Except Fault (Search n)
  | 0, _, _ => .error .outOfFuel
  | fuel + 1, tmpIdx, p =>
    if tmpIdx = -1 then .ok .ranOff
    else do
      let t ← slot n tmpIdx
      let tmp := p.chunks t
      if tmp.nextIdx = -1 ∧ tmp.chunkSize < size then .ok .lastTooSmall
      else if tmp.chunkSize ≥ size ∧ tmp.flag = 0 then
        if tmp.chunkSize = size then .ok (.found tmp.addr (p.set t { tmp with flag := 1 }))
        else splitChunk size t p
      else allocLoop size fuel tmp.nextIdx p

/-- The `while` loop of `dealloc` over one page; `none` when no chunk starts at `addr`. -/
def deallocLoop (addr : ℕ) : ℕ → ℤ → Page n → Except Fault (Option (Page n))
  | 0, _, _ => .error .outOfFuel
  | fuel + 1, tmpIdx, p =>
    if tmpIdx = -1 then .ok none
    else do
      let t ← slot n tmpIdx
      let tmp := p.chunks t
      if tmp.addr = addr then .ok (some (p.set t { tmp with flag := 0 }))
      else deallocLoop addr fuel tmp.nextIdx p

/-- The body of `merge_chunk` that lets the free chunk `t` absorb its free successor `d`. -/
def absorb (t d : Fin n) (p : Page n) : Except Fault (Page n) := do
  let tmp := p.chunks t
  let del := p.chunks d
  let p ←
    if del.nextIdx ≠ -1 then do
      let y ← slot n del.nextIdx
      pure (p.set y { p.chunks y with prevIdx := t })
    else pure p
  let p := p.set t { tmp with
    chunkSize := tmp.chunkSize + del.chunkSize, nextIdx := del.nextIdx }
  pure (p.set d { del with isUsing := 0 })

/-- The `while` loop of `merge_chunk`. -/
def mergeLoop : ℕ → ℤ → Page n → Except Fault (Page n)
  | 0, _, _ => .error .outOfFuel
  | fuel + 1, tmpIdx, p =>
    if tmpIdx = -1 then .ok p
    else do
      let t ← slot n tmpIdx
      let tmp := p.chunks t
      if tmp.flag = 0 ∧ tmp.nextIdx ≠ -1 then do
        let d ← slot n tmp.nextIdx
        if (p.chunks d).flag = 0 then do
          let p ← absorb t d p
          mergeLoop fuel tmpIdx p
        else mergeLoop fuel tmp.nextIdx p
      else mergeLoop fuel tmp.nextIdx p

/-- `merge_chunk`. A list of `n` slots is done after `n` rounds and the final test. -/
def mergeChunk (p : Page n) : Except Fault (Page n) := mergeLoop (n + 1) p.headIdx p

end Page

end SsuOs.Heap
