import Mathlib.Data.List.Basic
import SsuOs.Lib.Except

/-! Strings in byte buffers, as the C library keeps them: the bytes before the first zero. -/
namespace SsuOs.Lib.CString

abbrev Buffer := List UInt8

inductive BufferFault
  | outOfBounds
  deriving DecidableEq, Repr

/-- A new block of `n` bytes holds whatever `junk` was there before. -/
def malloc (junk : ℕ → UInt8) (n : ℕ) : Buffer := (List.range n).map junk

/-- The block is moved to one of `n` bytes, with as many of its own as fit. -/
def realloc (junk : ℕ → UInt8) (b : Buffer) (n : ℕ) : Buffer :=
  b.take n ++ (malloc junk n).drop b.length

def load (b : Buffer) (i : ℕ) : Except BufferFault UInt8 :=
  match b[i]? with
  | some c => .ok c
  | none => .error .outOfBounds

def store (b : Buffer) (i : ℕ) (c : UInt8) : Except BufferFault Buffer :=
  if i < b.length then .ok (b.set i c) else .error .outOfBounds

def strlen : Buffer → Except BufferFault ℕ
  | [] => .error .outOfBounds
  | c :: b => if c = 0 then .ok 0 else (strlen b).map (· + 1)

def strcpy (dst src : Buffer) : Except BufferFault Buffer := do
  let n ← strlen src
  if n < dst.length then .ok (src.take (n + 1) ++ dst.drop (n + 1)) else .error .outOfBounds

def strcat (dst src : Buffer) : Except BufferFault Buffer := do
  let n ← strlen dst
  let tail ← strcpy (dst.drop n) src
  .ok (dst.take n ++ tail)

/-- Stops at the first difference, so a buffer may lack a zero behind it. -/
def strcmp : Buffer → Buffer → Except BufferFault Ordering
  | a :: as, b :: bs =>
    if a ≠ b then .ok (compare a b) else if a = 0 then .ok .eq else strcmp as bs
  | _, _ => .error .outOfBounds

/-- Writes the next entry of an array of `n` pointers. -/
def push (n : ℕ) (xs : List Buffer) (b : Buffer) : Except BufferFault (List Buffer) :=
  if xs.length < n then .ok (xs ++ [b]) else .error .outOfBounds

/-- Writes the `NULL` behind the entries of an array of `n` pointers. -/
def terminate (n : ℕ) (xs : List Buffer) : Except BufferFault (List Buffer) :=
  if xs.length < n then .ok xs else .error .outOfBounds

structure Holds (b : Buffer) (s : List UInt8) : Prop where
  nonzero : 0 ∉ s
  bytes : s ++ [0] <+: b

@[simp] theorem length_malloc (junk : ℕ → UInt8) (n : ℕ) : (malloc junk n).length = n := by
  simp [malloc]

@[simp] theorem length_realloc (junk : ℕ → UInt8) (b : Buffer) (n : ℕ) :
    (realloc junk b n).length = n := by
  simp only [realloc, List.length_append, List.length_take, List.length_drop, length_malloc]
  omega

theorem load_append (u : Buffer) (c : UInt8) (v : Buffer) :
    load (u ++ c :: v) u.length = .ok c := by
  simp [load]

theorem store_append (u : Buffer) (c d : UInt8) (v : Buffer) :
    store (u ++ c :: v) u.length d = .ok (u ++ d :: v) := by
  rw [store, if_pos (by simp), List.set_append_right u.length d (Nat.le_refl _)]
  simp

theorem store_of_isPrefix {b : Buffer} {w : List UInt8} (c : UInt8) (h : w <+: b)
    (hlt : w.length < b.length) :
    ∃ b', store b w.length c = .ok b' ∧ w ++ [c] <+: b' ∧ b'.length = b.length := by
  obtain ⟨rest, rfl⟩ := h
  cases rest with
  | nil => simp at hlt
  | cons a rest =>
    exact ⟨w ++ c :: rest, store_append w a c rest, ⟨rest, by simp⟩, by simp⟩

theorem push_of_lt {n : ℕ} {xs : List Buffer} (b : Buffer) (h : xs.length < n) :
    push n xs b = .ok (xs ++ [b]) := if_pos h

theorem terminate_of_lt {n : ℕ} {xs : List Buffer} (h : xs.length < n) :
    terminate n xs = .ok xs := if_pos h

theorem lt_of_store_eq_ok {b b' : Buffer} {i : ℕ} {c : UInt8} (h : store b i c = .ok b') :
    i < b.length := by
  unfold store at h
  split_ifs at h with hlt
  exact hlt

theorem lt_of_push_eq_ok {n : ℕ} {xs ys : List Buffer} {b : Buffer} (h : push n xs b = .ok ys) :
    xs.length < n := by
  unfold push at h
  split_ifs at h with hlt
  exact hlt

theorem lt_of_terminate_eq_ok {n : ℕ} {xs ys : List Buffer} (h : terminate n xs = .ok ys) :
    xs.length < n := by
  unfold terminate at h
  split_ifs at h with hlt
  exact hlt

namespace Holds

variable {b dst src : Buffer} {s t : List UInt8}

theorem eq_append (h : Holds b s) : ∃ rest, b = s ++ 0 :: rest := by
  obtain ⟨rest, rfl⟩ := h.bytes
  exact ⟨rest, by simp⟩

theorem strlen_eq (h : Holds b s) : strlen b = .ok s.length := by
  obtain ⟨rest, rfl⟩ := h.eq_append
  have hz := h.nonzero
  clear h
  induction s with
  | nil => rfl
  | cons c s ih =>
    rw [List.mem_cons, not_or] at hz
    rw [List.cons_append, strlen, if_neg (Ne.symm hz.1), ih hz.2, map_ok, List.length_cons]

theorem take_eq (h : Holds b s) : b.take s.length = s := by
  obtain ⟨rest, rfl⟩ := h.eq_append
  simp

theorem strcpy_eq (h : Holds src s) (hlt : s.length < dst.length) :
    strcpy dst src = .ok (s ++ 0 :: dst.drop (s.length + 1)) := by
  obtain ⟨rest, rfl⟩ := h.eq_append
  rw [strcpy, h.strlen_eq, ok_bind, if_pos hlt]
  simp [List.take_append, List.take_of_length_le]

theorem append_zero (h : 0 ∉ s) (rest : List UInt8) : Holds (s ++ 0 :: rest) s :=
  ⟨h, rest, by simp⟩

theorem strcpy (h : Holds src s) (dst : Buffer) (hlt : s.length < dst.length) :
    ∃ b, CString.strcpy dst src = .ok b ∧ Holds b s :=
  ⟨_, h.strcpy_eq hlt, append_zero h.nonzero _⟩

theorem strcat (hs : Holds dst s) (ht : Holds src t) (hlt : s.length + t.length < dst.length) :
    ∃ b, CString.strcat dst src = .ok b ∧ Holds b (s ++ t) ∧ b.length = dst.length := by
  have hdrop : t.length < (dst.drop s.length).length := by
    rw [List.length_drop]
    omega
  refine ⟨s ++ (t ++ 0 :: (dst.drop s.length).drop (t.length + 1)), ?_, ?_, ?_⟩
  · rw [CString.strcat, hs.strlen_eq, ok_bind, ht.strcpy_eq hdrop, ok_bind, hs.take_eq]
  · rw [← List.append_assoc]
    exact append_zero (by simp [hs.nonzero, ht.nonzero]) _
  · simp only [List.length_append, List.length_cons, List.length_drop]
    omega

theorem lt_of_strcat_eq_ok (hs : Holds dst s) (ht : Holds src t)
    (h : CString.strcat dst src = .ok b) : s.length + t.length < dst.length := by
  rw [CString.strcat, hs.strlen_eq, ok_bind, CString.strcpy, ht.strlen_eq, ok_bind] at h
  obtain ⟨tail, htail, -⟩ := bind_eq_ok.mp h
  split_ifs at htail with hlt
  rw [List.length_drop] at hlt
  omega

theorem unique (hs : Holds b s) (ht : Holds b t) : s = t := by
  have hlen : s.length = t.length := ok_unique hs.strlen_eq ht.strlen_eq
  rw [← hs.take_eq, hlen, ht.take_eq]

theorem length_lt (hs : Holds b s) : s.length < b.length := by
  have hle := hs.bytes.length_le
  rw [List.length_append, List.length_singleton] at hle
  exact hle

theorem strcmp_eq {a b : Buffer} (ha : Holds a s) (hb : Holds b t) :
    ∃ o, strcmp a b = .ok o ∧ (o = .eq ↔ s = t) := by
  obtain ⟨ra, rfl⟩ := ha.eq_append
  obtain ⟨rb, rfl⟩ := hb.eq_append
  have hs := ha.nonzero
  have ht := hb.nonzero
  clear ha hb
  induction s generalizing t with
  | nil =>
    cases t with
    | nil => exact ⟨.eq, rfl, by simp⟩
    | cons d t =>
      have hd : (0 : UInt8) ≠ d := fun h => ht (h ▸ List.mem_cons_self)
      exact ⟨compare 0 d, if_pos hd, by simpa using hd⟩
  | cons c s ih =>
    have hc : c ≠ 0 := fun h => hs (h ▸ List.mem_cons_self)
    cases t with
    | nil => exact ⟨compare c 0, if_pos hc, by simpa using hc⟩
    | cons d t =>
      by_cases hcd : c = d
      · subst hcd
        obtain ⟨o, ho, hiff⟩ := ih (fun h => hs (List.mem_cons_of_mem c h))
          (fun h => ht (List.mem_cons_of_mem c h))
        refine ⟨o, ?_, by simpa using hiff⟩
        rw [List.cons_append, List.cons_append, strcmp, if_neg (not_not_intro rfl), if_neg hc, ho]
      · exact ⟨compare c d, if_pos hcd, by simp [hcd]⟩

end Holds

end SsuOs.Lib.CString
