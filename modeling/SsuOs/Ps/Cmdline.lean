import Mathlib.Data.List.DropRight
import SsuOs.Ps.Stat

/-! How `scan_proc` turns the file `cmdline` of a process, its arguments with a zero behind each,
into one line. -/
namespace SsuOs.Ps
open Lib Lib.CString

abbrev lineMax : ℕ := 512

def content (args : List (List UInt8)) : List UInt8 := args.flatMap (· ++ [0])

/-- `line` behind its `memset` and the `fread`. -/
def readLine (text : List UInt8) : Buffer :=
  text.take lineMax ++ List.replicate (lineMax - text.length) 0

/-- `n` rounds of the loop, from index `i` on. -/
def spaceLoop : ℕ → ℕ → Buffer → Except BufferFault Buffer
  | 0, _, line => .ok line
  | n + 1, i, line => do
    let c ← load line i
    if c = 0 then
      if i = lineMax - 1 then .ok line
      else
        let next ← load line (i + 1)
        if next = 0 then .ok line
        else
          let line ← store line i blank
          spaceLoop n (i + 1) line
    else spaceLoop n (i + 1) line

def scanCmdline (text : List UInt8) : Except BufferFault Buffer :=
  spaceLoop nameLen 0 (readLine text)

/-! ### The line -/

/-- What the loop makes of the rest of the line. -/
def spaced : List UInt8 → List UInt8
  | [] => []
  | [c] => [c]
  | c :: d :: l =>
    if c = 0 then
      if d = 0 then c :: d :: l else blank :: spaced (d :: l)
    else c :: spaced (d :: l)

theorem spaceLoop_eq (done l : List UInt8) (hlen : done.length + l.length = lineMax) :
    spaceLoop l.length done.length (done ++ l) = .ok (done ++ spaced l) := by
  induction l generalizing done with
  | nil => rfl
  | cons c l ih =>
    have hnext : ∀ a, (done ++ [a]).length = done.length + 1 := fun a => List.length_append
    have hmove : ∀ a, spaceLoop l.length (done.length + 1) (done ++ a :: l) =
        .ok (done ++ a :: spaced l) := by
      intro a
      have h := ih (done ++ [a]) (by rw [hnext]; rw [List.length_cons] at hlen; omega)
      rw [hnext] at h
      simpa using h
    rw [List.length_cons, spaceLoop, load_append]
    simp only [ok_bind]
    cases l with
    | nil =>
      have hlast : done.length = lineMax - 1 := by
        rw [List.length_singleton] at hlen
        omega
      rw [if_pos hlast]
      split_ifs
      · rfl
      · exact hmove c
    | cons d l =>
      have hlast : done.length ≠ lineMax - 1 := by
        simp only [List.length_cons] at hlen
        omega
      have hload : load (done ++ c :: d :: l) (done.length + 1) = .ok d := by
        have h := load_append (done ++ [c]) d l
        rw [hnext] at h
        simpa using h
      rw [if_neg hlast, hload, store_append, spaced]
      simp only [ok_bind]
      split_ifs with hc hd
      · rfl
      · exact hmove blank
      · exact hmove c

theorem spaced_append {a : List UInt8} (ha : 0 ∉ a) (c : UInt8) (l : List UInt8) :
    spaced (a ++ c :: l) = a ++ spaced (c :: l) := by
  induction a with
  | nil => rfl
  | cons x a ih =>
    rw [List.mem_cons, not_or] at ha
    obtain ⟨y, v, hv⟩ := List.exists_cons_of_ne_nil (by simp : a ++ c :: l ≠ [])
    rw [List.cons_append, List.cons_append, ← ih ha.2, hv, spaced, if_neg (Ne.symm ha.1)]

/-! ### The arguments -/

/-- The arguments with single spaces between them. -/
def joined (args : List (List UInt8)) : List UInt8 := [blank].intercalate args

theorem joined_cons (a : List UInt8) (args : List (List UInt8)) :
    joined (a :: args) = a ++ args.flatMap (blank :: ·) := by
  induction args generalizing a with
  | nil => simp [joined]
  | cons b args ih =>
    simp only [joined] at ih ⊢
    rw [List.intercalate_cons_cons, ih, List.flatMap_cons]
    simp

/-- Two zeros in a row end the loop: it does not get past an empty argument, but for the first. -/
theorem spaced_content {a : List UInt8} {args : List (List UInt8)} (ha : 0 ∉ a)
    (hargs : ∀ b ∈ args, 0 ∉ b) (n : ℕ) :
    ∃ rest, spaced (content (a :: args) ++ List.replicate (n + 1) 0) =
      joined (a :: args.takeWhile (· ≠ [])) ++ 0 :: rest := by
  induction args generalizing a with
  | nil =>
    refine ⟨List.replicate (n + 1) 0, ?_⟩
    have hcontent : content [a] ++ List.replicate (n + 1) 0 =
        a ++ 0 :: List.replicate (n + 1) 0 := by simp [content]
    rw [hcontent, spaced_append ha, List.replicate_succ, spaced, if_pos rfl, if_pos rfl]
    simp [joined]
  | cons b args ih =>
    obtain ⟨hb, hrest⟩ := List.forall_mem_cons.mp hargs
    have hcontent : content (a :: b :: args) ++ List.replicate (n + 1) 0 =
        a ++ 0 :: (content (b :: args) ++ List.replicate (n + 1) 0) := by
      simp [content]
    rw [hcontent, spaced_append ha]
    cases b with
    | nil =>
      refine ⟨content ([] :: args) ++ List.replicate (n + 1) 0, ?_⟩
      have hzero : content ([] :: args) ++ List.replicate (n + 1) 0 =
          0 :: (content args ++ List.replicate (n + 1) 0) := by simp [content]
      rw [hzero, spaced, if_pos rfl, if_pos rfl]
      simp [joined]
    | cons c b =>
      obtain ⟨rest, ih⟩ := ih hb hrest
      have hc : c ≠ 0 := fun h => hb (h ▸ List.mem_cons_self)
      refine ⟨rest, ?_⟩
      have hhead : content ((c :: b) :: args) ++ List.replicate (n + 1) 0 =
          c :: (b ++ 0 :: (content args ++ List.replicate (n + 1) 0)) := by simp [content]
      rw [hhead, spaced, if_pos rfl, if_neg hc, ← hhead, ih]
      rw [List.takeWhile_cons_of_pos (by simp), joined_cons, joined_cons, List.flatMap_cons]
      simp

/-- Behind the first empty argument in `args` there is nothing but spaces. -/
def BlankBehindEmpty (args : List (List UInt8)) : Prop :=
  ∀ a ∈ args.dropWhile (· ≠ []), ∀ c ∈ a, c = blank

def SameUpToSpaces (s t : List UInt8) : Prop :=
  s.rdropWhile (· = blank) = t.rdropWhile (· = blank)

theorem rdropWhile_append_eq_iff {α : Type*} {p : α → Bool} (s t : List α) :
    s.rdropWhile p = (s ++ t).rdropWhile p ↔ ∀ c ∈ t, p c = true := by
  constructor
  · intro h
    by_contra hall
    have hne : t.reverse.dropWhile p ≠ [] := by
      simpa [List.dropWhile_eq_nil_iff] using hall
    have hlen := congrArg List.length h
    simp only [List.rdropWhile, List.length_reverse, List.reverse_append] at hlen
    rw [List.dropWhile_append, if_neg (by simpa using hne), List.length_append,
      List.length_reverse] at hlen
    have hle := List.length_dropWhile_le p s.reverse
    have hpos := List.length_pos_of_ne_nil hne
    rw [List.length_reverse] at hle
    omega
  · intro h
    rw [List.rdropWhile, List.rdropWhile, List.reverse_append,
      List.dropWhile_append_of_pos (by simpa using h)]

theorem sameUpToSpaces_iff (a : List UInt8) (args : List (List UInt8)) :
    SameUpToSpaces (joined (a :: args.takeWhile (· ≠ []))) (joined (a :: args)) ↔
      BlankBehindEmpty args := by
  have hsplit : joined (a :: args) = joined (a :: args.takeWhile (· ≠ [])) ++
      (args.dropWhile (· ≠ [])).flatMap (blank :: ·) := by
    rw [joined_cons, joined_cons, List.append_assoc, ← List.flatMap_append,
      List.takeWhile_append_dropWhile]
  rw [SameUpToSpaces, hsplit, rdropWhile_append_eq_iff, BlankBehindEmpty]
  simp only [List.mem_flatMap, List.mem_cons, decide_eq_true_eq]
  constructor
  · exact fun h b hb c hc => h c ⟨b, hb, .inr hc⟩
  · rintro h c ⟨b, hb, hc | hc⟩
    · exact hc
    · exact h b hb c hc

theorem zero_notMem_joined {args : List (List UInt8)} (h : ∀ a ∈ args, 0 ∉ a) :
    0 ∉ joined args := by
  cases args with
  | nil => simp [joined]
  | cons a args =>
    obtain ⟨ha, hargs⟩ := List.forall_mem_cons.mp h
    rw [joined_cons, List.mem_append, List.mem_flatMap]
    rintro (hmem | ⟨b, hb, hmem⟩)
    · exact ha hmem
    · rcases List.mem_cons.mp hmem with hzero | hmem
      · exact absurd hzero (by decide)
      · exact hargs b hb hmem

/-- The line shows the arguments, up to spaces at its end, exactly if no empty argument but the
first has an argument behind it with another character than a space. -/
theorem cmdline_complete_iff (args : List (List UInt8)) (hne : args ≠ [])
    (hzero : ∀ a ∈ args, 0 ∉ a) (hlen : (content args).length ≤ lineMax - 1) :
    ∃ line s, scanCmdline (content args) = .ok line ∧ Holds line s ∧
      (SameUpToSpaces s (joined args) ↔ BlankBehindEmpty args.tail) := by
  obtain ⟨a, args, rfl⟩ := List.exists_cons_of_ne_nil hne
  obtain ⟨ha, hargs⟩ := List.forall_mem_cons.mp hzero
  have hmax : lineMax = 512 := rfl
  obtain ⟨n, hn⟩ : ∃ n, lineMax - (content (a :: args)).length = n + 1 :=
    Nat.exists_eq_add_one_of_ne_zero (by omega)
  obtain ⟨rest, hrest⟩ := spaced_content ha hargs n
  have hline : readLine (content (a :: args)) =
      content (a :: args) ++ List.replicate (n + 1) 0 := by
    rw [readLine, hn, List.take_of_length_le (by omega)]
  have hfull : (content (a :: args) ++ List.replicate (n + 1) 0).length = lineMax := by
    rw [List.length_append, List.length_replicate]
    omega
  have hscan : scanCmdline (content (a :: args)) =
      .ok (joined (a :: args.takeWhile (· ≠ [])) ++ 0 :: rest) := by
    have hloop := spaceLoop_eq [] _ ((Nat.zero_add _).trans hfull)
    rw [hfull, hrest] at hloop
    rw [scanCmdline, hline]
    exact hloop
  have hshown : 0 ∉ joined (a :: args.takeWhile (· ≠ [])) := by
    refine zero_notMem_joined (List.forall_mem_cons.mpr ⟨ha, fun b hb => ?_⟩)
    exact hargs b ((List.takeWhile_sublist _).subset hb)
  exact ⟨_, _, hscan, .append_zero hshown rest, sameUpToSpaces_iff a args⟩

theorem cmdline_complete_ls : ∃ line s, scanCmdline (content [[108, 115], [45, 108], []]) =
    .ok line ∧ Holds line s ∧ SameUpToSpaces s [108, 115, 32, 45, 108] := by
  obtain ⟨line, s, hscan, hs, hiff⟩ := cmdline_complete_iff [[108, 115], [45, 108], []]
    (by simp) (by simp) (by decide)
  have hsame := hiff.mpr (by simp [BlankBehindEmpty])
  exact ⟨line, s, hscan, hs, hsame.trans (by decide)⟩

/-- The arguments "a", "" and "b" are shown as "a". -/
theorem empty_argument_cuts : ∃ line, scanCmdline (content [[97], [], [98]]) = .ok line ∧
    Holds line [97] ∧ ¬SameUpToSpaces [97] (joined [[97], [], [98]]) := by
  refine ⟨97 :: 0 :: 0 :: 98 :: List.replicate 508 0, by decide +kernel, ⟨by decide, ?_⟩, ?_⟩
  · exact ⟨0 :: 98 :: List.replicate 508 0, rfl⟩
  · rw [SameUpToSpaces]
    decide

end SsuOs.Ps
