import Mathlib.Data.List.Nodup
import SsuOs.Ssufs.View

/-! The searches and loops of the calls, seen on the volume. -/
namespace SsuOs.Ssufs
open Lib

theorem strcmp_eq {mem chars : List UInt8} (hz : ∀ c ∈ chars, c ≠ 0)
    (hlen : chars.length < mem.length) :
    strcmp mem (chars ++ [0]) = .ok (decide (chars ++ [0] <+: mem)) := by
  induction chars generalizing mem with
  | nil =>
    cases mem with
    | nil => simp at hlen
    | cons a mem =>
      by_cases ha : a = 0
      · simp [strcmp, ha]
      · simp [strcmp, ha, Ne.symm ha]
  | cons c chars ih =>
    cases mem with
    | nil => simp at hlen
    | cons a mem =>
      have hc : c ≠ 0 := hz c List.mem_cons_self
      rw [List.cons_append]
      unfold strcmp
      by_cases ha : a = c
      · rw [if_neg (not_not.mpr ha), if_neg (ha ▸ hc),
          ih (fun d hd => hz d (List.mem_cons_of_mem c hd)) (by simpa using hlen)]
        simp [List.cons_prefix_cons, ha]
      · rw [if_pos ha]
        simp [List.cons_prefix_cons, Ne.symm ha]

theorem length_nameMem (x : Inode) : x.nameMem.length = 28 := by
  unfold Inode.nameMem
  rw [List.length_drop, inodeLayout.length_encode, inodeLayout_size]

theorem nameMem_eq (x : Inode) :
    x.nameMem = List.ofFn x.name ++
      (encodeInt x.fileSize ++ (Layout.array maxFileSize .int).encode x.directBlocks) := by
  have hchars : (Layout.array maxNameStrlen .char).encode x.name = List.ofFn x.name := by
    change (List.ofFn fun i => [x.name i]).flatten = _
    simp
  rw [← hchars]
  exact List.drop_left' (length_encodeInt _)

theorem inodeNumber_nonneg (i : Fin numInodes) : 0 ≤ inodeNumber (some i) :=
  Int.natCast_nonneg _

theorem inodeNumber_ne_neg_one (i : Fin numInodes) : inodeNumber (some i) ≠ -1 := by
  have := inodeNumber_nonneg i
  omega

theorem inodeNumber_inj {x y : Option (Fin numInodes)} (h : inodeNumber x = inodeNumber y) :
    x = y := by
  cases x with
  | none =>
    cases y with
    | none => rfl
    | some j =>
      have := inodeNumber_nonneg j
      rw [← h] at this
      simp [inodeNumber] at this
  | some i =>
    cases y with
    | none =>
      have := inodeNumber_nonneg i
      rw [h] at this
      simp [inodeNumber] at this
    | some j =>
      simp only [inodeNumber, Int.natCast_inj] at h
      rw [Fin.ext h]

theorem setInode_superblock (v : Volume) (i : Fin numInodes) (u : Bool) :
    v.superblock.setInode i (if u then inodeInUse else inodeFree) =
      { v with used := Function.update v.used i u }.superblock := by
  unfold Volume.superblock SuperBlock.setInode
  congr 1
  funext j
  by_cases hj : j = i
  · simp [hj]
  · simp [hj]

theorem setBlock_superblock (v : Volume) (b : Fin numDataBlocks) (u : Bool) :
    v.superblock.setBlock b (if u then dataBlockUsed else dataBlockFree) =
      { v with taken := Function.update v.taken b u }.superblock := by
  unfold Volume.superblock SuperBlock.setBlock
  congr 1
  funext c
  by_cases hc : c = b
  · simp [hc]
  · simp [hc]

theorem inodeFreelist_eq_free (v : Volume) :
    (fun i => decide (v.superblock.inodeFreelist i = inodeFree)) = fun i => !v.used i := by
  funext i
  cases hu : v.used i <;> simp only [Volume.superblock, hu] <;> decide

theorem datablockFreelist_eq_free (v : Volume) :
    (fun b => decide (v.superblock.datablockFreelist b = dataBlockFree)) =
      fun b => !v.taken b := by
  funext b
  cases hb : v.taken b <;> simp only [Volume.superblock, hb] <;> decide

section Search

variable {s : State} {v : Volume} (hr : Represents s v) (hx : blockSize * 5 ≤ v.extent)
include hr hx

theorem nameiLoop_eq {f : CStr} (hf : f.chars.length ≤ maxNameStrlen)
    (l : List (Fin numInodes)) :
    nameiLoop v.superblock f s l =
      .ok (inodeNumber (l.find? fun i => v.used i ∧ (v.file i).Named f)) := by
  induction l with
  | nil => rfl
  | cons i l ih =>
    have hmem : f.chars.length < (v.file i).toInode.nameMem.length := by
      rw [length_nameMem]
      exact lt_of_le_of_lt hf (by decide)
    unfold nameiLoop
    by_cases hu : v.used i = true
    · have hflag : v.superblock.inodeFreelist i = inodeInUse := if_pos hu
      rw [if_pos hflag, hr.readInode hx, ok_bind, strcmp_eq f.noNul hmem, ok_bind, ih]
      by_cases hn : (v.file i).Named f
      · have hp := hn.2
        simp [hu, hn, hp, inodeNumber]
      · have hp : ¬f.chars ++ [0] <+: (v.file i).toInode.nameMem := fun hp => hn ⟨hf, hp⟩
        simp [hn, hp]
    · have hflag : v.superblock.inodeFreelist i ≠ inodeInUse := by
        simp only [Volume.superblock, hu]
        decide
      rw [if_neg hflag, ih]
      simp [hu]

theorem openNamei_eq (f : CStr) : openNamei f s = .ok (inodeNumber (v.namei f)) := by
  unfold openNamei
  split_ifs with hf
  · have hnone : v.namei f = none := by
      apply List.find?_eq_none.mpr
      intro i _
      simp only [decide_eq_true_eq, not_and]
      intro _ hn
      exact absurd hn.1 (by omega)
    rw [hnone]
    rfl
  · rw [hr.readSuperBlock hx, ok_bind, nameiLoop_eq hr hx (by omega)]
    rfl

theorem allocInode_none (hu : v.freeInode = none) : ssufsAllocInode s = .ok (-1, s) := by
  unfold ssufsAllocInode
  rw [hr.readSuperBlock hx, ok_bind, inodeFreelist_eq_free v, ← Volume.freeInode, hu]

theorem allocInode_some {i : Fin numInodes} (hu : v.freeInode = some i) :
    ∃ s', ssufsAllocInode s = .ok (((i : ℕ) : ℤ), s') ∧
      Represents s' { v with used := Function.update v.used i true } := by
  obtain ⟨s', hs', hr'⟩ := hr.writeSuperBlock hx (Function.update v.used i true) v.taken
  have hsb : v.superblock.setInode i inodeInUse = _ := setInode_superblock v i true
  refine ⟨s', ?_, hr'⟩
  unfold ssufsAllocInode
  rw [hr.readSuperBlock hx, ok_bind, inodeFreelist_eq_free v, ← Volume.freeInode, hu]
  dsimp only
  rw [hsb, hs', ok_bind]

theorem allocDataBlock_nil (hf : v.freeBlocks = []) : ssufsAllocDataBlock s = .ok (-1, s) := by
  unfold ssufsAllocDataBlock
  rw [hr.readSuperBlock hx, ok_bind, datablockFreelist_eq_free v, ← List.head?_filter,
    ← Volume.freeBlocks, hf]
  rfl

theorem allocDataBlock_cons {b : Fin numDataBlocks} {l : List (Fin numDataBlocks)}
    (hf : v.freeBlocks = b :: l) :
    ∃ s', ssufsAllocDataBlock s = .ok (((b : ℕ) : ℤ), s') ∧
      Represents s' { v with taken := Function.update v.taken b true } := by
  obtain ⟨s', hs', hr'⟩ := hr.writeSuperBlock hx v.used (Function.update v.taken b true)
  have hsb : v.superblock.setBlock b dataBlockUsed = _ := setBlock_superblock v b true
  refine ⟨s', ?_, hr'⟩
  unfold ssufsAllocDataBlock
  rw [hr.readSuperBlock hx, ok_bind, datablockFreelist_eq_free v, ← List.head?_filter,
    ← Volume.freeBlocks, hf]
  dsimp only [List.head?_cons]
  rw [hsb, hs', ok_bind]

theorem freeDataBlock_eq {b : Fin numDataBlocks} (hb : v.taken b = true) :
    ∃ s', ssufsFreeDataBlock (b : ℕ) s = .ok s' ∧
      Represents s' { v with taken := Function.update v.taken b false } := by
  obtain ⟨s', hs', hr'⟩ := hr.writeSuperBlock hx v.used (Function.update v.taken b false)
  have hsb : v.superblock.setBlock b dataBlockFree = _ := setBlock_superblock v b false
  refine ⟨s', ?_, hr'⟩
  have hflag : v.superblock.datablockFreelist b = dataBlockUsed := if_pos hb
  unfold ssufsFreeDataBlock
  rw [hr.readSuperBlock hx, ok_bind, index_eq, ok_bind, assert_eq hflag, ok_bind, hsb, hs']

end Search

theorem drop_finRange {n k : ℕ} (hk : k < n) :
    (List.finRange n).drop k = ⟨k, hk⟩ :: (List.finRange n).drop (k + 1) := by
  rw [List.drop_eq_getElem_cons (by simpa using hk)]
  simp

theorem drop_finRange_eq_nil {n k : ℕ} (hk : n ≤ k) : (List.finRange n).drop k = [] :=
  List.drop_eq_nil_of_le (by simpa using hk)

theorem blockSlot_of_lt {l : List (Fin numDataBlocks)} {j : ℕ} (hj : j < l.length) :
    blockSlot l j = (l[j] : ℕ) := by
  unfold blockSlot
  rw [List.getElem?_eq_getElem hj]

theorem blockSlot_of_le {l : List (Fin numDataBlocks)} {j : ℕ} (hj : l.length ≤ j) :
    blockSlot l j = -1 := by
  unfold blockSlot
  rw [List.getElem?_eq_none hj]

theorem blockSlot_nonneg {l : List (Fin numDataBlocks)} {j : ℕ} :
    0 ≤ blockSlot l j ↔ j < l.length := by
  by_cases hj : j < l.length
  · rw [blockSlot_of_lt hj]
    omega
  · rw [blockSlot_of_le (by omega)]
    omega

def Inode.withBlocks (x : Inode) (l : List (Fin numDataBlocks)) : Inode :=
  { x with directBlocks := fun j => blockSlot l j }

section Buffer

variable {v : Volume}

theorem buffer_nil : v.buffer [] = List.replicate (blockSize * maxFileSize) 0 := by
  apply ext_getD (by simp)
  intro k hk
  rw [Volume.length_buffer] at hk
  rw [Volume.getD_buffer, List.getD_replicate _ hk]
  simp [Volume.bytes]

theorem store_buffer (hd : ∀ b, (v.data b).length = blockSize)
    {l : List (Fin numDataBlocks)} (hl : l.length < maxFileSize) (b : Fin numDataBlocks) :
    store (v.buffer l) (blockSize * (l.length : ℕ)) (v.data b) = .ok (v.buffer (l ++ [b])) := by
  have hmax : blockSize * (l.length + 1) ≤ blockSize * maxFileSize := Nat.mul_le_mul_left _ hl
  have hpos : (blockSize * (l.length : ℕ) : ℤ) = (blockSize * l.length : ℕ) := by push_cast; rfl
  rw [Nat.mul_succ] at hmax
  unfold store
  rw [hpos, if_pos (by rw [hd, Volume.length_buffer]; omega), Int.toNat_natCast]
  congr 1
  apply ext_getD
  · rw [length_pwrite, Volume.length_buffer, Volume.length_buffer, hd]
    exact max_eq_left hmax
  · intro k _
    have hlen := Volume.length_bytes hd l
    rw [getD_pwrite, Volume.getD_buffer, Volume.getD_buffer, Volume.bytes_append, hd]
    have hone : v.bytes [b] = v.data b := by simp [Volume.bytes]
    rw [hone]
    by_cases hk : k < blockSize * l.length
    · rw [if_neg (by omega), List.getD_append _ _ _ _ (by omega)]
    · rw [List.getD_append_right _ _ _ _ (by omega), hlen]
      by_cases hk' : k < blockSize * l.length + blockSize
      · rw [if_pos (by omega), if_pos (by omega)]
      · have hdlen := hd b
        rw [if_neg (by omega), List.getD_eq_default (v.data b) _ (by omega),
          List.getD_eq_default (v.bytes l) _ (by omega)]

theorem buffer_tail (hd : ∀ b, (v.data b).length = blockSize)
    {l : List (Fin numDataBlocks)} (hl : l.length < maxFileSize) :
    ((v.buffer l).drop (blockSize * l.length)).take blockSize = zeros blockSize := by
  have hmax : blockSize * (l.length + 1) ≤ blockSize * maxFileSize := Nat.mul_le_mul_left _ hl
  have hlen := Volume.length_bytes hd l
  rw [Nat.mul_succ] at hmax
  change pread (v.buffer l) (blockSize * l.length) blockSize = _
  rw [pread_eq_region (by rw [Volume.length_buffer]; exact hmax)]
  apply ext_getD (by simp [zeros])
  intro k hk
  rw [length_region] at hk
  rw [getD_region, if_pos hk, Volume.getD_buffer, List.getD_eq_default (v.bytes l) _ (by omega),
    zeros, List.getD_replicate _ hk]
  simp

theorem store_buffer_getElem (hd : ∀ b, (v.data b).length = blockSize)
    {l : List (Fin numDataBlocks)} (hl : l.length ≤ maxFileSize) {k : ℕ} (hk : k < l.length) :
    store (v.buffer (l.take k)) (blockSize * k) (v.data l[k]) =
      .ok (v.buffer (l.take (k + 1))) := by
  have hlen : (l.take k).length = k := List.length_take_of_le (by omega)
  have hstore := store_buffer hd (l := l.take k) (by omega) l[k]
  rwa [hlen, ← List.take_succ_eq_append_getElem hk] at hstore

end Buffer

/-- The blocks `l` of one file can be read, and stay so while free blocks are taken. -/
structure Loaded (v : Volume) (l : List (Fin numDataBlocks)) : Prop where
  extent_ge : blockSize * 5 ≤ v.extent
  data_length : ∀ b, (v.data b).length = blockSize
  length_le : l.length ≤ maxFileSize
  taken : ∀ b ∈ l, v.taken b = true
  written : ∀ b ∈ l, blockSize * (6 + b) ≤ v.extent

theorem Inv.loaded {v : Volume} (hi : Inv v) (i : Fin numInodes) : Loaded v (v.file i).blocks :=
  ⟨hi.extent_ge, hi.data_length, hi.length_le i, hi.taken i, hi.written i⟩

section Loops

variable {s : State} {v : Volume} {l : List (Fin numDataBlocks)}

theorem Loaded.notMem (h : Loaded v l) {b : Fin numDataBlocks} (hb : v.taken b = false) :
    b ∉ l := by
  intro hbl
  have := h.taken b hbl
  rw [hb] at this
  simp at this

theorem Loaded.take (h : Loaded v l) (hl : l.length < maxFileSize) (b : Fin numDataBlocks) :
    Loaded (v.take b) (l ++ [b]) := by
  have hdata := Volume.claim_data [b] v
  have htaken := Volume.claim_taken [b] v
  have hext : v.extent ≤ (v.take b).extent := Volume.extent_le_claim [b] v
  rw [Volume.claim_cons, Volume.claim_nil] at hdata htaken
  constructor
  · exact h.extent_ge.trans hext
  · intro c
    rw [hdata]
    split_ifs
    · simp [zeros]
    · exact h.data_length c
  · rw [List.length_append, List.length_singleton]
    exact hl
  · intro c hc
    rw [htaken]
    rcases List.mem_append.mp hc with hc | hc
    · simp [h.taken c hc]
    · simpa using Or.inr (List.mem_singleton.mp hc)
  · intro c hc
    rcases List.mem_append.mp hc with hc | hc
    · exact (h.written c hc).trans hext
    · rw [List.mem_singleton.mp hc]
      exact le_max_right _ _

theorem readBlocks_eq (hr : Represents s v) (h : Loaded v l) (x : Inode) {m k : ℕ}
    (hk : k + m = maxFileSize) :
    readBlocks (x.withBlocks l) s ((List.finRange maxFileSize).drop k) (v.buffer (l.take k)) =
      .ok (v.buffer l) := by
  have hl := h.length_le
  induction m generalizing k with
  | zero =>
    rw [drop_finRange_eq_nil (by omega), readBlocks, List.take_of_length_le (by omega)]
  | succ m ih =>
    rw [drop_finRange (by omega)]
    unfold readBlocks
    by_cases hlt : k < l.length
    · have hslot : (x.withBlocks l).directBlocks ⟨k, by omega⟩ = (l[k] : ℕ) := blockSlot_of_lt hlt
      rw [hslot, if_neg (by omega), hr.readDataBlock (h.written _ (List.getElem_mem hlt)), ok_bind,
        store_buffer_getElem h.data_length hl hlt, ok_bind]
      exact ih (by omega)
    · have hslot : (x.withBlocks l).directBlocks ⟨k, by omega⟩ = -1 :=
        blockSlot_of_le (j := k) (by omega)
      rw [hslot, if_pos (by omega), List.take_of_length_le (by omega)]

theorem writeBlocks_eq (hr : Represents s v) (hl : l.length ≤ maxFileSize)
    {tmpBuf : List UInt8} (ht : tmpBuf.length = blockSize * maxFileSize) (x : Inode) {m k : ℕ}
    (hk : k + m = maxFileSize) :
    ∃ s', writeBlocks (x.withBlocks l) tmpBuf ((List.finRange maxFileSize).drop k) s = .ok s' ∧
      Represents s' (v.put (l.drop k) (tmpBuf.drop (blockSize * k))) := by
  induction m generalizing k s v with
  | zero =>
    rw [drop_finRange_eq_nil (by omega), List.drop_eq_nil_of_le (by omega)]
    exact ⟨s, rfl, hr⟩
  | succ m ih =>
    rw [drop_finRange (by omega)]
    unfold writeBlocks
    by_cases hlt : k < l.length
    · have hslot : (x.withBlocks l).directBlocks ⟨k, by omega⟩ = (l[k] : ℕ) := blockSlot_of_lt hlt
      have hbuf : blockSize ≤ (tmpBuf.drop (blockSize * k)).length := by
        have : blockSize * (k + 1) ≤ blockSize * maxFileSize := Nat.mul_le_mul_left _ (by omega)
        rw [Nat.mul_succ] at this
        rw [List.length_drop, ht]
        omega
      obtain ⟨s₁, hs₁, hr₁⟩ := hr.writeDataBlock l[k] hbuf
      obtain ⟨s₂, hs₂, hr₂⟩ := ih hr₁ (k := k + 1) (by omega)
      refine ⟨s₂, ?_, ?_⟩
      · rw [hslot, if_neg (by omega), hs₁, ok_bind, hs₂]
      · rw [List.drop_eq_getElem_cons hlt, Volume.put, List.drop_drop]
        exact hr₂
    · have hslot : (x.withBlocks l).directBlocks ⟨k, by omega⟩ = -1 :=
        blockSlot_of_le (j := k) (by omega)
      rw [hslot, if_pos (by omega), List.drop_eq_nil_of_le (by omega)]
      exact ⟨s, rfl, hr⟩

theorem freeBlocks_take {b : Fin numDataBlocks} {rest : List (Fin numDataBlocks)}
    (hf : v.freeBlocks = b :: rest) : (v.take b).freeBlocks = rest := by
  have hnodup := Volume.nodup_freeBlocks v
  have hfilter : (v.take b).freeBlocks = v.freeBlocks.filter (fun c => c ≠ b) := by
    unfold Volume.freeBlocks
    rw [List.filter_filter]
    apply List.filter_congr
    intro c _
    by_cases hc : c = b
    · simp [Volume.take, hc]
    · simp [Volume.take, hc]
  rw [hf, List.nodup_cons] at hnodup
  rw [hfilter, hf, List.filter_cons_of_neg (by simp), List.filter_eq_self]
  intro c hc
  simp only [decide_eq_true_eq]
  exact fun h => hnodup.1 (h ▸ hc)

theorem withBlocks_append (x : Inode) (b : Fin numDataBlocks) (hl : l.length < maxFileSize) :
    (x.withBlocks l).setBlock ⟨l.length, hl⟩ (b : ℕ) = x.withBlocks (l ++ [b]) := by
  unfold Inode.setBlock Inode.withBlocks
  congr 1
  funext j
  by_cases hj : j = ⟨l.length, hl⟩
  · rw [hj, Function.update_self, blockSlot_of_lt (by simp)]
    simp
  · have hne : j.val ≠ l.length := fun h => hj (Fin.ext h)
    rw [Function.update_of_ne hj]
    by_cases hlt : j.val < l.length
    · rw [blockSlot_of_lt (l := l ++ [b]) (by simp; omega), List.getElem_append_left hlt]
      exact blockSlot_of_lt hlt
    · rw [blockSlot_of_le (l := l ++ [b]) (by simp; omega)]
      exact blockSlot_of_le (j := j) (by omega)

theorem gatherBlocks_alloc {n : ℤ} (x : Inode) (is : List (Fin maxFileSize))
    (hr : Represents s v) (h : Loaded v l) (hl : l.length < maxFileSize)
    {b : Fin numDataBlocks} {rest : List (Fin numDataBlocks)} (hf : v.freeBlocks = b :: rest)
    (hn : (l.length : ℤ) < n) :
    ∃ s', gatherBlocks n (⟨l.length, hl⟩ :: is) (x.withBlocks l) (v.buffer l) s =
        gatherBlocks n is (x.withBlocks (l ++ [b])) ((v.take b).buffer (l ++ [b])) s' ∧
      Represents s' (v.take b) := by
  have hslot : (x.withBlocks l).directBlocks ⟨l.length, hl⟩ = -1 :=
    blockSlot_of_le (j := l.length) le_rfl
  have hbuf : blockSize ≤ ((v.buffer l).drop (blockSize * l.length)).length := by
    have : blockSize * (l.length + 1) ≤ blockSize * maxFileSize := Nat.mul_le_mul_left _ hl
    rw [Nat.mul_succ] at this
    rw [List.length_drop, Volume.length_buffer]
    omega
  obtain ⟨s₁, hs₁, hr₁⟩ := allocDataBlock_cons hr h.extent_ge hf
  obtain ⟨s₂, hs₂, hr₂⟩ := hr₁.writeDataBlock b hbuf
  rw [buffer_tail h.data_length hl] at hr₂
  change Represents s₂ (v.take b) at hr₂
  have hnot : b ∉ l := by
    apply h.notMem
    apply Volume.mem_freeBlocks.mp
    rw [hf]
    exact List.mem_cons_self
  have hsame : (v.take b).buffer l = v.buffer l := by
    unfold Volume.buffer
    rw [Volume.bytes_congr]
    intro c hc
    exact Function.update_of_ne (fun h : c = b => hnot (h ▸ hc)) _ _
  have hstore := store_buffer (h.take hl b).data_length hl b
  rw [hsame] at hstore
  refine ⟨s₂, ?_, hr₂⟩
  rw [gatherBlocks, hslot, if_pos (by omega), if_pos hn, hs₁, ok_bind]
  dsimp only
  rw [if_neg (by omega), hs₂, ok_bind, hr₂.readDataBlock (le_max_right _ _), ok_bind, hstore,
    ok_bind, withBlocks_append x b hl]

/-- The first loop of `ssufs_write` from slot `k` on: the blocks of `l` up to `k` are in the
buffer already, and free blocks are appended to `l` until there are enough of them. -/
theorem gatherBlocks_eq (n : ℤ) (x : Inode) {m k d : ℕ} (hk : k + m = maxFileSize)
    (hr : Represents s v) (h : Loaded v l) (hkl : k ≤ l.length)
    (hd : d = min maxFileSize n.toNat - l.length) :
    (d ≤ v.freeBlocks.length →
      ∃ s', gatherBlocks n ((List.finRange maxFileSize).drop k) (x.withBlocks l)
          (v.buffer (l.take k)) s =
        .ok (some (x.withBlocks (l ++ v.freeBlocks.take d),
          (v.claim (v.freeBlocks.take d)).buffer (l ++ v.freeBlocks.take d)), s') ∧
        Represents s' (v.claim (v.freeBlocks.take d))) ∧
    (v.freeBlocks.length < d →
      ∃ s', gatherBlocks n ((List.finRange maxFileSize).drop k) (x.withBlocks l)
          (v.buffer (l.take k)) s = .ok (none, s') ∧ Represents s' (v.claim v.freeBlocks)) := by
  induction m generalizing k s v l d with
  | zero =>
    have h0 : d = 0 := by omega
    rw [drop_finRange_eq_nil (by omega), List.take_of_length_le (by have := h.length_le; omega), h0]
    refine ⟨fun _ => ⟨s, ?_, hr⟩, fun h => absurd h (by omega)⟩
    simp [gatherBlocks]
  | succ m ih =>
    rw [drop_finRange (by omega)]
    by_cases hlt : k < l.length
    · have hslot : (x.withBlocks l).directBlocks ⟨k, by omega⟩ = (l[k] : ℕ) := blockSlot_of_lt hlt
      unfold gatherBlocks
      rw [hslot, if_neg (by omega), hr.readDataBlock (h.written _ (List.getElem_mem hlt)), ok_bind,
        store_buffer_getElem h.data_length h.length_le hlt, ok_bind]
      exact ih (by omega) hr h (by omega) hd
    · obtain rfl : k = l.length := by omega
      have hslot : (x.withBlocks l).directBlocks ⟨l.length, by omega⟩ = -1 :=
        blockSlot_of_le (j := l.length) le_rfl
      rw [List.take_of_length_le le_rfl]
      by_cases hn : (l.length : ℤ) < n
      · cases hf : v.freeBlocks with
        | nil =>
          refine ⟨fun h => absurd h (by simp; omega), fun _ => ⟨s, ?_, hr⟩⟩
          rw [gatherBlocks, hslot, if_pos (by omega), if_pos hn,
            allocDataBlock_nil hr h.extent_ge hf, ok_bind]
          rfl
        | cons b rest =>
          obtain ⟨s₁, hs₁, hr₁⟩ := gatherBlocks_alloc x
            ((List.finRange maxFileSize).drop (l.length + 1)) hr h (by omega) hf hn
          obtain ⟨e, rfl⟩ : ∃ e, d = e + 1 := ⟨d - 1, by omega⟩
          have hnext := ih (d := e) (k := l.length + 1) (by omega) hr₁ (h.take (by omega) b)
            (by simp) (by rw [List.length_append, List.length_singleton]; omega)
          rw [freeBlocks_take hf, List.take_of_length_le (by simp)] at hnext
          rw [List.append_assoc] at hnext
          rw [hs₁, List.take_succ_cons, List.length_cons]
          exact ⟨fun hle => hnext.1 (by omega), fun hlt => hnext.2 (by omega)⟩
      · have h0 : d = 0 := by omega
        rw [gatherBlocks, hslot, if_pos (by omega), if_neg hn, h0]
        refine ⟨fun _ => ⟨s, ?_, hr⟩, fun h => absurd h (by omega)⟩
        simp

end Loops

section Free

/-- An inode whose first `k` block numbers are erased. -/
def Inode.cleared (x : Inode) (l : List (Fin numDataBlocks)) (k : ℕ) : Inode :=
  { x with directBlocks := fun j => if j.val < k then -1 else blockSlot l j }

theorem Inode.cleared_zero (x : Inode) (l : List (Fin numDataBlocks)) :
    x.cleared l 0 = x.withBlocks l := by
  simp [cleared, withBlocks]

theorem Inode.cleared_all (x : Inode) (l : List (Fin numDataBlocks)) :
    x.cleared l maxFileSize = x.withBlocks [] := by
  simp [cleared, withBlocks, blockSlot]

theorem Inode.setBlock_cleared (x : Inode) (l : List (Fin numDataBlocks)) {k : ℕ}
    (hk : k < maxFileSize) : (x.cleared l k).setBlock ⟨k, hk⟩ (-1) = x.cleared l (k + 1) := by
  unfold setBlock cleared
  congr 1
  funext j
  by_cases hj : j = ⟨k, hk⟩
  · rw [hj, Function.update_self, if_pos (Nat.lt_succ_self k)]
  · have hne : j.val ≠ k := fun h => hj (Fin.ext h)
    rw [Function.update_of_ne hj]
    dsimp only
    congr 1
    exact propext ⟨fun h => by omega, fun h => by omega⟩

theorem update_keeping {taken : Fin numDataBlocks → Bool} {l : List (Fin numDataBlocks)} {k : ℕ}
    (hk : k < l.length) :
    Function.update (keeping taken (l.take k)) l[k] false = keeping taken (l.take (k + 1)) := by
  have hmem : ∀ b, b ∈ l.take (k + 1) ↔ b ∈ l.take k ∨ b = l[k] := by
    intro b
    rw [List.take_succ_eq_append_getElem hk, List.mem_append, List.mem_singleton]
  funext b
  by_cases hb : b = l[k]
  · simp [keeping, hmem, hb]
  · simp [keeping, hmem, hb]

variable {s : State} {v : Volume} {l : List (Fin numDataBlocks)}

/-- The loop of `ssufs_freeInode` from slot `k` on. The superblock on the disk lags behind the
copy in memory. -/
theorem freeBlocks_eq (hr : Represents s v) (hx : blockSize * 5 ≤ v.extent)
    (hl : l.length ≤ maxFileSize) (hn : l.Nodup) (used : Fin numInodes → Bool)
    {taken : Fin numDataBlocks → Bool} (ht : ∀ b ∈ l, taken b = true) (x : Inode) {m k : ℕ}
    (hk : k + m = maxFileSize) :
    ∃ s' u t, freeBlocks ((List.finRange maxFileSize).drop k)
        { v with used := used, taken := keeping taken (l.take k) }.superblock (x.cleared l k) s =
        .ok ({ v with used := used, taken := keeping taken l }.superblock, x.withBlocks [], s') ∧
      Represents s' { v with used := u, taken := t } := by
  induction m generalizing k s v with
  | zero =>
    obtain rfl : k = maxFileSize := by omega
    rw [drop_finRange_eq_nil le_rfl, List.take_of_length_le hl, Inode.cleared_all]
    exact ⟨s, v.used, v.taken, rfl, hr⟩
  | succ m ih =>
    rw [drop_finRange (by omega)]
    unfold freeBlocks
    rw [Inode.setBlock_cleared x l (by omega)]
    by_cases hlt : k < l.length
    · have hslot : (x.cleared l k).directBlocks ⟨k, by omega⟩ = (l[k] : ℕ) := by
        simp only [Inode.cleared, lt_self_iff_false, if_false]
        exact blockSlot_of_lt hlt
      obtain ⟨s₁, hs₁, hr₁⟩ := hr.writeSuperBlock hx used (keeping taken (l.take k))
      have hfirst : keeping taken (l.take k) l[k] = true := by
        have hnot : l[k] ∉ l.take k := by
          intro hmem
          obtain ⟨j, hj, he⟩ := List.mem_take_iff_getElem.mp hmem
          have := (List.Nodup.getElem_inj_iff hn).mp he
          omega
        simp [keeping, ht _ (List.getElem_mem hlt), hnot]
      obtain ⟨s₂, hs₂, hr₂⟩ := freeDataBlock_eq hr₁ hx hfirst
      dsimp only at hr₂
      rw [update_keeping hlt] at hr₂
      obtain ⟨s₃, u, t, hs₃, hr₃⟩ := ih hr₂ hx (k := k + 1) (by omega)
      refine ⟨s₃, u, t, ?_, hr₃⟩
      rw [hslot, if_pos (by omega), hs₁, ok_bind, hs₂, ok_bind, hr₂.readSuperBlock hx, ok_bind]
      exact hs₃
    · have hslot : (x.cleared l k).directBlocks ⟨k, by omega⟩ = -1 := by
        simp only [Inode.cleared, lt_self_iff_false, if_false]
        exact blockSlot_of_le (by omega)
      have hsame : l.take k = l.take (k + 1) := by
        rw [List.take_of_length_le (by omega), List.take_of_length_le (by omega)]
      rw [hslot, if_neg (by simp), hsame]
      exact ih hr hx (by omega)

end Free

section Dump

variable {s : State} {v : Volume}

theorem printStr_ok (mem : List UInt8) (h : 0 ∈ mem) : ∃ t, printStr mem = .ok t :=
  ⟨_, if_pos h⟩

/-- The name is followed by the size of the file, whose high bytes are zero. -/
theorem zero_mem_nameMem {x : File} (hx : x.size ≤ blockSize * maxFileSize) :
    0 ∈ x.toInode.nameMem := by
  have hbyte : UInt8.ofNat (((x.size : ℤ) % 2 ^ 32).toNat / 2 ^ 16) = 0 := by
    have hzero : ((x.size : ℤ) % 2 ^ 32).toNat / 2 ^ 16 = 0 := by
      unfold blockSize maxFileSize at hx
      omega
    rw [hzero]
    rfl
  have hmem : (0 : UInt8) ∈ encodeInt x.size := by
    simp only [encodeInt, hbyte]
    simp
  rw [nameMem_eq]
  exact List.mem_append_right _ (List.mem_append_left _ hmem)

theorem dumpBlocks_ok (hr : Represents s v) {l : List (Fin numDataBlocks)}
    (hw : ∀ b ∈ l, blockSize * (6 + b) ≤ v.extent) (x : Inode) (js : List (Fin maxFileSize)) :
    ∃ t, dumpBlocks (x.withBlocks l) s js = .ok t := by
  induction js with
  | nil => exact ⟨"", rfl⟩
  | cons j js ih =>
    obtain ⟨t, ht⟩ := ih
    unfold dumpBlocks
    by_cases hlt : j.val < l.length
    · have hslot : (x.withBlocks l).directBlocks j = (l[j.val] : ℕ) := blockSlot_of_lt hlt
      obtain ⟨line, hline⟩ := printStr_ok (v.data l[j.val] ++ [0]) (by simp)
      rw [hslot, if_pos (by omega), hr.readDataBlock (hw _ (List.getElem_mem hlt)), ok_bind, hline,
        ok_bind, ht, ok_bind]
      exact ⟨_, rfl⟩
    · have hslot : (x.withBlocks l).directBlocks j = -1 := blockSlot_of_le (by omega)
      rw [hslot, if_neg (by simp), ht]
      exact ⟨t, rfl⟩

theorem dumpInodes_ok (hr : Represents s v) (hi : Inv v) (is : List (Fin numInodes)) :
    ∃ t, dumpInodes s is = .ok t := by
  induction is with
  | nil => exact ⟨"", rfl⟩
  | cons i is ih =>
    obtain ⟨t, ht⟩ := ih
    unfold dumpInodes
    rw [hr.readInode hi.extent_ge, ok_bind]
    split_ifs with hs
    · obtain ⟨name, hname⟩ := printStr_ok _ (zero_mem_nameMem (hi.size_le_max i))
      obtain ⟨blocks, hblocks⟩ := dumpBlocks_ok hr (hi.written i) (v.file i).toInode
        (List.finRange maxFileSize)
      change dumpBlocks (v.file i).toInode _ _ = _ at hblocks
      rw [hname, ok_bind, hblocks, ok_bind, ht, ok_bind]
      exact ⟨_, rfl⟩
    · exact ⟨t, ht⟩

theorem ssufsDump_ok (hr : Represents s v) (hi : Inv v) : ∃ t, ssufsDump s = .ok t := by
  obtain ⟨name, hname⟩ := printStr_ok (List.ofFn v.superblock.name ++ [0]) (by simp)
  obtain ⟨t, ht⟩ := dumpInodes_ok hr hi (List.finRange numInodes)
  unfold ssufsDump
  rw [hr.readSuperBlock hi.extent_ge, ok_bind, hname, ok_bind, ht, ok_bind]
  exact ⟨_, rfl⟩

end Dump

end SsuOs.Ssufs
