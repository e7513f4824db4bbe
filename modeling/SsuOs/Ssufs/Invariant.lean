import SsuOs.Ssufs.Volume

/-! Which blocks belong to which file, and that every call keeps it so. -/
namespace SsuOs.Ssufs
open Lib

namespace Volume

section Claim

variable (l : List (Fin numDataBlocks)) (v : Volume)

@[simp] theorem claim_nil : v.claim [] = v := rfl

@[simp] theorem claim_cons (b : Fin numDataBlocks) : v.claim (b :: l) = (v.take b).claim l := rfl

@[simp] theorem claim_label : (v.claim l).label = v.label := by
  induction l generalizing v with
  | nil => rfl
  | cons b l ih => exact ih _

@[simp] theorem claim_used : (v.claim l).used = v.used := by
  induction l generalizing v with
  | nil => rfl
  | cons b l ih => exact ih _

@[simp] theorem claim_file : (v.claim l).file = v.file := by
  induction l generalizing v with
  | nil => rfl
  | cons b l ih => exact ih _

@[simp] theorem claim_handle : (v.claim l).handle = v.handle := by
  induction l generalizing v with
  | nil => rfl
  | cons b l ih => exact ih _

theorem claim_taken (b : Fin numDataBlocks) :
    (v.claim l).taken b = (v.taken b || decide (b ∈ l)) := by
  induction l generalizing v with
  | nil => simp
  | cons a l ih =>
    rw [claim_cons, ih]
    by_cases hb : b = a
    · simp [take, hb]
    · simp [take, hb]

theorem claim_data (b : Fin numDataBlocks) :
    (v.claim l).data b = if b ∈ l then zeros blockSize else v.data b := by
  induction l generalizing v with
  | nil => simp
  | cons a l ih =>
    rw [claim_cons, ih]
    by_cases hb : b = a
    · simp [take, hb]
    · simp [take, hb]

theorem extent_le_claim : v.extent ≤ (v.claim l).extent := by
  induction l generalizing v with
  | nil => exact le_rfl
  | cons b l ih => exact le_trans (le_max_left _ (blockSize * (6 + b))) (ih (v.take b))

theorem reach_le_claim {b : Fin numDataBlocks} (hb : b ∈ l) :
    blockSize * (6 + b) ≤ (v.claim l).extent := by
  induction l generalizing v with
  | nil => simp at hb
  | cons a l ih =>
    rcases List.mem_cons.mp hb with rfl | hb
    · exact le_trans (le_max_right v.extent _) (extent_le_claim l (v.take b))
    · exact ih _ hb

end Claim

section Put

variable (bs : List (Fin numDataBlocks)) (l : List UInt8) (v : Volume)

@[simp] theorem put_label : (v.put bs l).label = v.label := by
  induction bs generalizing v l with
  | nil => rfl
  | cons b bs ih => exact ih _ _

@[simp] theorem put_used : (v.put bs l).used = v.used := by
  induction bs generalizing v l with
  | nil => rfl
  | cons b bs ih => exact ih _ _

@[simp] theorem put_taken : (v.put bs l).taken = v.taken := by
  induction bs generalizing v l with
  | nil => rfl
  | cons b bs ih => exact ih _ _

@[simp] theorem put_file : (v.put bs l).file = v.file := by
  induction bs generalizing v l with
  | nil => rfl
  | cons b bs ih => exact ih _ _

@[simp] theorem put_handle : (v.put bs l).handle = v.handle := by
  induction bs generalizing v l with
  | nil => rfl
  | cons b bs ih => exact ih _ _

theorem put_data_of_notMem {b : Fin numDataBlocks} (hb : b ∉ bs) :
    (v.put bs l).data b = v.data b := by
  induction bs generalizing v l with
  | nil => rfl
  | cons a bs ih =>
    rw [List.mem_cons, not_or] at hb
    unfold put
    rw [ih _ _ hb.2]
    simp [hb.1]

theorem extent_le_put : v.extent ≤ (v.put bs l).extent := by
  induction bs generalizing v l with
  | nil => exact le_rfl
  | cons b bs ih =>
    have h := ih (l.drop blockSize) { v with
      data := Function.update v.data b (l.take blockSize), extent := reach b v.extent }
    exact le_trans (le_max_left _ (blockSize * (6 + b))) h

variable {bs l v}

theorem put_data_length (hv : ∀ b, (v.data b).length = blockSize)
    (hl : blockSize * bs.length ≤ l.length) (b : Fin numDataBlocks) :
    ((v.put bs l).data b).length = blockSize := by
  induction bs generalizing v l with
  | nil => exact hv b
  | cons a bs ih =>
    rw [List.length_cons, Nat.mul_succ] at hl
    apply ih
    · intro c
      by_cases hc : c = a
      · simp only [hc, Function.update_self, List.length_take]
        exact min_eq_left (by omega)
      · simp only [Function.update_of_ne hc, hv]
    · rw [List.length_drop]
      omega

theorem bytes_put (hbs : bs.Nodup) (hl : blockSize * bs.length ≤ l.length) :
    (v.put bs l).bytes bs = l.take (blockSize * bs.length) := by
  induction bs generalizing v l with
  | nil => simp [bytes]
  | cons a bs ih =>
    rw [List.nodup_cons] at hbs
    rw [List.length_cons, Nat.mul_succ] at hl
    have hrest := ih (v := { v with
      data := Function.update v.data a (l.take blockSize), extent := reach a v.extent })
      (l := l.drop blockSize) hbs.2 (by rw [List.length_drop]; omega)
    unfold bytes at hrest ⊢
    rw [List.flatMap_cons, put, hrest, put_data_of_notMem _ _ _ hbs.1]
    dsimp only
    rw [Function.update_self, List.length_cons, Nat.mul_succ, Nat.add_comm, List.take_add]

end Put

section Bytes

variable {v v' : Volume}

theorem length_bytes (hv : ∀ b, (v.data b).length = blockSize) (bs : List (Fin numDataBlocks)) :
    (v.bytes bs).length = blockSize * bs.length := by
  induction bs with
  | nil => rfl
  | cons b bs ih =>
    unfold bytes at ih ⊢
    rw [List.flatMap_cons, List.length_append, ih, hv, List.length_cons, Nat.mul_succ,
      Nat.add_comm]

theorem bytes_congr {bs : List (Fin numDataBlocks)} (h : ∀ b ∈ bs, v'.data b = v.data b) :
    v'.bytes bs = v.bytes bs := by
  unfold bytes
  rw [List.flatMap_congr h]

theorem bytes_append (bs cs : List (Fin numDataBlocks)) :
    v.bytes (bs ++ cs) = v.bytes bs ++ v.bytes cs :=
  List.flatMap_append

theorem getD_bytes_claim {l : List (Fin numDataBlocks)} (k : ℕ) :
    ((v.claim l).bytes l).getD k 0 = 0 := by
  have h : ∀ c ∈ (v.claim l).bytes l, c = 0 := by
    intro c hc
    obtain ⟨b, hb, hcb⟩ := List.mem_flatMap.mp hc
    rw [claim_data, if_pos hb] at hcb
    exact List.eq_of_mem_replicate hcb
  by_cases hk : k < ((v.claim l).bytes l).length
  · rw [List.getD_eq_getElem _ _ hk]
    exact h _ (List.getElem_mem hk)
  · exact List.getD_eq_default _ _ (by omega)

theorem getD_buffer (bs : List (Fin numDataBlocks)) (k : ℕ) :
    (v.buffer bs).getD k 0 =
      if k < blockSize * maxFileSize then (v.bytes bs).getD k 0 else 0 := by
  rw [buffer, getD_region, Nat.zero_add]

@[simp] theorem length_buffer (bs : List (Fin numDataBlocks)) :
    (v.buffer bs).length = blockSize * maxFileSize :=
  length_region _ _ _

end Bytes

theorem nodup_freeBlocks (v : Volume) : v.freeBlocks.Nodup :=
  (List.nodup_finRange _).filter _

theorem mem_freeBlocks {v : Volume} {b : Fin numDataBlocks} :
    b ∈ v.freeBlocks ↔ v.taken b = false := by
  simp [freeBlocks]

theorem used_of_freeInode {v : Volume} {i : Fin numInodes} (h : v.freeInode = some i) :
    v.used i = false := by
  simpa using List.find?_some h

theorem file_of_freeHandle {v : Volume} {h : Fin maxOpenFiles} (hh : v.freeHandle = some h) :
    (v.handle h).file = none := by
  simpa using List.find?_some hh

theorem closeFirst_cases (v : Volume) (i : Fin numInodes) :
    ((∀ h, (v.handle h).file ≠ some i) ∧ v.closeFirst i = v) ∨
      ∃ h, (v.handle h).file = some i ∧ v.closeFirst i = v.setHandle h ⟨none, 0⟩ := by
  unfold closeFirst
  cases hf : (List.finRange maxOpenFiles).find? (fun h => (v.handle h).file = some i) with
  | none => exact Or.inl ⟨by simpa using hf, rfl⟩
  | some h => exact Or.inr ⟨h, by simpa using List.find?_some hf, rfl⟩

theorem closeFirst_eq (v : Volume) (i : Fin numInodes) :
    ∃ handle, v.closeFirst i = { v with handle := handle } := by
  rcases v.closeFirst_cases i with ⟨-, hc⟩ | ⟨h, -, hc⟩
  · exact ⟨v.handle, hc⟩
  · exact ⟨_, hc⟩

@[simp] theorem closeFirst_used (v : Volume) (i : Fin numInodes) :
    (v.closeFirst i).used = v.used := by
  obtain ⟨handle, hc⟩ := v.closeFirst_eq i
  rw [hc]

@[simp] theorem closeFirst_taken (v : Volume) (i : Fin numInodes) :
    (v.closeFirst i).taken = v.taken := by
  obtain ⟨handle, hc⟩ := v.closeFirst_eq i
  rw [hc]

@[simp] theorem closeFirst_file (v : Volume) (i : Fin numInodes) :
    (v.closeFirst i).file = v.file := by
  obtain ⟨handle, hc⟩ := v.closeFirst_eq i
  rw [hc]

@[simp] theorem closeFirst_data (v : Volume) (i : Fin numInodes) :
    (v.closeFirst i).data = v.data := by
  obtain ⟨handle, hc⟩ := v.closeFirst_eq i
  rw [hc]

theorem of_namei {v : Volume} {f : CStr} {i : Fin numInodes} (h : v.namei f = some i) :
    v.used i = true ∧ (v.file i).Named f := by
  simpa using List.find?_some h

section Fields

variable {v : Volume} {h k : Fin maxOpenFiles} {i j : Fin numInodes} {f : CStr}
  {fresh : List (Fin numDataBlocks)} {b : List UInt8}

@[simp] theorem addFile_used_self : (v.addFile i f).used i = true := Function.update_self _ _ _

theorem addFile_used_of_ne (hj : j ≠ i) : (v.addFile i f).used j = v.used j :=
  Function.update_of_ne hj _ _

theorem addFile_file_self : (v.addFile i f).file i = ⟨true, fun j => f.byte j, 0, []⟩ :=
  Function.update_self _ _ _

theorem addFile_file_of_ne (hj : j ≠ i) : (v.addFile i f).file j = v.file j :=
  Function.update_of_ne hj _ _

@[simp] theorem release_used_self : (v.release i).used i = false := Function.update_self _ _ _

theorem release_used_of_ne (hj : j ≠ i) : (v.release i).used j = v.used j :=
  Function.update_of_ne hj _ _

theorem release_file_self : (v.release i).file i =
    { v.file i with busy := false, size := 0, blocks := [] } :=
  Function.update_self _ _ _

theorem release_file_of_ne (hj : j ≠ i) : (v.release i).file j = v.file j :=
  Function.update_of_ne hj _ _

@[simp] theorem wrote_label : (v.wrote h i fresh b).label = v.label := by
  simp [wrote]

@[simp] theorem wrote_used : (v.wrote h i fresh b).used = v.used := by
  simp [wrote]

theorem wrote_taken (c : Fin numDataBlocks) :
    (v.wrote h i fresh b).taken c = (v.taken c || decide (c ∈ fresh)) := by
  simp [wrote, claim_taken]

@[simp] theorem wrote_file_self : (v.wrote h i fresh b).file i =
    (v.file i).grow fresh ((v.handle h).offset + b.length) :=
  Function.update_self _ _ _

theorem wrote_file_of_ne (hj : j ≠ i) : (v.wrote h i fresh b).file j = v.file j :=
  Function.update_of_ne hj _ _

theorem wrote_name (j : Fin numInodes) :
    ((v.wrote h i fresh b).file j).name = (v.file j).name := by
  by_cases hj : j = i
  · rw [hj, wrote_file_self]
    rfl
  · rw [wrote_file_of_ne hj]

theorem size_le_wrote (j : Fin numInodes) :
    (v.file j).size ≤ ((v.wrote h i fresh b).file j).size := by
  by_cases hj : j = i
  · rw [hj, wrote_file_self]
    exact le_max_left _ _
  · rw [wrote_file_of_ne hj]

@[simp] theorem wrote_handle_self : (v.wrote h i fresh b).handle h =
    { v.handle h with offset := (v.handle h).offset + b.length } :=
  Function.update_self _ _ _

theorem wrote_handle_of_ne (hk : k ≠ h) : (v.wrote h i fresh b).handle k = v.handle k :=
  Function.update_of_ne hk _ _

end Fields

end Volume

theorem wrap32_top {o : ℕ} {n : ℤ} (hn : 0 ≤ n) (h : o + n ≤ (blockSize * maxFileSize : ℕ)) :
    wrap32 (o + n) = o + n := by
  unfold blockSize maxFileSize at h
  exact wrap32_eq ⟨by unfold intMin; omega, by unfold intMax; omega⟩

theorem blocksUpTo_eq {top : ℤ} (h₀ : 0 ≤ top) (h : top ≤ (blockSize * maxFileSize : ℕ)) :
    blocksUpTo top = if top = 0 then 1 else (top - 1) / blockSize + 1 := by
  unfold blocksUpTo
  unfold blockSize maxFileSize at h
  rw [wrap32_eq ⟨by unfold intMin; omega, by unfold intMax; omega⟩]
  split_ifs with ht
  · rw [ht]; rfl
  · rw [Int.tdiv_eq_ediv_of_nonneg (by omega)]

/-- Everything that holds of the files and their blocks between two calls. -/
structure Inv (v : Volume) : Prop where
  extent_ge : blockSize * 5 ≤ v.extent
  data_length : ∀ b, (v.data b).length = blockSize
  length_le : ∀ i, (v.file i).blocks.length ≤ maxFileSize
  size_le : ∀ i, (v.file i).size ≤ blockSize * (v.file i).blocks.length
  nodup : ∀ i, (v.file i).blocks.Nodup
  owner : ∀ i j b, b ∈ (v.file i).blocks → b ∈ (v.file j).blocks → i = j
  taken : ∀ i, ∀ b ∈ (v.file i).blocks, v.taken b = true
  written : ∀ i, ∀ b ∈ (v.file i).blocks, blockSize * (6 + b) ≤ v.extent
  tail_zero : ∀ i k, (v.file i).size ≤ k → (v.bytes (v.file i).blocks).getD k 0 = 0

section Inv

variable {v : Volume}

theorem Inv.length_bytes (hi : Inv v) (bs : List (Fin numDataBlocks)) :
    (v.bytes bs).length = blockSize * bs.length :=
  Volume.length_bytes hi.data_length bs

theorem Inv.size_le_max (hi : Inv v) (i : Fin numInodes) :
    (v.file i).size ≤ blockSize * maxFileSize :=
  (hi.size_le i).trans (Nat.mul_le_mul_left _ (hi.length_le i))

theorem Inv.length_content (hi : Inv v) (i : Fin numInodes) :
    (v.content i).length = (v.file i).size := by
  rw [Volume.content, List.length_take, hi.length_bytes]
  exact min_eq_left (hi.size_le i)

/-- Beyond its end a file reads as zeros in its last block. -/
theorem Inv.getD_content (hi : Inv v) (i : Fin numInodes) (k : ℕ) :
    (v.content i).getD k 0 = (v.bytes (v.file i).blocks).getD k 0 := by
  by_cases hk : k < (v.file i).size
  · have hlen := hi.length_bytes (v.file i).blocks
    have hsize := hi.size_le i
    rw [List.getD_eq_getElem _ _ (by rw [hi.length_content]; exact hk),
      List.getD_eq_getElem _ _ (by omega)]
    simp [Volume.content]
  · rw [hi.tail_zero i k (by omega), List.getD_eq_default _ _ (by rw [hi.length_content]; omega)]

theorem Inv.setHandle (hi : Inv v) (h : Fin maxOpenFiles) (e : Handle) : Inv (v.setHandle h e) :=
  ⟨hi.extent_ge, hi.data_length, hi.length_le, hi.size_le, hi.nodup, hi.owner, hi.taken,
    hi.written, hi.tail_zero⟩

theorem Inv.closeFirst (hi : Inv v) (i : Fin numInodes) : Inv (v.closeFirst i) := by
  rcases v.closeFirst_cases i with ⟨-, hc⟩ | ⟨h, -, hc⟩
  · rw [hc]
    exact hi
  · rw [hc]
    exact hi.setHandle h _

/-- What `Inv` says of a single file. -/
structure Volume.FileOk (v : Volume) (x : File) : Prop where
  length_le : x.blocks.length ≤ maxFileSize
  size_le : x.size ≤ blockSize * x.blocks.length
  nodup : x.blocks.Nodup
  taken : ∀ b ∈ x.blocks, v.taken b = true
  written : ∀ b ∈ x.blocks, blockSize * (6 + b) ≤ v.extent
  tail_zero : ∀ k, x.size ≤ k → (v.bytes x.blocks).getD k 0 = 0

theorem Inv.setFile (hi : Inv v) {v' : Volume} {i : Fin numInodes} {x : File}
    (hfile : v'.file = Function.update v.file i x) (hext : v.extent ≤ v'.extent)
    (hdata : ∀ b, (v'.data b).length = blockSize) (hx : v'.FileOk x)
    (hothers : ∀ j ≠ i, v'.FileOk (v.file j))
    (howner : ∀ j ≠ i, ∀ b ∈ (v.file j).blocks, b ∉ x.blocks) : Inv v' := by
  have hok : ∀ j, v'.FileOk (v'.file j) := by
    rw [hfile, Function.forall_update_iff v.file fun _ y => v'.FileOk y]
    exact ⟨hx, hothers⟩
  refine ⟨hi.extent_ge.trans hext, hdata, fun j => (hok j).length_le, fun j => (hok j).size_le,
    fun j => (hok j).nodup, fun j k b hj hk => ?_, fun j => (hok j).taken,
    fun j => (hok j).written, fun j => (hok j).tail_zero⟩
  rw [hfile, Function.update_apply] at hj hk
  split_ifs at hj hk with hji hki hki
  · rw [hji, hki]
  · exact absurd hj (howner k hki b hk)
  · exact absurd hk (howner j hji b hj)
  · exact hi.owner j k b hj hk

theorem Inv.clearFile (hi : Inv v) {i : Fin numInodes} {x : File} (hx : x.blocks = [])
    (hs : x.size = 0) (used : Fin numInodes → Bool) {taken : Fin numDataBlocks → Bool}
    (ht : ∀ j ≠ i, ∀ b ∈ (v.file j).blocks, taken b = true) :
    Inv { v with used := used, taken := taken, file := Function.update v.file i x } := by
  refine hi.setFile rfl le_rfl hi.data_length ?_ (fun j hj => ?_) (by simp [hx])
  · constructor <;> simp [hx, hs, Volume.bytes]
  · exact ⟨hi.length_le j, hi.size_le j, hi.nodup j, ht j hj, hi.written j, hi.tail_zero j⟩

theorem Inv.addFile (hi : Inv v) (i : Fin numInodes) (f : CStr) : Inv (v.addFile i f) :=
  hi.clearFile rfl rfl _ fun j _ => hi.taken j

theorem Inv.release (hi : Inv v) (i : Fin numInodes) : Inv (v.release i) := by
  refine hi.clearFile rfl rfl _ fun j hj b hb => ?_
  have hnot : b ∉ (v.file i).blocks := fun hbi => hj (hi.owner j i b hb hbi)
  simp [hi.taken j b hb, hnot]

theorem Inv.bytes_claim (hi : Inv v) {l : List (Fin numDataBlocks)}
    (hl : ∀ b ∈ l, v.taken b = false) (i : Fin numInodes) :
    (v.claim l).bytes (v.file i).blocks = v.bytes (v.file i).blocks := by
  apply Volume.bytes_congr
  intro b hb
  have hout : b ∉ l := by
    intro hbl
    have := hi.taken i b hb
    rw [hl b hbl] at this
    simp at this
  rw [Volume.claim_data, if_neg hout]

theorem Inv.claim (hi : Inv v) {l : List (Fin numDataBlocks)}
    (hl : ∀ b ∈ l, v.taken b = false) : Inv (v.claim l) := by
  constructor
  · exact hi.extent_ge.trans (Volume.extent_le_claim l v)
  · intro b
    rw [Volume.claim_data]
    split_ifs
    · simp [zeros]
    · exact hi.data_length b
  · simpa using hi.length_le
  · simpa using hi.size_le
  · simpa using hi.nodup
  · simpa using hi.owner
  · intro i b hb
    rw [Volume.claim_file] at hb
    rw [Volume.claim_taken, hi.taken i b hb]
    rfl
  · intro i b hb
    rw [Volume.claim_file] at hb
    exact (hi.written i b hb).trans (Volume.extent_le_claim l v)
  · intro i k hk
    rw [Volume.claim_file] at hk ⊢
    rw [hi.bytes_claim hl]
    exact hi.tail_zero i k hk

section Wrote

variable {h : Fin maxOpenFiles} {i : Fin numInodes} {fresh : List (Fin numDataBlocks)}
  {b : List UInt8}

/-- The blocks that a write may use: free ones, enough of them, and no more than fit. -/
structure Volume.Room (v : Volume) (h : Fin maxOpenFiles) (i : Fin numInodes)
    (fresh : List (Fin numDataBlocks)) (n : ℕ) : Prop where
  nodup : fresh.Nodup
  free : ∀ c ∈ fresh, v.taken c = false
  length_le : ((v.file i).blocks ++ fresh).length ≤ maxFileSize
  covers : (v.handle h).offset + n ≤ blockSize * ((v.file i).blocks ++ fresh).length

theorem Inv.notMem_fresh (hi : Inv v) (hr : v.Room h i fresh b.length) {j : Fin numInodes}
    {c : Fin numDataBlocks} (hc : c ∈ (v.file j).blocks) : c ∉ fresh := by
  intro hf
  have := hi.taken j c hc
  rw [hr.free c hf] at this
  simp at this

theorem Inv.nodup_append (hi : Inv v) (hr : v.Room h i fresh b.length) :
    ((v.file i).blocks ++ fresh).Nodup := by
  refine List.nodup_append.mpr ⟨hi.nodup i, hr.nodup, ?_⟩
  rintro c hc _ hf rfl
  exact hi.notMem_fresh hr hc hf

theorem Inv.wrote_data_of_notMem {c : Fin numDataBlocks}
    (hc : c ∉ (v.file i).blocks ++ fresh) : (v.wrote h i fresh b).data c = v.data c := by
  have hf : c ∉ fresh := fun hf => hc (List.mem_append_right _ hf)
  change ((v.claim fresh).put _ _).data c = _
  rw [Volume.put_data_of_notMem _ _ _ hc, Volume.claim_data, if_neg hf]

theorem Inv.wrote_bytes_of_ne (hi : Inv v) (hr : v.Room h i fresh b.length) {j : Fin numInodes}
    (hj : j ≠ i) :
    (v.wrote h i fresh b).bytes (v.file j).blocks = v.bytes (v.file j).blocks := by
  apply Volume.bytes_congr
  intro c hc
  apply Inv.wrote_data_of_notMem
  rw [List.mem_append, not_or]
  exact ⟨fun hci => hj (hi.owner j i c hc hci), hi.notMem_fresh hr hc⟩

/-- Before the write, the file and its fresh blocks read like the file alone. -/
theorem Inv.getD_claim_bytes (hi : Inv v) (hr : v.Room h i fresh b.length) (k : ℕ) :
    ((v.claim fresh).bytes ((v.file i).blocks ++ fresh)).getD k 0 =
      (v.bytes (v.file i).blocks).getD k 0 := by
  rw [Volume.bytes_append, hi.bytes_claim hr.free]
  by_cases hk : k < (v.bytes (v.file i).blocks).length
  · exact List.getD_append _ _ _ _ hk
  · rw [List.getD_append_right _ _ _ _ (by omega), Volume.getD_bytes_claim,
      List.getD_eq_default _ _ (by omega)]

theorem Inv.getD_wrote_bytes (hi : Inv v) (hr : v.Room h i fresh b.length) (k : ℕ) :
    ((v.wrote h i fresh b).bytes ((v.file i).blocks ++ fresh)).getD k 0 =
      if (v.handle h).offset ≤ k ∧ k < (v.handle h).offset + b.length then
        b.getD (k - (v.handle h).offset) 0
      else (v.bytes (v.file i).blocks).getD k 0 := by
  have hcov := hr.covers
  have hmax : blockSize * ((v.file i).blocks ++ fresh).length ≤ blockSize * maxFileSize :=
    Nat.mul_le_mul_left _ hr.length_le
  have hlen : blockSize * ((v.file i).blocks ++ fresh).length ≤
      (pwrite ((v.claim fresh).buffer ((v.file i).blocks ++ fresh)) (v.handle h).offset
        b).length := by
    rw [length_pwrite, Volume.length_buffer]
    exact hmax.trans (le_max_left _ _)
  have hbytes : (v.wrote h i fresh b).bytes ((v.file i).blocks ++ fresh) = _ :=
    Volume.bytes_put (hi.nodup_append hr) hlen
  rw [hbytes]
  by_cases hk : k < blockSize * ((v.file i).blocks ++ fresh).length
  · have hin : k < blockSize * maxFileSize := by omega
    rw [List.getD_eq_getElem _ _ (by rw [List.length_take]; omega), List.getElem_take,
      ← List.getD_eq_getElem _ 0, getD_pwrite, Volume.getD_buffer, if_pos hin,
      hi.getD_claim_bytes hr]
  · have hold := hi.length_bytes (v.file i).blocks
    rw [List.length_append, Nat.mul_add] at hk hcov
    rw [List.getD_eq_default _ _ (by rw [List.length_take, List.length_append, Nat.mul_add]; omega),
      if_neg (by omega), List.getD_eq_default _ _ (by omega)]

theorem Inv.fileOk_wrote (hi : Inv v) (hr : v.Room h i fresh b.length) :
    (v.wrote h i fresh b).FileOk ((v.file i).grow fresh ((v.handle h).offset + b.length)) := by
  have hext : (v.claim fresh).extent ≤ (v.wrote h i fresh b).extent := Volume.extent_le_put _ _ _
  refine ⟨hr.length_le, ?_, hi.nodup_append hr, fun c hc => ?_, fun c hc => ?_, fun k hk => ?_⟩
  · refine max_le ((hi.size_le i).trans (Nat.mul_le_mul_left _ ?_)) hr.covers
    simp [File.grow]
  · rw [Volume.wrote_taken]
    rcases List.mem_append.mp hc with hci | hcf
    · simp [hi.taken i c hci]
    · simp [hcf]
  · refine le_trans ?_ hext
    rcases List.mem_append.mp hc with hci | hcf
    · exact (hi.written i c hci).trans (Volume.extent_le_claim _ _)
    · exact Volume.reach_le_claim _ _ hcf
  · unfold File.grow at hk ⊢
    dsimp only at hk ⊢
    rw [hi.getD_wrote_bytes hr, if_neg (by omega)]
    exact hi.tail_zero i k (by omega)

theorem Inv.wrote (hi : Inv v) (hr : v.Room h i fresh b.length) : Inv (v.wrote h i fresh b) := by
  have hmax : blockSize * ((v.file i).blocks ++ fresh).length ≤ blockSize * maxFileSize :=
    Nat.mul_le_mul_left _ hr.length_le
  have hext : v.extent ≤ (v.wrote h i fresh b).extent :=
    (Volume.extent_le_claim _ _).trans (Volume.extent_le_put _ _ _)
  refine hi.setFile rfl hext ?_ (hi.fileOk_wrote hr) (fun j hj => ?_) fun j hj c hc hci => ?_
  · apply Volume.put_data_length (hi.claim hr.free).data_length
    rw [length_pwrite, Volume.length_buffer]
    exact hmax.trans (le_max_left _ _)
  · refine ⟨hi.length_le j, hi.size_le j, hi.nodup j, fun c hc => ?_, fun c hc => ?_,
      fun k hk => ?_⟩
    · rw [Volume.wrote_taken, hi.taken j c hc]
      rfl
    · exact (hi.written j c hc).trans hext
    · rw [hi.wrote_bytes_of_ne hr hj]
      exact hi.tail_zero j k hk
  · rcases List.mem_append.mp hci with hci | hcf
    · exact hj (hi.owner j i c hc hci)
    · exact hi.notMem_fresh hr hc hcf

theorem Inv.room (hi : Inv v) {buf : List UInt8} {n : ℤ} (hn : 0 ≤ n) (hb : n ≤ buf.length)
    (ht : (v.handle h).offset + n ≤ (blockSize * maxFileSize : ℕ))
    (hk : Volume.blocksNeeded (v.file i) ((v.handle h).offset + n) ≤ v.freeBlocks.length) :
    v.Room h i (v.freeBlocks.take (Volume.blocksNeeded (v.file i) ((v.handle h).offset + n)))
      (buf.take n.toNat).length := by
  have hlen := hi.length_le i
  have hneed := blocksUpTo_eq (by omega) ht
  have hcount : ((v.file i).blocks ++ v.freeBlocks.take
      (Volume.blocksNeeded (v.file i) ((v.handle h).offset + n))).length =
      (v.file i).blocks.length + Volume.blocksNeeded (v.file i) ((v.handle h).offset + n) := by
    rw [List.length_append, List.length_take, min_eq_left hk]
  constructor
  · exact (Volume.nodup_freeBlocks v).sublist (List.take_sublist _ _)
  · intro c hc
    exact Volume.mem_freeBlocks.mp (List.mem_of_mem_take hc)
  · rw [hcount, Volume.blocksNeeded]
    omega
  · rw [hcount, Volume.blocksNeeded, hneed, List.length_take]
    unfold blockSize maxFileSize at *
    split_ifs <;> omega

end Wrote

theorem Effect.inv {v' : Volume} {c : Call} {r : Ret} (he : Effect v c r v') (hi : Inv v) :
    Inv v' := by
  cases he with
  | created hf hu => exact hi.addFile _ _
  | deleted hf => exact (hi.closeFirst _).release _
  | opened hf hh => exact hi.setHandle _ _
  | closed h => exact hi.setHandle _ _
  | read hh hn hs => exact hi.setHandle _ _
  | writeFull hh ht hk => exact hi.claim fun b => Volume.mem_freeBlocks.mp
  | wrote hh hn hb ht hk => exact hi.wrote (hi.room hn hb ht hk)
  | seek hh h₀ hs => exact hi.setHandle _ _
  | seekClosed hh h₀ => exact hi.setHandle _ _
  | _ => exact hi

end Inv

end SsuOs.Ssufs
