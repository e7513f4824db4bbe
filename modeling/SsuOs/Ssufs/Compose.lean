import SsuOs.Ssufs.Simulation

/-! Two writes one after the other do what one write of both strings does. -/
namespace SsuOs.Ssufs
open Lib

/-- The same freelists, inodes, data blocks and array of open files. -/
structure SameDisk (s s' : State) : Prop where
  superblock : s.superblock = s'.superblock
  inode : ∀ i, s.inode i = s'.inode i
  block : ∀ b, s.block b = s'.block b
  handle : s.handle = s'.handle

namespace Volume

section Fresh

variable {v : Volume} {h : Fin maxOpenFiles} {i : Fin numInodes} {b : List UInt8}

theorem freeBlocks_wrote (k : ℕ) :
    (v.wrote h i (v.freeBlocks.take k) b).freeBlocks = v.freeBlocks.drop k := by
  have hfilter : (v.wrote h i (v.freeBlocks.take k) b).freeBlocks =
      v.freeBlocks.filter fun c => decide (c ∉ v.freeBlocks.take k) := by
    conv_rhs => rw [freeBlocks, List.filter_filter]
    unfold freeBlocks
    apply List.filter_congr
    intro c _
    rw [wrote_taken, Bool.not_or, Bool.and_comm, decide_not]
  have hnodup := v.nodup_freeBlocks
  rw [← List.take_append_drop k v.freeBlocks, List.nodup_append] at hnodup
  obtain ⟨-, -, hdisjoint⟩ := hnodup
  rw [hfilter]
  conv_lhs =>
    arg 2
    rw [← List.take_append_drop k v.freeBlocks]
  rw [List.filter_append, List.filter_eq_nil_iff.mpr (by simp), List.nil_append,
    List.filter_eq_self]
  intro c hc
  exact decide_eq_true fun hmem => hdisjoint c hmem c hc rfl

theorem blocksUpTo_mono {o n m : ℕ} (hmax : o + (n + m) ≤ blockSize * maxFileSize) :
    blocksUpTo (o + n) ≤ blocksUpTo (o + (n + m : ℕ)) := by
  rw [blocksUpTo_eq (by omega) (by omega), blocksUpTo_eq (by omega) (by omega)]
  unfold blockSize
  split_ifs
  · omega
  · omega
  · omega
  · omega

theorem blocksNeeded_mono (x : File) {o n m : ℕ} (hmax : o + (n + m) ≤ blockSize * maxFileSize) :
    blocksNeeded x (o + n) ≤ blocksNeeded x (o + (n + m : ℕ)) := by
  have hmono := blocksUpTo_mono hmax
  unfold blocksNeeded
  omega

theorem blocksNeeded_add {x : File} {fresh : List (Fin numDataBlocks)} {o n m : ℕ} (top : ℕ)
    (hmax : o + (n + m) ≤ blockSize * maxFileSize)
    (hfresh : fresh.length = blocksNeeded x (o + n)) :
    blocksNeeded x (o + (n + m : ℕ)) =
      blocksNeeded x (o + n) + blocksNeeded (x.grow fresh top) ((o + n : ℕ) + m) := by
  have hmono := blocksUpTo_mono hmax
  have htop : ((o + n : ℕ) + m : ℤ) = o + (n + m : ℕ) := by omega
  rw [htop]
  unfold blocksNeeded at hfresh ⊢
  simp only [File.grow, List.length_append, hfresh]
  omega

end Fresh

theorem data_eq_of_bytes_eq {v v' : Volume} (hv : ∀ b, (v.data b).length = blockSize)
    (hv' : ∀ b, (v'.data b).length = blockSize) {bs : List (Fin numDataBlocks)}
    (h : v.bytes bs = v'.bytes bs) : ∀ b ∈ bs, v.data b = v'.data b := by
  induction bs with
  | nil => simp
  | cons c bs ih =>
    unfold bytes at h ih
    rw [List.flatMap_cons, List.flatMap_cons] at h
    obtain ⟨hhead, htail⟩ := List.append_inj h (by rw [hv, hv'])
    rw [List.forall_mem_cons]
    exact ⟨hhead, ih htail⟩

end Volume

section Wrote

variable {v : Volume} {h : Fin maxOpenFiles} {i : Fin numInodes}
  {fresh fresh' : List (Fin numDataBlocks)} {a b : List UInt8}

/-- What the two writes leave in the blocks of the file is what the one write leaves there. -/
theorem Inv.wrote_wrote_bytes (hi : Inv v) (hroom : v.Room h i fresh a.length)
    (hroom' : (v.wrote h i fresh a).Room h i fresh' b.length)
    (hboth : v.Room h i (fresh ++ fresh') (a ++ b).length) :
    ((v.wrote h i fresh a).wrote h i fresh' b).bytes ((v.file i).blocks ++ (fresh ++ fresh')) =
      (v.wrote h i (fresh ++ fresh') (a ++ b)).bytes
        ((v.file i).blocks ++ (fresh ++ fresh')) := by
  have hblocks : ((v.wrote h i fresh a).file i).blocks = (v.file i).blocks ++ fresh := by
    rw [Volume.wrote_file_self]
    rfl
  have hoff : ((v.wrote h i fresh a).handle h).offset = (v.handle h).offset + a.length := by
    rw [Volume.wrote_handle_self]
  have hi₁ := hi.wrote hroom
  apply ext_getD
  · rw [(hi₁.wrote hroom').length_bytes, (hi.wrote hboth).length_bytes]
  · intro k _
    have hsecond := hi₁.getD_wrote_bytes hroom' k
    rw [hblocks, List.append_assoc, hoff, hi.getD_wrote_bytes hroom] at hsecond
    rw [hsecond, hi.getD_wrote_bytes hboth, List.length_append]
    by_cases hlow : k < (v.handle h).offset + a.length
    · rw [if_neg (by omega)]
      by_cases hk : (v.handle h).offset ≤ k
      · rw [if_pos ⟨hk, hlow⟩, if_pos ⟨hk, by omega⟩, List.getD_append _ _ _ _ (by omega)]
      · rw [if_neg (by omega), if_neg (by omega)]
    · by_cases hk : k < (v.handle h).offset + a.length + b.length
      · rw [if_pos ⟨by omega, hk⟩, if_pos ⟨by omega, by omega⟩,
          List.getD_append_right _ _ _ _ (by omega)]
        congr 1
        omega
      · rw [if_neg (by omega), if_neg (by omega), if_neg (by omega)]

theorem Inv.wrote_wrote_data (hi : Inv v) (hroom : v.Room h i fresh a.length)
    (hroom' : (v.wrote h i fresh a).Room h i fresh' b.length)
    (hboth : v.Room h i (fresh ++ fresh') (a ++ b).length) (c : Fin numDataBlocks) :
    ((v.wrote h i fresh a).wrote h i fresh' b).data c =
      (v.wrote h i (fresh ++ fresh') (a ++ b)).data c := by
  by_cases hc : c ∈ (v.file i).blocks ++ (fresh ++ fresh')
  · exact Volume.data_eq_of_bytes_eq ((hi.wrote hroom).wrote hroom').data_length
      (hi.wrote hboth).data_length (hi.wrote_wrote_bytes hroom hroom' hboth) c hc
  · rw [Inv.wrote_data_of_notMem hc]
    have hc' : c ∉ ((v.wrote h i fresh a).file i).blocks ++ fresh' := by
      rw [Volume.wrote_file_self]
      unfold File.grow
      rwa [List.append_assoc]
    rw [Inv.wrote_data_of_notMem hc', Inv.wrote_data_of_notMem]
    intro hin
    apply hc
    rw [← List.append_assoc]
    exact List.mem_append_left _ hin

theorem File.grow_grow (x : File) (fresh fresh' : List (Fin numDataBlocks)) {m n : ℕ}
    (h : m ≤ n) : (x.grow fresh m).grow fresh' n = x.grow (fresh ++ fresh') n := by
  simp only [File.grow, List.append_assoc, max_assoc, max_eq_right h]

theorem Volume.wrote_wrote_superblock :
    ((v.wrote h i fresh a).wrote h i fresh' b).superblock =
      (v.wrote h i (fresh ++ fresh') (a ++ b)).superblock := by
  simp only [Volume.superblock, Volume.wrote_label, Volume.wrote_used, Volume.wrote_taken,
    List.mem_append, Bool.decide_or, Bool.or_assoc]

theorem Volume.wrote_wrote_file (j : Fin numInodes) :
    ((v.wrote h i fresh a).wrote h i fresh' b).file j =
      (v.wrote h i (fresh ++ fresh') (a ++ b)).file j := by
  by_cases hj : j = i
  · subst hj
    simp only [Volume.wrote_file_self, Volume.wrote_handle_self, List.length_append]
    rw [File.grow_grow _ _ _ (by omega), Nat.add_assoc]
  · rw [Volume.wrote_file_of_ne hj, Volume.wrote_file_of_ne hj, Volume.wrote_file_of_ne hj]

theorem Volume.wrote_wrote_handle (k : Fin maxOpenFiles) :
    ((v.wrote h i fresh a).wrote h i fresh' b).handle k =
      (v.wrote h i (fresh ++ fresh') (a ++ b)).handle k := by
  by_cases hk : k = h
  · subst hk
    simp only [Volume.wrote_handle_self, List.length_append, Nat.add_assoc]
  · rw [Volume.wrote_handle_of_ne hk, Volume.wrote_handle_of_ne hk, Volume.wrote_handle_of_ne hk]

end Wrote

section Calls

variable {s s' : State} {v : Volume}

theorem ssufsWrite_fits (hr : Represents s v) (hi : Inv v) {h : Fin maxOpenFiles}
    {i : Fin numInodes} (hh : (v.handle h).file = some i) {b : List UInt8}
    (ht : (v.handle h).offset + b.length ≤ blockSize * maxFileSize)
    (hk : Volume.blocksNeeded (v.file i) ((v.handle h).offset + b.length) ≤
      v.freeBlocks.length) :
    ∃ s', ssufsWrite h b b.length s = .ok (0, s') ∧ Represents s' (v.wrote h i
      (v.freeBlocks.take (Volume.blocksNeeded (v.file i) ((v.handle h).offset + b.length))) b) := by
  have hwrap : wrap32 ((v.handle h).offset + b.length) = (v.handle h).offset + b.length :=
    wrap32_top (by omega) (by omega)
  rcases ssufsWrite_sim hr hi h b b.length with ⟨hv, -⟩ | ⟨r, s', v', hs, he, hr'⟩
  · refine absurd ⟨by omega, le_rfl, ?_⟩ hv
    rw [hr.offset]
    unfold InInt intMin intMax
    unfold blockSize maxFileSize at ht
    omega
  · cases he with
    | writeClosed hh' =>
      rw [hh] at hh'
      simp at hh'
    | writeTooLong _ ht' =>
      rw [hwrap] at ht'
      omega
    | writeFull hh' _ hk' =>
      obtain rfl := Option.some.inj (hh.symm.trans hh')
      rw [hwrap] at hk'
      omega
    | wrote hh' =>
      obtain rfl := Option.some.inj (hh.symm.trans hh')
      rw [Int.toNat_natCast, List.take_length] at hr'
      exact ⟨s', hs, hr'⟩

theorem ssufsWrite_inv (hr : Represents s v) (hi : Inv v) {h : Fin maxOpenFiles} {b : List UInt8}
    (hs : ssufsWrite h b b.length s = .ok (0, s')) :
    ∃ i, (v.handle h).file = some i ∧
      (v.handle h).offset + b.length ≤ blockSize * maxFileSize ∧
      Volume.blocksNeeded (v.file i) ((v.handle h).offset + b.length) ≤ v.freeBlocks.length ∧
      Represents s' (v.wrote h i
        (v.freeBlocks.take (Volume.blocksNeeded (v.file i) ((v.handle h).offset + b.length)))
        b) := by
  rcases ssufsWrite_sim hr hi h b b.length with ⟨-, hs'⟩ | ⟨r, s₁, v', hs', he, hr'⟩
  · rw [hs'] at hs
    simp at hs
  · obtain ⟨rfl, rfl⟩ := ok_unique_pair hs' hs
    cases he with
    | wrote hh hn hb ht hk =>
      rw [Int.toNat_natCast, List.take_length] at hr'
      exact ⟨_, hh, by omega, hk, hr'⟩

theorem Represents.sameDisk {v' : Volume} (hr : Represents s v) (hr' : Represents s' v')
    (hsb : v.superblock = v'.superblock) (hfile : ∀ i, v.file i = v'.file i)
    (hdata : ∀ b, v.data b = v'.data b) (hhandle : ∀ h, v.handle h = v'.handle h) :
    SameDisk s s' := by
  constructor
  · rw [hr.superblock, hr'.superblock, hsb]
  · intro i
    rw [hr.inode, hr'.inode, hfile]
  · intro b
    rw [hr.block, hr'.block, hdata]
  · funext h
    rw [hr.handle, hr'.handle, hhandle]

theorem Inv.room_length (hi : Inv v) {h : Fin maxOpenFiles} {i : Fin numInodes} {b : List UInt8}
    (ht : (v.handle h).offset + b.length ≤ blockSize * maxFileSize)
    (hk : Volume.blocksNeeded (v.file i) ((v.handle h).offset + b.length) ≤
      v.freeBlocks.length) :
    v.Room h i (v.freeBlocks.take
      (Volume.blocksNeeded (v.file i) ((v.handle h).offset + b.length))) b.length := by
  have hroom := hi.room (n := b.length) (by omega) le_rfl (by omega) hk
  rwa [Int.toNat_natCast, List.take_length] at hroom

/-- What one write of `a ++ b` does, a write of `a` and then one of `b` do: the same blocks are
taken for the file and the same bytes left in them. -/
theorem write_append {tr : List (Event State Call Ret)} (hrun : AnyRun tr s)
    (h : Fin maxOpenFiles) (a b : List UInt8)
    (hs : ssufsWrite h (a ++ b) (a ++ b).length s = .ok (0, s')) :
    ∃ s₁ s₂, ssufsWrite h a a.length s = .ok (0, s₁) ∧ ssufsWrite h b b.length s₁ = .ok (0, s₂) ∧
      SameDisk s₂ s' := by
  obtain ⟨v, hr, hi⟩ := hrun.sound
  obtain ⟨i, hh, ht, hk, hr'⟩ := ssufsWrite_inv hr hi hs
  have hboth := hi.room_length ht hk
  rw [List.length_append] at ht hk hr' hboth
  -- the first write takes the first `k` free blocks
  have hka := (Volume.blocksNeeded_mono (v.file i) ht).trans hk
  obtain ⟨s₁, hs₁, hr₁⟩ := ssufsWrite_fits hr hi hh (b := a) (by omega) hka
  have hroom := hi.room_length (i := i) (b := a) (by omega) hka
  generalize hkdef : Volume.blocksNeeded (v.file i) ((v.handle h).offset + a.length) = k at *
  have hfresh : (v.freeBlocks.take k).length =
      Volume.blocksNeeded (v.file i) ((v.handle h).offset + a.length) := by
    rw [List.length_take, hkdef, min_eq_left hka]
  have hadd := Volume.blocksNeeded_add ((v.handle h).offset + a.length) ht hfresh
  -- the second one the rest of those that a single write takes
  have hfile : (v.wrote h i (v.freeBlocks.take k) a).file i =
      (v.file i).grow (v.freeBlocks.take k) ((v.handle h).offset + a.length) :=
    Volume.wrote_file_self
  have hoff : ((v.wrote h i (v.freeBlocks.take k) a).handle h).offset =
      (v.handle h).offset + a.length := by
    rw [Volume.wrote_handle_self]
  have hh₁ : ((v.wrote h i (v.freeBlocks.take k) a).handle h).file = some i := by
    rw [Volume.wrote_handle_self, hh]
  have hkb : Volume.blocksNeeded ((v.wrote h i (v.freeBlocks.take k) a).file i)
      (((v.wrote h i (v.freeBlocks.take k) a).handle h).offset + b.length) ≤
      (v.wrote h i (v.freeBlocks.take k) a).freeBlocks.length := by
    rw [Volume.freeBlocks_wrote, List.length_drop, hfile, hoff]
    omega
  have ht₁ : ((v.wrote h i (v.freeBlocks.take k) a).handle h).offset + b.length ≤
      blockSize * maxFileSize := by
    omega
  have hi₁ := hi.wrote hroom
  obtain ⟨s₂, hs₂, hr₂⟩ := ssufsWrite_fits hr₁ hi₁ hh₁ ht₁ hkb
  have hroom₁ := hi₁.room_length ht₁ hkb
  rw [Volume.freeBlocks_wrote, hfile, hoff] at hr₂ hroom₁
  rw [hadd, hkdef, List.take_add] at hr' hboth
  rw [← List.length_append] at hboth
  exact ⟨s₁, s₂, hs₁, hs₂, hr₂.sameDisk hr' Volume.wrote_wrote_superblock Volume.wrote_wrote_file
    (hi.wrote_wrote_data hroom hroom₁ hboth) Volume.wrote_wrote_handle⟩

/-- The cut lies in the middle of the file's second block. -/
theorem write_append_hundred :
    ∃ tr s s' s₁ s₂, AnyRun tr s ∧
      ssufsWrite 0 (List.replicate 70 65 ++ List.replicate 30 66) 100 s = .ok (0, s') ∧
      ssufsWrite 0 (List.replicate 70 65) 70 s = .ok (0, s₁) ∧
      ssufsWrite 0 (List.replicate 30 66) 30 s₁ = .ok (0, s₂) ∧ SameDisk s₂ s' := by
  obtain ⟨tr, s, hrun, hp⟩ := FsRun.exists_of_check [.create nameA, .open nameA]
    (p := fun _ s => decide ((ssufsWrite 0 (List.replicate 70 65 ++ List.replicate 30 66) 100
      s).map Prod.fst = .ok 0)) (by decide +kernel)
  obtain ⟨⟨r, s'⟩, hs, hr⟩ := map_eq_ok.mp (of_decide_eq_true hp)
  obtain rfl : r = 0 := hr
  obtain ⟨s₁, s₂, hs₁, hs₂, hsame⟩ := write_append hrun.anyRun 0 (List.replicate 70 65)
    (List.replicate 30 66) hs
  exact ⟨tr, s, s', s₁, s₂, hrun.anyRun, hs, hs₁, hs₂, hsame⟩

end Calls

end SsuOs.Ssufs
