import SsuOs.Ssufs.Simulation

/-! Which calls leave an open file behind that no longer stands inside a file in use. -/
namespace SsuOs.Ssufs
open Lib

/-- Every open file names an inode in use, and its offset lies inside the file. -/
def NoDangling (s : State) : Prop :=
  ∀ h, (s.handle h).inodeNumber ≠ -1 →
    ∃ i : Fin numInodes, (s.handle h).inodeNumber = (i : ℕ) ∧
      s.superblock.inodeFreelist i = inodeInUse ∧
      0 ≤ (s.handle h).offset ∧ (s.handle h).offset ≤ (s.inode i).fileSize

/-- A file that is deleted is open at most once. A file that is opened gets a handle whose
offset, which `ssufs_open` leaves as it is, lies inside the file. -/
def SafeCall (c : Call) (s : State) : Prop :=
  match c with
  | .delete f => ∀ i : Fin numInodes, openNamei f s = .ok (i : ℕ) → ∀ h k,
      (s.handle h).inodeNumber = (i : ℕ) → (s.handle k).inodeNumber = (i : ℕ) → h = k
  | .open f => ∀ (i : Fin numInodes) h, openNamei f s = .ok (i : ℕ) →
      ssufsAllocFileHandle s = some h → (s.handle h).offset ≤ (s.inode i).fileSize
  | _ => True

namespace Volume

def NoDangling (v : Volume) : Prop :=
  ∀ h i, (v.handle h).file = some i → v.used i = true ∧ (v.handle h).offset ≤ (v.file i).size

def SafeCall (v : Volume) (c : Call) : Prop :=
  match c with
  | .delete f => ∀ i, v.namei f = some i → ∀ h k,
      (v.handle h).file = some i → (v.handle k).file = some i → h = k
  | .open f => ∀ i h, v.namei f = some i → v.freeHandle = some h →
      (v.handle h).offset ≤ (v.file i).size
  | _ => True

end Volume

section View

variable {s : State} {v : Volume} (hr : Represents s v)
include hr

theorem Represents.noDangling_iff : NoDangling s ↔ v.NoDangling := by
  unfold NoDangling Volume.NoDangling
  refine forall_congr' fun h => ?_
  simp only [hr.inodeNumber_eq_iff, hr.inodeInUse_iff, hr.offset, hr.fileSize_eq]
  rw [hr.inodeNumber_handle]
  cases hf : (v.handle h).file with
  | none => simp [inodeNumber]
  | some i => simp [inodeNumber_ne_neg_one i]

theorem Represents.openNamei_eq_iff (hi : Inv v) (f : CStr) (i : Fin numInodes) :
    openNamei f s = .ok ((i : ℕ) : ℤ) ↔ v.namei f = some i := by
  rw [openNamei_eq hr hi.extent_ge]
  exact ⟨fun h => inodeNumber_inj (y := some i) (Except.ok.inj h), fun h => by rw [h]; rfl⟩

theorem Represents.safeCall_iff (hi : Inv v) (c : Call) : SafeCall c s ↔ v.SafeCall c := by
  cases c with
  | delete f =>
    unfold SafeCall Volume.SafeCall
    simp only [hr.openNamei_eq_iff hi, hr.inodeNumber_eq_iff]
  | «open» f =>
    unfold SafeCall Volume.SafeCall
    simp only [hr.openNamei_eq_iff hi, hr.allocFileHandle, hr.offset, hr.fileSize_eq,
      Int.ofNat_le]
  | _ => exact Iff.rfl

end View

section Step

variable {v v' : Volume}

theorem Volume.NoDangling.setHandle_iff (hp : v.NoDangling) (h : Fin maxOpenFiles) (e : Handle) :
    (v.setHandle h e).NoDangling ↔
      ∀ i, e.file = some i → v.used i = true ∧ e.offset ≤ (v.file i).size := by
  constructor
  · intro hd i hi
    have := hd h i
    simp only [Volume.setHandle, Function.update_self] at this
    exact this hi
  · intro he k i hk
    by_cases hkh : k = h
    · subst hkh
      simp only [Volume.setHandle, Function.update_self] at hk ⊢
      exact he i hk
    · simp only [Volume.setHandle, Function.update_of_ne hkh] at hk ⊢
      exact hp k i hk

theorem Volume.NoDangling.setOffset (hp : v.NoDangling) {h : Fin maxOpenFiles}
    {i : Fin numInodes} (hh : (v.handle h).file = some i) {o : ℕ} (ho : o ≤ (v.file i).size) :
    (v.setHandle h { v.handle h with offset := o }).NoDangling := by
  rw [hp.setHandle_iff]
  intro j hj
  obtain rfl := Option.some.inj (hh.symm.trans hj)
  exact ⟨(hp h i hh).1, ho⟩

theorem Volume.NoDangling.addFile (hp : v.NoDangling) {i : Fin numInodes}
    (hu : v.used i = false) (f : CStr) : (v.addFile i f).NoDangling := by
  intro h j hj
  obtain ⟨hused, hle⟩ := hp h j hj
  have hji : j ≠ i := by
    rintro rfl
    rw [hu] at hused
    simp at hused
  rw [Volume.addFile_used_of_ne hji, Volume.addFile_file_of_ne hji]
  exact ⟨hused, hle⟩

theorem Volume.NoDangling.release (hp : v.NoDangling) {i : Fin numInodes}
    (hi : ∀ h, (v.handle h).file ≠ some i) : (v.release i).NoDangling := by
  intro h j hj
  have hji : j ≠ i := by
    rintro rfl
    exact hi h hj
  rw [Volume.release_used_of_ne hji, Volume.release_file_of_ne hji]
  exact hp h j hj

/-- The loop of `ssufs_delete` closes one handle, which is enough for a file that is open once. -/
theorem Volume.closeFirst_file_ne {i : Fin numInodes}
    (huniq : ∀ h k, (v.handle h).file = some i → (v.handle k).file = some i → h = k)
    (h : Fin maxOpenFiles) : ((v.closeFirst i).handle h).file ≠ some i := by
  rcases v.closeFirst_cases i with ⟨hnone, hc⟩ | ⟨m, hm, hc⟩
  · rw [hc]
    exact hnone h
  · rw [hc]
    intro hh
    by_cases hhm : h = m
    · subst hhm
      simp [Volume.setHandle] at hh
    · simp only [Volume.setHandle, Function.update_of_ne hhm] at hh
      exact hhm (huniq h m hh hm)

theorem Volume.NoDangling.closeFirst (hp : v.NoDangling) (i : Fin numInodes) :
    (v.closeFirst i).NoDangling := by
  rcases v.closeFirst_cases i with ⟨-, hc⟩ | ⟨m, -, hc⟩
  · rw [hc]
    exact hp
  · rw [hc, hp.setHandle_iff]
    simp

theorem Volume.NoDangling.delete_iff (hp : v.NoDangling) (i : Fin numInodes) :
    ((v.closeFirst i).release i).NoDangling ↔
      ∀ h k, (v.handle h).file = some i → (v.handle k).file = some i → h = k := by
  constructor
  · intro hd
    rcases v.closeFirst_cases i with ⟨hnone, -⟩ | ⟨m, -, hc⟩
    · exact fun h _ hh => absurd hh (hnone h)
    · rw [hc] at hd
      have hall : ∀ h, (v.handle h).file = some i → h = m := by
        intro h hh
        by_contra hne
        have hused := (hd h i (by simpa [Volume.release, Volume.setHandle, hne] using hh)).1
        simp at hused
      intro h k hh hk
      rw [hall h hh, hall k hk]
  · intro huniq
    exact (hp.closeFirst i).release (Volume.closeFirst_file_ne huniq)

theorem Volume.NoDangling.wrote (hp : v.NoDangling) {h : Fin maxOpenFiles} {i : Fin numInodes}
    (hh : (v.handle h).file = some i) (fresh : List (Fin numDataBlocks)) (b : List UInt8) :
    (v.wrote h i fresh b).NoDangling := by
  intro k j hk
  rw [Volume.wrote_used]
  by_cases hkh : k = h
  · subst hkh
    rw [Volume.wrote_handle_self] at hk ⊢
    obtain rfl := Option.some.inj (hh.symm.trans hk)
    refine ⟨(hp k i hh).1, ?_⟩
    rw [Volume.wrote_file_self]
    exact le_max_right _ _
  · rw [Volume.wrote_handle_of_ne hkh] at hk ⊢
    exact ⟨(hp k j hk).1, (hp k j hk).2.trans (Volume.size_le_wrote j)⟩

/-- From a volume without a dangling handle, exactly the safe calls lead to such a volume. -/
theorem Effect.noDangling_iff {c : Call} {r : Ret} (he : Effect v c r v') (hp : v.NoDangling) :
    v'.NoDangling ↔ v.SafeCall c := by
  cases he with
  | created hf hu => exact iff_of_true (hp.addFile (Volume.used_of_freeInode hu) _) trivial
  | deleteMiss hf =>
    refine iff_of_true hp fun i hi => ?_
    rw [hf] at hi
    simp at hi
  | @deleted f i hf =>
    rw [hp.delete_iff]
    constructor
    · intro huniq j hj
      obtain rfl := Option.some.inj (hf.symm.trans hj)
      exact huniq
    · intro hs
      exact hs i hf
  | openFail hf =>
    refine iff_of_true hp fun i h hi hh => ?_
    rcases hf with hf | hf
    · simp [hf] at hi
    · simp [hf] at hh
  | @opened f i h hf hh =>
    rw [hp.setHandle_iff]
    constructor
    · intro hd j k hj hk
      obtain rfl := Option.some.inj (hf.symm.trans hj)
      obtain rfl := Option.some.inj (hh.symm.trans hk)
      exact (hd i rfl).2
    · intro hs j hj
      obtain rfl := Option.some.inj hj
      exact ⟨(Volume.of_namei hf).1, hs i h hf hh⟩
  | closed h => exact iff_of_true ((hp.setHandle_iff h _).mpr (by simp)) trivial
  | read hh hn hs => exact iff_of_true (hp.setOffset hh (by omega)) trivial
  | writeFull hh ht hk => exact iff_of_true (by simpa [Volume.NoDangling] using hp) trivial
  | wrote hh => exact iff_of_true (hp.wrote hh _ _) trivial
  | seek hh h₀ hs => exact iff_of_true (hp.setOffset hh (by omega)) trivial
  | seekClosed hh h₀ => exact iff_of_true ((hp.setHandle_iff _ _).mpr (by simp [hh])) trivial
  | _ => exact iff_of_true hp trivial

end Step

section Runs

variable {tr : List (Event State Call Ret)} {s : State}

/-- No handle is ever dangling along a run exactly if the run makes safe calls only. A safe
`ssufs_delete` leaves no handle on the inode. -/
theorem noDangling_iff_safeCalls (h : AnyRun tr s) :
    ((NoDangling s ∧ ∀ e ∈ tr, NoDangling e.pre) ↔ ∀ e ∈ tr, SafeCall e.call e.pre) ∧
      ∀ (f : CStr) (i : Fin numInodes) (r : Ret) (s' : State), SafeCall (.delete f) s →
        openNamei f s = .ok (i : ℕ) → exec (.delete f) s = .ok (r, s') →
        ∀ k, (s'.handle k).inodeNumber ≠ (i : ℕ) := by
  constructor
  · apply h.forall_iff_good NoDangling SafeCall
    · intro label name s hr
      rw [hr.noDangling_iff]
      intro h i hh
      simp [Volume.formatted] at hh
    · intro s v c r s' v' hr hi hr' _ he hp
      rw [hr'.noDangling_iff, hr.safeCall_iff hi]
      exact he.noDangling_iff (hr.noDangling_iff.mp hp)
  · obtain ⟨v, hr, hi⟩ := h.sound
    intro f i r s' hsafe hf he k
    obtain ⟨v', heff, hr', -⟩ := exec_effect hr hi he
    rw [hr.safeCall_iff hi] at hsafe
    rw [hr.openNamei_eq_iff hi] at hf
    rw [Ne, hr'.inodeNumber_eq_iff]
    cases heff with
    | deleteMiss hf' => simp [hf'] at hf
    | deleted hf' =>
      obtain rfl := Option.some.inj (hf'.symm.trans hf)
      exact Volume.closeFirst_file_ne (hsafe _ hf) k

theorem noDangling_opened :
    ∃ tr s, AnyRun tr s ∧ (s.handle 0).inodeNumber = 0 ∧
      ((NoDangling s ∧ ∀ e ∈ tr, NoDangling e.pre) ↔ ∀ e ∈ tr, SafeCall e.call e.pre) := by
  obtain ⟨tr, s, h, hopen, -⟩ := FsRun.exists_opened
  exact ⟨tr, s, h.anyRun, hopen, (noDangling_iff_safeCalls h.anyRun).1⟩

/-- A file is opened twice and deleted; the second handle still names its inode. -/
theorem dangling_second_handle :
    ∃ tr s, FsRun tr s ∧ ¬NoDangling s ∧ (s.handle 1).inodeNumber = 0 ∧
      s.superblock.inodeFreelist 0 ≠ inodeInUse := by
  obtain ⟨tr, s, h, hp⟩ := FsRun.exists_of_check
    [.create nameA, .open nameA, .open nameA, .delete nameA]
    (p := fun _ s => decide ((s.handle 1).inodeNumber = 0 ∧
      s.superblock.inodeFreelist 0 ≠ inodeInUse)) (by decide +kernel)
  obtain ⟨hh, hu⟩ := of_decide_eq_true hp
  refine ⟨tr, s, h, fun hd => ?_, hh, hu⟩
  obtain ⟨i, hi, hused, -⟩ := hd 1 (by rw [hh]; decide)
  have hzero : i = 0 := Fin.ext (Int.natCast_eq_zero.mp (hi.symm.trans hh))
  exact hu (hzero ▸ hused)

end Runs

end SsuOs.Ssufs
