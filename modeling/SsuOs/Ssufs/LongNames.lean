import SsuOs.Ssufs.FailedWrite
import SsuOs.Ssufs.Names

/-! Names that fill the name field of an inode, and names that are longer. -/
namespace SsuOs.Ssufs
open Lib

section Lookup

variable {v v' : Volume} {f : CStr} {i : Fin numInodes}

/-- Behind a name of eight bytes `strcmp` expects its NUL in the first byte of `file_size`. -/
theorem File.named_iff_of_length_eq {x : File} (hf : f.chars.length = maxNameStrlen) :
    x.Named f ↔ List.ofFn x.name = f.chars ∧ x.size % 256 = 0 := by
  have hbyte : UInt8.ofNat ((x.size : ℤ) % 2 ^ 32).toNat = 0 ↔ x.size % 256 = 0 := by
    rw [← UInt8.toNat_inj, UInt8.toNat_ofNat']
    change _ = 0 ↔ _
    omega
  have hlen : f.chars.length = (List.ofFn x.name).length := by
    rw [hf, List.length_ofFn]
  unfold File.Named
  rw [nameMem_eq, and_iff_right hf.le, ← hbyte]
  change f.chars ++ [0] <+: List.ofFn x.name ++ UInt8.ofNat ((x.size : ℤ) % 2 ^ 32).toNat :: _ ↔ _
  constructor
  · rintro ⟨t, ht⟩
    rw [List.append_assoc] at ht
    obtain ⟨hname, hrest⟩ := List.append_inj ht hlen
    exact ⟨hname.symm, (List.cons.inj hrest).1.symm⟩
  · rintro ⟨hname, hzero⟩
    rw [hname, hzero]
    exact ⟨_, List.append_assoc _ _ _⟩

/-- The inode that `open_namei` looks for. -/
def Volume.Matches (v : Volume) (f : CStr) (i : Fin numInodes) : Prop :=
  v.used i = true ∧ (v.file i).Named f

theorem Volume.namei_eq_some_iff :
    v.namei f = some i ↔ v.Matches f i ∧ ∀ j < i, ¬v.Matches f j := by
  unfold Volume.namei
  rw [← List.ofFn_id]
  refine (List.find?_ofFn_eq_some_of_injective Function.injective_id).trans ?_
  simp only [id, decide_eq_true_eq]
  rfl

theorem Volume.namei_congr (h : ∀ j, v'.Matches f j ↔ v.Matches f j) : v'.namei f = v.namei f := by
  apply Option.ext
  intro i
  rw [Volume.namei_eq_some_iff, Volume.namei_eq_some_iff, h]
  simp only [h]

/-- When a single inode has changed, the lookup is another one if that inode matches now or did
before, and no earlier one does. -/
theorem Volume.namei_eq_iff (h : ∀ j ≠ i, (v'.Matches f j ↔ v.Matches f j)) :
    v'.namei f = v.namei f ↔
      ((v'.Matches f i ↔ v.Matches f i) ∨ ∃ j < i, v.Matches f j) := by
  constructor
  · intro heq
    by_contra hno
    rw [not_or, not_exists] at hno
    obtain ⟨hflip, hbelow⟩ := hno
    have hnone : ∀ j < i, ¬v.Matches f j := fun j hj hm => hbelow j ⟨hj, hm⟩
    have hnone' : ∀ j < i, ¬v'.Matches f j := fun j hj hm =>
      hnone j hj ((h j hj.ne).mp hm)
    by_cases hm : v.Matches f i
    · have hsome := heq.trans (Volume.namei_eq_some_iff.mpr ⟨hm, hnone⟩)
      exact hflip (iff_of_true (Volume.namei_eq_some_iff.mp hsome).1 hm)
    · by_cases hm' : v'.Matches f i
      · have hsome := heq.symm.trans (Volume.namei_eq_some_iff.mpr ⟨hm', hnone'⟩)
        exact hm (Volume.namei_eq_some_iff.mp hsome).1
      · exact hflip (iff_of_false hm' hm)
  · rintro (hi | ⟨j, hj, hm⟩)
    · apply Volume.namei_congr
      intro j
      by_cases hj : j = i
      · rwa [hj]
      · exact h j hj
    · -- both lookups stop before `i`
      cases hk : v.namei f with
      | none => exact absurd hm (Volume.not_named_of_namei hk j)
      | some k =>
        obtain ⟨hmk, hbelow⟩ := Volume.namei_eq_some_iff.mp hk
        have hki : k < i := lt_of_le_of_lt (not_lt.mp fun hjk => hbelow j hjk hm) hj
        refine Volume.namei_eq_some_iff.mpr ⟨(h k hki.ne).mpr hmk, fun l hl hml => ?_⟩
        exact hbelow l hl ((h l (hl.trans hki).ne).mp hml)

end Lookup

section Size

/-- The calls that neither make nor remove a file. -/
def Call.KeepsFiles : Call → Prop
  | .write _ _ _ => True
  | .read _ _ => True
  | .lseek _ _ => True
  | .open _ => True
  | .close _ => True
  | _ => False

/-- The write goes to the first inode in use that holds exactly the eight bytes of `f`, none before
it being found by them, and it makes a file of no bytes longer, or one of fewer than 256 bytes 256
bytes long. -/
structure WriteFlips (f : CStr) (h : Fin maxOpenFiles) (n : ℤ) (i : Fin numInodes) (s : State) :
    Prop where
  opened : (s.handle h).inodeNumber = (i : ℕ)
  nonneg : 0 ≤ n
  inside : (s.handle h).offset + n ≤ (blockSize * maxFileSize : ℕ)
  room : min maxFileSize (blocksUpTo ((s.handle h).offset + n)).toNat ≤
    s.superblock.freeCount + (s.inode i).blockCount
  used : s.superblock.inodeFreelist i = inodeInUse
  name : List.ofFn (s.inode i).name = f.chars
  first : ∀ j < i, s.superblock.inodeFreelist j = inodeInUse →
    List.ofFn (s.inode j).name = f.chars → (s.inode j).fileSize % 256 ≠ 0
  longer : (s.inode i).fileSize < (s.handle h).offset + n
  flips : (s.inode i).fileSize = 0 ↔ (s.handle h).offset + n < 256

/-- The call changes what a lookup of `f` finds. -/
def LookupFlips (f : CStr) (s : State) : Call → Prop
  | .write h _ n => ∃ i, WriteFlips f h n i s
  | _ => False

variable {v v' : Volume} {f : CStr} {s s' : State} {c : Call} {r : Ret} {h : Fin maxOpenFiles}
  {i : Fin numInodes} {n : ℤ}

theorem Volume.matches_iff_of_length_eq (hf : f.chars.length = maxNameStrlen) (i : Fin numInodes) :
    v.Matches f i ↔ v.used i = true ∧ List.ofFn (v.file i).name = f.chars ∧
      (v.file i).size % 256 = 0 := by
  unfold Volume.Matches
  rw [File.named_iff_of_length_eq hf]

/-- A lookup only depends on which inodes are in use, on their names, and on the sizes behind names
of eight bytes. -/
theorem Volume.namei_congr_of_file (hf : f.chars.length ≤ maxNameStrlen) (hused : v'.used = v.used)
    (hname : ∀ j, (v'.file j).name = (v.file j).name)
    (hsize : f.chars.length = maxNameStrlen → ∀ j, (v'.file j).size = (v.file j).size) :
    v'.namei f = v.namei f := by
  apply Volume.namei_congr
  intro j
  rcases hf.lt_or_eq with hshort | hfull
  · unfold Volume.Matches
    rw [hused, CStr.Short.named_congr hshort (hname j)]
  · rw [Volume.matches_iff_of_length_eq hfull, Volume.matches_iff_of_length_eq hfull, hused,
      hname j, hsize hfull j]

theorem Represents.writeFlips_iff (hr : Represents s v) (hi : Inv v)
    (hf : f.chars.length = maxNameStrlen) :
    WriteFlips f h n i s ↔ (v.handle h).file = some i ∧ 0 ≤ n ∧
      (v.handle h).offset + n ≤ (blockSize * maxFileSize : ℕ) ∧
      Volume.blocksNeeded (v.file i) ((v.handle h).offset + n) ≤ v.freeBlocks.length ∧
      v.used i = true ∧ List.ofFn (v.file i).name = f.chars ∧ (∀ j < i, ¬v.Matches f j) ∧
      (v.file i).size < (v.handle h).offset + n ∧
      ((v.file i).size = 0 ↔ (v.handle h).offset + n < 256) := by
  have hname : ∀ j, (s.inode j).name = (v.file j).name := by
    intro j
    rw [hr.inode]
    rfl
  have hmod : ∀ n : ℕ, (n : ℤ) % 256 = 0 ↔ n % 256 = 0 := by
    intro n
    omega
  unfold Volume.blocksNeeded
  rw [Nat.sub_le_iff_le_add]
  simp only [Volume.matches_iff_of_length_eq hf, not_and]
  constructor
  · rintro ⟨ho, hn, hin, hroom, hu, hnm, hfirst, hlong, hflip⟩
    simp only [hr.offset, hr.freeCount_eq, hr.blockCount_eq hi, hr.inodeInUse_iff, hname,
      hr.fileSize_eq, hr.inodeNumber_eq_iff, ne_eq, hmod] at *
    exact ⟨ho, hn, hin, hroom, hu, hnm, hfirst, hlong, by omega⟩
  · rintro ⟨ho, hn, hin, hroom, hu, hnm, hfirst, hlong, hflip⟩
    refine ⟨(hr.inodeNumber_eq_iff h i).mpr ho, hn, ?_, ?_, (hr.inodeInUse_iff i).mpr hu, ?_,
      fun j hj hju hjn => ?_, ?_, ?_⟩
    · rwa [hr.offset]
    · rwa [hr.offset, hr.freeCount_eq, hr.blockCount_eq hi]
    · rwa [hname]
    · rw [hname] at hjn
      rw [hr.fileSize_eq, ne_eq, hmod]
      exact hfirst j hj ((hr.inodeInUse_iff j).mp hju) hjn
    · rwa [hr.offset, hr.fileSize_eq]
    · rw [hr.offset, hr.fileSize_eq]
      omega

theorem Volume.namei_wrote_iff (hf : f.chars.length = maxNameStrlen)
    {fresh : List (Fin numDataBlocks)} {b : List UInt8}
    (ht : (v.handle h).offset + b.length ≤ blockSize * maxFileSize) :
    (v.wrote h i fresh b).namei f = v.namei f ↔ ¬(v.used i = true ∧
      List.ofFn (v.file i).name = f.chars ∧ (∀ j < i, ¬v.Matches f j) ∧
      (v.file i).size < (v.handle h).offset + b.length ∧
      ((v.file i).size = 0 ↔ (v.handle h).offset + b.length < 256)) := by
  have hsame : ∀ j ≠ i, ((v.wrote h i fresh b).Matches f j ↔ v.Matches f j) := by
    intro j hj
    unfold Volume.Matches
    rw [Volume.wrote_used, Volume.wrote_file_of_ne hj]
  have hsize : ((v.wrote h i fresh b).file i).size =
      max (v.file i).size ((v.handle h).offset + b.length) := by
    rw [Volume.wrote_file_self]
    rfl
  unfold blockSize maxFileSize at ht
  rw [Volume.namei_eq_iff hsame, Volume.matches_iff_of_length_eq hf,
    Volume.matches_iff_of_length_eq hf, Volume.wrote_used, Volume.wrote_name, hsize]
  constructor
  · rintro (hiff | ⟨j, hj, hm⟩) ⟨hu, hn, hfirst, hlt, hflip⟩
    · simp only [hu, hn, true_and, max_eq_right hlt.le] at hiff
      omega
    · exact hfirst j hj hm
  · intro hno
    by_contra hboth
    rw [not_or, not_exists] at hboth
    obtain ⟨hflip, hbelow⟩ := hboth
    have hfirst : ∀ j < i, ¬v.Matches f j := fun j hj hm => hbelow j ⟨hj, hm⟩
    by_cases hun : v.used i = true ∧ List.ofFn (v.file i).name = f.chars
    · refine hno ⟨hun.1, hun.2, hfirst, ?_⟩
      simp only [hun.1, hun.2, true_and] at hflip
      omega
    · tauto

/-- A call that returns leaves a lookup of eight bytes as it is unless it is such a write. -/
theorem Effect.namei_eq_iff (he : Effect v c r v') (hr : Represents s v) (hi : Inv v)
    (hc : c.KeepsFiles) (hf : f.chars.length = maxNameStrlen) :
    v'.namei f = v.namei f ↔ ¬LookupFlips f s c := by
  cases he with
  | @wrote h buf n i hh hn hb ht hk =>
    have hlen : (buf.take n.toNat).length = n.toNat := by
      rw [List.length_take]
      omega
    have htop : (((v.handle h).offset + n.toNat : ℕ) : ℤ) = (v.handle h).offset + n := by
      push_cast
      omega
    rw [Volume.namei_wrote_iff hf (by rw [hlen]; omega), not_iff_not, hlen]
    constructor
    · rintro ⟨hu, hnm, hfirst, hlt, hflip⟩
      exact ⟨i, (hr.writeFlips_iff hi hf).mpr
        ⟨hh, hn, ht, hk, hu, hnm, hfirst, by omega, by omega⟩⟩
    · rintro ⟨i', hw⟩
      obtain ⟨hh', -, -, -, hu, hnm, hfirst, hlt, hflip⟩ := (hr.writeFlips_iff hi hf).mp hw
      obtain rfl : i = i' := Option.some.inj (hh.symm.trans hh')
      exact ⟨hu, hnm, hfirst, by omega, by omega⟩
  | writeClosed hh =>
    refine iff_of_true rfl ?_
    rintro ⟨i, hw⟩
    simp [((hr.writeFlips_iff hi hf).mp hw).1] at hh
  | writeTooLong hh ht =>
    refine iff_of_true rfl ?_
    rintro ⟨i, hw⟩
    obtain ⟨-, hn, hin, -⟩ := (hr.writeFlips_iff hi hf).mp hw
    rw [wrap32_top hn hin] at ht
    omega
  | writeFull hh ht hk =>
    refine iff_of_true (Volume.namei_congr_of_file hf.le (Volume.claim_used _ _) (by simp)
      (by simp)) ?_
    rintro ⟨i, hw⟩
    obtain ⟨hh', hn, hin, hroom, -⟩ := (hr.writeFlips_iff hi hf).mp hw
    obtain rfl := Option.some.inj (hh.symm.trans hh')
    rw [wrap32_top hn hin] at hk
    omega
  | created hf hu => exact hc.elim
  | deleted hf => exact hc.elim
  | _ => exact iff_of_true rfl not_false

theorem Effect.keepsNames (he : Effect v c r v') (hc : c.KeepsFiles) :
    v'.used = v.used ∧ ∀ j, (v'.file j).name = (v.file j).name := by
  cases he with
  | wrote hh hn hb ht hk => exact ⟨Volume.wrote_used, Volume.wrote_name⟩
  | writeFull hh ht hk => exact ⟨Volume.claim_used _ _, by simp⟩
  | created hf hu => exact hc.elim
  | deleted hf => exact hc.elim
  | _ => exact ⟨rfl, fun _ => rfl⟩

/-- Calls that neither make nor remove a file leave a lookup as it is, unless they write to the file
it depends on across one of the sizes 0 and 256. -/
theorem openNamei_eq_iff_not_lookupFlips {tr : List (Event State Call Ret)} (h : AnyRun tr s)
    (hf : f.chars.length ≤ maxNameStrlen) (hc : c.KeepsFiles) (he : exec c s = .ok (r, s')) :
    openNamei f s' = openNamei f s ↔ ¬LookupFlips f s c := by
  obtain ⟨v, hr, hi⟩ := h.sound
  obtain ⟨v', heff, hr', hi'⟩ := exec_effect hr hi he
  have hlook : openNamei f s' = openNamei f s ↔ v'.namei f = v.namei f := by
    rw [openNamei_eq hr hi.extent_ge, openNamei_eq hr' hi'.extent_ge]
    exact ⟨fun heq => inodeNumber_inj (Except.ok.inj heq), fun heq => by rw [heq]⟩
  rw [hlook]
  rcases hf.lt_or_eq with hshort | hfull
  · obtain ⟨hused, hname⟩ := heff.keepsNames hc
    refine iff_of_true (Volume.namei_congr_of_file hf hused hname fun h => absurd h hshort.ne) ?_
    intro hflips
    cases c with
    | write h buf n =>
      obtain ⟨i, hw⟩ := hflips
      have hlen := congrArg List.length hw.name
      rw [List.length_ofFn] at hlen
      omega
    | _ => exact hflips
  · exact heff.namei_eq_iff hr hi hc hfull

/-- The first of two writes hides the file it goes to, the second one does not change that. -/
theorem openNamei_eq_iff_writes : ∃ tr s r s' r' s'', AnyRun tr s ∧
    exec (.write 0 [65] 1) s = .ok (r, s') ∧ exec (.write 0 [66, 67] 2) s' = .ok (r', s'') ∧
    openNamei (nameAs 8) s' ≠ openNamei (nameAs 8) s ∧
    openNamei (nameAs 8) s'' = openNamei (nameAs 8) s' := by
  obtain ⟨tr, s, h, hp⟩ := FsRun.exists_of_check [.create (nameAs 8), .open (nameAs 8)]
    (p := fun _ s => decide (((s.handle 0).inodeNumber = 0 ∧ (s.handle 0).offset = 0 ∧
      s.superblock.freeCount = 30 ∧ s.superblock.inodeFreelist 0 = inodeInUse ∧
      List.ofFn (s.inode 0).name = (nameAs 8).chars ∧ (s.inode 0).fileSize = 0) ∧
      (exec (.write 0 [65] 1) s).map (fun q => ((q.2.handle 0).inodeNumber, (q.2.handle 0).offset,
        (q.2.inode 0).fileSize, (exec (.write 0 [66, 67] 2) q.2).map Prod.fst)) =
          .ok (0, 1, 1, .ok (.int 0)))) (by decide +kernel)
  obtain ⟨⟨hopen, hoff, hfree, hused, hname, hsize⟩, hwrites⟩ := of_decide_eq_true hp
  obtain ⟨⟨r, s'⟩, he, hq⟩ := map_eq_ok.mp hwrites
  simp only [Prod.mk.injEq] at hq
  obtain ⟨hopen', hoff', hsize', hsecond⟩ := hq
  obtain ⟨⟨r', s''⟩, he', -⟩ := map_eq_ok.mp hsecond
  have hflips : LookupFlips (nameAs 8) s (.write 0 [65] 1) := by
    refine ⟨0, hopen, by decide, by rw [hoff]; decide, ?_, hused, hname, by simp,
      by rw [hoff, hsize]; decide, by rw [hoff, hsize]; decide⟩
    rw [hfree]
    exact (min_le_left _ _).trans (by unfold maxFileSize; omega)
  have hstays : ¬LookupFlips (nameAs 8) s' (.write 0 [66, 67] 2) := by
    rintro ⟨i, hw⟩
    have hi : (0 : ℤ) = (i : ℕ) := hopen'.symm.trans hw.opened
    obtain rfl : i = 0 := Fin.ext (by change (i : ℕ) = 0; omega)
    have hflip := hw.flips
    rw [hoff', hsize'] at hflip
    omega
  have hfirst := openNamei_eq_iff_not_lookupFlips (f := nameAs 8) (c := .write 0 [65] 1) h.anyRun
    (by decide) trivial he
  have hsecond := openNamei_eq_iff_not_lookupFlips (f := nameAs 8) (c := .write 0 [66, 67] 2)
    (h.anyRun.step trivial he) (by decide) trivial he'
  exact ⟨tr, s, r, s', r', s'', h.anyRun, he, he', fun heq => hfirst.mp heq hflips,
    hsecond.mpr hstays⟩

/-- A write of one byte hides the file it goes to. -/
theorem write_hides_name :
    ∃ tr s s', FsRun tr s ∧ exec (.write 0 [65] 1) s = .ok (.int 0, s') ∧
      openNamei (nameAs 8) s = .ok 0 ∧ openNamei (nameAs 8) s' = .ok (-1) := by
  obtain ⟨tr, s, h, hp⟩ := FsRun.exists_of_check [.create (nameAs 8), .open (nameAs 8)]
    (p := fun _ s => decide (openNamei (nameAs 8) s = .ok 0 ∧
      (exec (.write 0 [65] 1) s).map (fun q => (q.1, openNamei (nameAs 8) q.2)) =
        .ok (.int 0, .ok (-1)))) (by decide +kernel)
  obtain ⟨hlook, hwrite⟩ := of_decide_eq_true hp
  obtain ⟨⟨r, s'⟩, he, hq⟩ := map_eq_ok.mp hwrite
  obtain ⟨rfl, hlook'⟩ := Prod.mk.inj hq
  exact ⟨tr, s, s', h, he, hlook, hlook'⟩

end Size

section Create

/-- What `ssufs_create` makes is found by its name and not made again, and it makes nothing of a
name that is not looked up. -/
def CreatesFindable (f : CStr) (s : State) : Prop :=
  (∀ (i : ℤ) (s' : State), ssufsCreate f s = .ok (i, s') → 0 ≤ i →
    openNamei f s' = .ok i ∧ ∃ s'', ssufsCreate f s' = .ok (-1, s'')) ∧
  (maxNameStrlen < f.chars.length → ∃ s', ssufsCreate f s = .ok (-1, s') ∧
    s'.superblock.inodeFreelist = s.superblock.inodeFreelist)

variable {s : State} {v : Volume} {f : CStr} {i : Fin numInodes}

theorem named_create (hf : f.chars.length ≤ maxNameStrlen) :
    (⟨true, fun j => f.byte j, 0, []⟩ : File).Named f := by
  rcases hf.lt_or_eq with hshort | hfull
  · exact CStr.Short.named_create hshort
  · refine (File.named_iff_of_length_eq hfull).mpr ⟨?_, rfl⟩
    apply List.ext_getElem
    · rw [List.length_ofFn, hfull]
    · intro k _ hk
      rw [List.getElem_ofFn]
      unfold CStr.byte
      dsimp only
      rw [if_pos hk, List.getD_eq_getElem _ _ hk]

theorem Volume.namei_addFile (hf : f.chars.length ≤ maxNameStrlen) (hnone : v.namei f = none) :
    (v.addFile i f).namei f = some i := by
  refine Volume.namei_eq_some_iff.mpr ⟨⟨Volume.addFile_used_self, ?_⟩, fun j hj hm => ?_⟩
  · rw [Volume.addFile_file_self]
    exact named_create hf
  · unfold Volume.Matches at hm
    rw [Volume.addFile_used_of_ne hj.ne, Volume.addFile_file_of_ne hj.ne] at hm
    exact Volume.not_named_of_namei hnone j hm

theorem Volume.namei_eq_none_of_long (hf : maxNameStrlen < f.chars.length) : v.namei f = none := by
  cases h : v.namei f with
  | none => rfl
  | some i => exact absurd (Volume.of_namei h).2.1 (not_le.mpr hf)

theorem Represents.freeInode_eq_none_iff (hr : Represents s v) :
    v.freeInode = none ↔ ∀ i, s.superblock.inodeFreelist i = inodeInUse := by
  simp only [hr.inodeInUse_iff]
  simp [Volume.freeInode]

section Calls

variable (hr : Represents s v) (hi : Inv v)
include hr hi

theorem createsFindable_of_fits (hf : f.chars.length ≤ maxNameStrlen) : CreatesFindable f s := by
  refine ⟨fun r s' hs hpos => ?_, fun hlong => absurd hf (not_le.mpr hlong)⟩
  rcases ssufsCreate_cases hr hi f with ⟨i, -, hs₁⟩ | ⟨-, -, hs₁⟩ | ⟨i, s₁, hnone, -, hs₁, hr₁⟩
  · obtain ⟨rfl, -⟩ := ok_unique_pair hs₁ hs
    omega
  · obtain ⟨rfl, -⟩ := ok_unique_pair hs₁ hs
    omega
  · obtain ⟨rfl, rfl⟩ := ok_unique_pair hs₁ hs
    have hfound := Volume.namei_addFile (i := i) hf hnone
    have hi₁ := hi.addFile i f
    refine ⟨by rw [openNamei_eq hr₁ hi₁.extent_ge, hfound]; rfl, s₁, ?_⟩
    -- the second call finds the file, so the other two cases are impossible
    rcases ssufsCreate_cases hr₁ hi₁ f with ⟨-, -, hs₂⟩ | ⟨hf₂, -⟩ | ⟨-, -, hf₂, -⟩
    · exact hs₂
    · rw [hfound] at hf₂
      simp at hf₂
    · rw [hfound] at hf₂
      simp at hf₂

theorem createsFindable_of_full (hfull : v.freeInode = none) : CreatesFindable f s := by
  have hs : ssufsCreate f s = .ok (-1, s) := by
    rcases ssufsCreate_cases hr hi f with ⟨i, -, hs⟩ | ⟨-, -, hs⟩ | ⟨i, s₁, -, hu, -⟩
    · exact hs
    · exact hs
    · rw [hfull] at hu
      simp at hu
  refine ⟨fun r s' hs' hpos => ?_, fun _ => ⟨s, hs, rfl⟩⟩
  obtain ⟨rfl, -⟩ := ok_unique_pair hs hs'
  omega

theorem not_createsFindable (hlong : maxNameStrlen < f.chars.length)
    (hfree : v.freeInode ≠ none) : ¬CreatesFindable f s := by
  intro hc
  obtain ⟨s₁, hs₁, -⟩ := hc.2 hlong
  rcases ssufsCreate_cases hr hi f with ⟨i, hf, -⟩ | ⟨-, hu, -⟩ | ⟨i, s', -, -, hs, -⟩
  · rw [Volume.namei_eq_none_of_long hlong] at hf
    simp at hf
  · exact hfree hu
  · have hret := (ok_unique_pair hs₁ hs).1
    omega

end Calls

/-- Exactly the names longer than the name field break this, as long as an inode is free. -/
theorem createsFindable_iff {tr : List (Event State Call Ret)} (h : AnyRun tr s) (f : CStr) :
    CreatesFindable f s ↔
      f.chars.length ≤ maxNameStrlen ∨ ∀ i, s.superblock.inodeFreelist i = inodeInUse := by
  obtain ⟨v, hr, hi⟩ := h.sound
  rw [← hr.freeInode_eq_none_iff]
  constructor
  · intro hc
    by_contra hno
    rw [not_or, not_le] at hno
    exact not_createsFindable hr hi hno.1 hno.2 hc
  · rintro (hf | hfull)
    · exact createsFindable_of_fits hr hi hf
    · exact createsFindable_of_full hr hi hfull

theorem createsFindable_iff_opened :
    ∃ tr s, AnyRun tr s ∧ (s.handle 0).inodeNumber = 0 ∧
      (CreatesFindable (nameAs 8) s ↔ (nameAs 8).chars.length ≤ maxNameStrlen ∨
        ∀ i, s.superblock.inodeFreelist i = inodeInUse) := by
  obtain ⟨tr, s, h, hopen, -⟩ := FsRun.exists_opened
  exact ⟨tr, s, h.anyRun, hopen, createsFindable_iff h.anyRun (nameAs 8)⟩

/-- A name of nine bytes takes up an inode each time it is created, and is never found. -/
theorem long_name_created_twice :
    ∃ tr s, FsRun tr s ∧ tr.map Event.ret = [.int 1, .int 0] ∧
      openNamei (nameAs 9) s = .ok (-1) ∧ ¬CreatesFindable (nameAs 9) s := by
  obtain ⟨tr, s, h, hp⟩ := FsRun.exists_of_check [.create (nameAs 9), .create (nameAs 9)]
    (p := fun tr s => decide (tr.map Event.ret = [.int 1, .int 0] ∧
      openNamei (nameAs 9) s = .ok (-1) ∧ (ssufsCreate (nameAs 9) s).map Prod.fst = .ok 2))
    (by decide +kernel)
  obtain ⟨hret, hlook, hcreate⟩ := of_decide_eq_true hp
  obtain ⟨⟨i, s₁⟩, hs, hi⟩ := map_eq_ok.mp hcreate
  refine ⟨tr, s, h, hret, hlook, fun hc => ?_⟩
  obtain ⟨s₂, hs₂, -⟩ := hc.2 (by decide)
  have hneg := (ok_unique_pair hs hs₂).1
  obtain rfl : i = 2 := hi
  omega

end Create

end SsuOs.Ssufs
