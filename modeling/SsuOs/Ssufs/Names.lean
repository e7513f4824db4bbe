import SsuOs.Ssufs.Simulation

/-! The name space of ssufs is a partial map, as long as every name fits an inode together with
its NUL. -/
namespace SsuOs.Ssufs
open Lib

/-- The name fits an inode together with its NUL. -/
def CStr.Short (f : CStr) : Prop := f.chars.length < maxNameStrlen

instance (f : CStr) : Decidable f.Short := inferInstanceAs (Decidable (_ < _))

def ShortNames (c : Call) (_ : State) : Prop :=
  match c with
  | .create f => f.Short
  | .delete f => f.Short
  | .open f => f.Short
  | _ => True

instance (c : Call) (s : State) : Decidable (ShortNames c s) := by
  unfold ShortNames
  split <;> infer_instance

/-- Runs of calls, valid or not, that pass short names only. -/
abbrev NameRun : List (Event State Call Ret) → State → Prop := Run exec ShortNames Formatted

def Inode.cname (x : Inode) : List UInt8 := x.nameMem.takeWhile (· ≠ 0)

/-- What the most recent `ssufs_create` of `f` to succeed has returned, or -1 when there is none
or `f` has been deleted since. The latest event comes first. -/
def lastCreated (f : List UInt8) : List (Event State Call Ret) → ℤ
  | [] => -1
  | ⟨_, .create g, .int r⟩ :: tr => if g.chars = f ∧ 0 ≤ r then r else lastCreated f tr
  | ⟨_, .delete g, _⟩ :: tr => if g.chars = f then -1 else lastCreated f tr
  | _ :: tr => lastCreated f tr

theorem takeWhile_of_prefix {l m : List UInt8} (hl : ∀ c ∈ l, c ≠ 0) (h : l ++ [0] <+: m) :
    m.takeWhile (· ≠ 0) = l := by
  obtain ⟨t, rfl⟩ := h
  rw [List.append_assoc, List.takeWhile_append_of_pos (by simpa using hl)]
  simp

section Named

variable {x y : File} {f g : CStr}

theorem File.Named.cname (h : x.Named f) : x.toInode.cname = f.chars :=
  takeWhile_of_prefix f.noNul h.2

theorem File.Named.chars_eq (h : x.Named f) (h' : x.Named g) : f.chars = g.chars :=
  h.cname.symm.trans h'.cname

theorem File.named_congr_chars (h : f.chars = g.chars) : x.Named f ↔ x.Named g := by
  unfold File.Named
  rw [h]

theorem CStr.Short.named_iff (hf : f.Short) : x.Named f ↔ f.chars ++ [0] <+: List.ofFn x.name := by
  have hlen : (f.chars ++ [0]).length ≤ (List.ofFn x.name).length := by
    rw [List.length_append, List.length_ofFn]
    exact hf
  unfold File.Named
  rw [nameMem_eq]
  constructor
  · intro h
    exact List.prefix_of_prefix_length_le h.2 (List.prefix_append _ _) hlen
  · intro h
    exact ⟨le_of_lt hf, h.trans (List.prefix_append _ _)⟩

theorem CStr.Short.named_congr (hf : f.Short) (h : x.name = y.name) : x.Named f ↔ y.Named f := by
  rw [hf.named_iff, hf.named_iff, h]

theorem CStr.Short.named_create (hf : f.Short) {busy : Bool} {size : ℕ}
    {blocks : List (Fin numDataBlocks)} :
    (⟨busy, fun j => f.byte j, size, blocks⟩ : File).Named f := by
  have hlen : f.chars.length < maxNameStrlen := hf
  rw [hf.named_iff, List.prefix_iff_eq_take]
  apply List.ext_getElem
  · simp only [List.length_append, List.length_take, List.length_ofFn, List.length_singleton]
    omega
  · intro k hk _
    rw [List.length_append, List.length_singleton] at hk
    rw [List.getElem_take, List.getElem_ofFn]
    unfold CStr.byte
    dsimp only
    by_cases hlt : k < f.chars.length
    · rw [if_pos hlt, List.getElem_append_left hlt, List.getD_eq_getElem _ _ hlt]
    · have hk' : k = f.chars.length := by omega
      rw [if_neg hlt, if_pos hk', List.getElem_append_right (by omega)]
      simp

end Named

theorem Volume.not_named_of_namei {v : Volume} {f : CStr} (h : v.namei f = none)
    (i : Fin numInodes) : ¬(v.used i = true ∧ (v.file i).Named f) := by
  have := List.find?_eq_none.mp h i (List.mem_finRange i)
  simpa using this

/-- The names of the volume are the map that the history says. -/
structure Names (tr : List (Event State Call Ret)) (v : Volume) : Prop where
  titled : ∀ i, v.used i = true → ∃ f : CStr, f.Short ∧ (v.file i).Named f
  lookup : ∀ f : CStr, f.Short → ∀ i, v.used i = true ∧ (v.file i).Named f ↔
    lastCreated f.chars tr = (i : ℕ)
  range : ∀ l, lastCreated l tr = -1 ∨ ∃ i : Fin numInodes, lastCreated l tr = (i : ℕ)

section Names

variable {tr : List (Event State Call Ret)} {s : State} {v v' : Volume}

theorem Names.inodeNumber_namei (hn : Names tr v) {f : CStr} (hf : f.Short) :
    inodeNumber (v.namei f) = lastCreated f.chars tr := by
  cases h : v.namei f with
  | some i => exact ((hn.lookup f hf i).mp (Volume.of_namei h)).symm
  | none =>
    rcases hn.range f.chars with hl | ⟨i, hl⟩
    · exact hl.symm
    · exact absurd ((hn.lookup f hf i).mpr hl) (Volume.not_named_of_namei h i)

theorem Names.unique (hn : Names tr v) {i j : Fin numInodes} (hi : v.used i = true)
    (hj : v.used j = true) (h : (v.file i).toInode.cname = (v.file j).toInode.cname) : i = j := by
  obtain ⟨f, hf, hif⟩ := hn.titled i hi
  obtain ⟨g, -, hjg⟩ := hn.titled j hj
  have hfg : f.chars = g.chars := by rw [← hif.cname, h, hjg.cname]
  have hjf : (v.file j).Named f := (File.named_congr_chars hfg).mpr hjg
  have hi' := (hn.lookup f hf i).mp ⟨hi, hif⟩
  have hj' := (hn.lookup f hf j).mp ⟨hj, hjf⟩
  exact Fin.ext (by omega)

theorem Names.of_same (hn : Names tr v) {e : Event State Call Ret} (hu : v'.used = v.used)
    (hname : ∀ i, (v'.file i).name = (v.file i).name)
    (hl : ∀ l, lastCreated l (e :: tr) = lastCreated l tr) : Names (e :: tr) v' := by
  constructor
  · intro i hi
    rw [hu] at hi
    obtain ⟨f, hf, hif⟩ := hn.titled i hi
    exact ⟨f, hf, (hf.named_congr (hname i)).mpr hif⟩
  · intro f hf i
    rw [hu, hl, hf.named_congr (hname i)]
    exact hn.lookup f hf i
  · intro l
    rw [hl]
    exact hn.range l

theorem Names.created (hn : Names tr v) {f : CStr} (hf : f.Short) {i : Fin numInodes}
    (hnone : v.namei f = none) (hu : v.freeInode = some i) :
    Names (⟨s, .create f, .int (i : ℕ)⟩ :: tr) (v.addFile i f) := by
  have hfree := Volume.used_of_freeInode hu
  have hself : (v.addFile i f).used i = true ∧ ((v.addFile i f).file i).Named f := by
    refine ⟨Volume.addFile_used_self, ?_⟩
    simp only [Volume.addFile, Function.update_self]
    exact hf.named_create
  have hother : ∀ j, j ≠ i → (v.addFile i f).used j = v.used j ∧
      (v.addFile i f).file j = v.file j :=
    fun j hj => ⟨Volume.addFile_used_of_ne hj, Volume.addFile_file_of_ne hj⟩
  have hlast : ∀ l, lastCreated l (⟨s, .create f, .int (i : ℕ)⟩ :: tr) =
      if f.chars = l then ((i : ℕ) : ℤ) else lastCreated l tr := by
    intro l
    simp [lastCreated]
  constructor
  · intro j hj
    by_cases hji : j = i
    · subst hji
      exact ⟨f, hf, hself.2⟩
    · rw [(hother j hji).1] at hj
      rw [(hother j hji).2]
      exact hn.titled j hj
  · intro g hg j
    rw [hlast]
    by_cases hfg : f.chars = g.chars
    · rw [if_pos hfg, ← File.named_congr_chars hfg]
      by_cases hji : j = i
      · subst hji
        exact iff_of_true hself rfl
      · rw [(hother j hji).1, (hother j hji).2]
        refine iff_of_false (Volume.not_named_of_namei hnone j) fun h => hji ?_
        exact Fin.ext (by omega)
    · rw [if_neg hfg]
      by_cases hji : j = i
      · subst hji
        refine iff_of_false (fun h => hfg (hself.2.chars_eq h.2)) fun h => ?_
        have := ((hn.lookup g hg j).mpr h).1
        simp [hfree] at this
      · rw [(hother j hji).1, (hother j hji).2]
        exact hn.lookup g hg j
  · intro l
    rw [hlast]
    split_ifs
    · exact Or.inr ⟨i, rfl⟩
    · exact hn.range l

theorem lastCreated_delete (f : CStr) (r : Ret) (l : List UInt8) :
    lastCreated l (⟨s, .delete f, r⟩ :: tr) = if f.chars = l then -1 else lastCreated l tr := by
  cases r <;> rfl

theorem Names.deleteMiss (hn : Names tr v) {f : CStr} (hnone : v.namei f = none) :
    Names (⟨s, .delete f, .none⟩ :: tr) v := by
  constructor
  · exact hn.titled
  · intro g hg j
    rw [lastCreated_delete]
    split_ifs with hfg
    · rw [← File.named_congr_chars hfg]
      exact iff_of_false (Volume.not_named_of_namei hnone j) not_false
    · exact hn.lookup g hg j
  · intro l
    rw [lastCreated_delete]
    split_ifs
    · exact Or.inl rfl
    · exact hn.range l

theorem Names.deleted (hn : Names tr v) {f : CStr} (hf : f.Short) {i : Fin numInodes}
    (hsome : v.namei f = some i) :
    Names (⟨s, .delete f, .none⟩ :: tr) ((v.closeFirst i).release i) := by
  obtain ⟨hu, hif⟩ := Volume.of_namei hsome
  have hother : ∀ j, j ≠ i → ((v.closeFirst i).release i).used j = v.used j ∧
      ((v.closeFirst i).release i).file j = v.file j := by
    intro j hj
    rw [Volume.release_used_of_ne hj, Volume.release_file_of_ne hj, Volume.closeFirst_used,
      Volume.closeFirst_file]
    exact ⟨rfl, rfl⟩
  constructor
  · intro j hj
    have hji : j ≠ i := by
      rintro rfl
      simp at hj
    rw [(hother j hji).1] at hj
    rw [(hother j hji).2]
    exact hn.titled j hj
  · intro g hg j
    rw [lastCreated_delete]
    by_cases hji : j = i
    · subst hji
      refine iff_of_false (fun h => by simp at h) ?_
      split_ifs with hfg
      · exact not_false
      · intro h
        exact hfg (hif.chars_eq ((hn.lookup g hg j).mpr h).2)
    · rw [(hother j hji).1, (hother j hji).2]
      split_ifs with hfg
      · refine iff_of_false (fun h => hji ?_) not_false
        have hj := (hn.lookup g hg j).mp h
        have hi := (hn.lookup f hf i).mp ⟨hu, hif⟩
        rw [hfg] at hi
        exact Fin.ext (by omega)
      · exact hn.lookup g hg j
  · intro l
    rw [lastCreated_delete]
    split_ifs
    · exact Or.inl rfl
    · exact hn.range l

theorem Effect.names {c : Call} {r : Ret} (he : Effect v c r v') (hc : ShortNames c s)
    (hn : Names tr v) : Names (⟨s, c, r⟩ :: tr) v' := by
  cases he with
  | createExists hf => exact hn.of_same rfl (fun _ => rfl) fun l => by simp [lastCreated]
  | createFull hf hu => exact hn.of_same rfl (fun _ => rfl) fun l => by simp [lastCreated]
  | created hf hu => exact hn.created hc hf hu
  | deleteMiss hf => exact hn.deleteMiss hf
  | deleted hf => exact hn.deleted hc hf
  | writeFull hh ht hk => exact hn.of_same (by simp) (fun i => by simp) fun _ => rfl
  | wrote hh => exact hn.of_same Volume.wrote_used Volume.wrote_name fun _ => rfl
  | _ => exact hn.of_same rfl (fun _ => rfl) fun _ => rfl

theorem names_formatted (label name : Fin maxNameStrlen → UInt8) :
    Names [] (.formatted label name) := by
  constructor
  · intro i hi
    simp [Volume.formatted] at hi
  · intro f _ i
    refine iff_of_false (fun h => by simp [Volume.formatted] at h) ?_
    unfold lastCreated
    omega
  · intro l
    exact Or.inl rfl

theorem NameRun.names (h : NameRun tr s) : ∃ v, Represents s v ∧ Inv v ∧ Names tr v := by
  apply Run.invariant_history (fun tr s => ∃ v, Represents s v ∧ Inv v ∧ Names tr v) _ _ h
  · intro s hs
    obtain ⟨label, name, hr⟩ := hs.represents
    exact ⟨_, hr, inv_formatted label name, names_formatted label name⟩
  · rintro tr s c r s' ⟨v, hr, hi, hn⟩ hc he
    obtain ⟨v', heff, hr', hi'⟩ := exec_effect hr hi he
    exact ⟨v', hr', hi', heff.names hc hn⟩

/-- The names of the inodes in use differ, `open_namei` finds what the history says, and
`ssufs_create` fails exactly for a name that is there and when no inode is free. -/
theorem names_partial_map (h : NameRun tr s) :
    (∀ i j, s.superblock.inodeFreelist i = inodeInUse → s.superblock.inodeFreelist j = inodeInUse →
      (s.inode i).cname = (s.inode j).cname → i = j) ∧
    ∀ f : CStr, f.Short →
      openNamei f s = .ok (lastCreated f.chars tr) ∧
      ((∃ s', ssufsCreate f s = .ok (-1, s')) ↔
        lastCreated f.chars tr ≠ -1 ∨ ∀ i, s.superblock.inodeFreelist i = inodeInUse) ∧
      ∀ s', ssufsCreate f s = .ok (-1, s') → s' = s := by
  obtain ⟨v, hr, hi, hn⟩ := h.names
  constructor
  · intro i j hui huj hc
    rw [hr.inode, hr.inode] at hc
    exact hn.unique ((hr.inodeInUse_iff i).mp hui) ((hr.inodeInUse_iff j).mp huj) hc
  · intro f hf
    have hlast := hn.inodeNumber_namei hf
    have hsame : ∀ s', (.ok (-1, s) : Except Fault (ℤ × State)) = .ok (-1, s') → s = s' :=
      fun s' h => (ok_pair_inj h).2
    refine ⟨by rw [openNamei_eq hr hi.extent_ge, hlast], ?_⟩
    simp only [hr.inodeInUse_iff, ← hlast]
    rcases ssufsCreate_cases hr hi f with
      ⟨i, hsome, he⟩ | ⟨hnone, hu, he⟩ | ⟨i, s', hnone, hu, he, -⟩
    · rw [he, hsome]
      exact ⟨iff_of_true ⟨s, rfl⟩ (Or.inl (inodeNumber_ne_neg_one i)),
        fun s' h => (hsame s' h).symm⟩
    · have hall : ∀ i, v.used i = true := by
        intro i
        simpa using List.find?_eq_none.mp hu i (List.mem_finRange i)
      rw [he]
      exact ⟨iff_of_true ⟨s, rfl⟩ (Or.inr hall), fun s' h => (hsame s' h).symm⟩
    · have hfail : ∀ s₁, (.ok (((i : ℕ) : ℤ), s') : Except Fault (ℤ × State)) ≠ .ok (-1, s₁) := by
        intro s₁ h
        have := (ok_pair_inj h).1
        omega
      rw [he, hnone]
      refine ⟨iff_of_false (fun ⟨s₁, h⟩ => hfail s₁ h) ?_, fun s₁ h => absurd h (hfail s₁)⟩
      rintro (h | h)
      · exact h rfl
      · have := Volume.used_of_freeInode hu
        simp [h i] at this

def nameB : CStr := ⟨[98], by simp, fun _ => 0⟩

theorem names_partial_map_recreated :
    ∃ tr s, NameRun tr s ∧
      openNamei nameB s = .ok (lastCreated [98] tr) ∧
      lastCreated [98] tr = 0 := by
  have hcheck : replayCheck exec ShortNames
      [.create nameA, .delete nameA, .create nameB] formattedDisk
      (fun tr _ => decide (lastCreated [98] tr = 0)) = true := by decide +kernel
  obtain ⟨tr, s, h, hp⟩ := Run.exists_of_replayCheck _ formatted_formattedDisk hcheck
  exact ⟨tr, s, h, ((names_partial_map h).2 nameB (by decide)).1,
    of_decide_eq_true hp⟩

end Names

end SsuOs.Ssufs
