import SsuOs.Lib.Chained
import SsuOs.Lib.Places
import SsuOs.Threads.Sem

/-! The queue of `SSU_Sem`: waiters append themselves under the mutex and take themselves off
without it. -/
namespace SsuOs.Sem
open SsuOs.Lib

variable {T : Type}

namespace Heap

def next (h : Heap T) (a : ℕ) : Option ℕ := (h.node a).next

def status (h : Heap T) (a : ℕ) : T := (h.node a).status

variable (h : Heap T) (a : ℕ) (t : T) (x : Option ℕ)

@[simp] theorem next_setStatus : (h.setStatus a t).next = h.next := by
  ext b
  simp only [next, setStatus, Function.update_apply]
  split_ifs with hb
  · rw [hb]
  · rfl

@[simp] theorem status_setStatus : (h.setStatus a t).status = Function.update h.status a t := by
  ext b
  simp only [status, setStatus, Function.update_apply]
  split_ifs <;> rfl

@[simp] theorem next_setNext : (h.setNext a x).next = Function.update h.next a x := by
  ext b
  simp only [next, setNext, Function.update_apply]
  split_ifs <;> rfl

@[simp] theorem status_setNext : (h.setNext a x).status = h.status := by
  ext b
  simp only [status, setNext, Function.update_apply]
  split_ifs with hb
  · rw [hb]
  · rfl

end Heap

/-- Between `pthread_mutex_lock` and `pthread_mutex_unlock`. -/
def Pc.InMutex : Pc → Prop
  | .test | .fastLoad | .fastStore _ | .fastUnlock => True
  | .readHead | .malloc _ | .setStatus _ _ | .setNext _ _ | .storeFirst _ => True
  | .walk _ _ | .walkNext _ _ | .append _ _ | .unlock _ => True
  | _ => False

/-- The local variable `tmp` of a thread that appends its node. -/
def Pc.cursor : Pc → Option ℕ
  | .malloc tmp | .setStatus tmp _ | .setNext tmp _ | .walk tmp _ => tmp
  | .walkNext tmp _ | .append tmp _ => some tmp
  | _ => none

/-- The node of a thread that has appended it and not yet taken it off. -/
def Pc.enqueued : Pc → Option ℕ
  | .unlock a | .spin a | .spinWait a | .spinHead a | .spinStatus a _ | .setWait a => some a
  | .slowLoad a | .slowStore a _ | .saveHead a | .loadHead a _ | .loadNext a _ _ => some a
  | .storeHead a _ _ => some a
  | _ => none

/-- The node that a thread has allocated and not yet freed. -/
def Pc.owned : Pc → Option ℕ
  | .setStatus _ a | .setNext _ a | .storeFirst a => some a
  | .walk _ a | .walkNext _ a | .append _ a => some a
  | .free tmp => tmp
  | pc => pc.enqueued

/-- In the wait loop, and the own node not yet taken off. -/
def Pc.Spinning : Pc → Prop
  | .unlock _ => False
  | pc => pc.enqueued ≠ none

/-- The waiting threads after the step at `pc` of the thread `t`. -/
def Pc.requeue [DecidableEq T] (t : T) (l : List T) : Pc → List T
  | .storeFirst _ | .append _ _ => l ++ [t]
  | .storeHead _ _ _ => l.erase t
  | _ => l

/-- The threads that have appended their node and not yet taken it off, in the order in which they
appended it. -/
def waiting [DecidableEq T] : List (Event (State T) (T × Op) Unit) → List T
  | [] => []
  | e :: tr => (e.pre.pc e.call.1).requeue e.call.1 (waiting tr)

/-- The nodes reachable from `head` are those of the waiting threads, in their order; a spinning
thread has exactly one. -/
def NoneLost [DecidableEq T] (tr : List (Event (State T) (T × Op) Unit)) (s : State T) : Prop :=
  ∃ Q : List ℕ, Chained s.heap.next s.sem.head Q ∧ Q.map s.heap.status = waiting tr ∧
    ∀ t, (s.pc t).Spinning → (Q.map s.heap.status).count t = 1 ∧ s.sem.head ≠ none

/-- The value that a waiter is about to store in `head`. -/
def Pc.newHead : Pc → Option (Option ℕ)
  | .storeHead _ _ next => some next
  | _ => none

/-- When a waiter stores `head`, the node it takes off has still the successor it has read, and no
thread that appends has its `tmp` at that node. -/
def Clear (c : T × Op) (s : State T) : Prop :=
  ∀ next ∈ (s.pc c.1).newHead, ∀ p ∈ s.sem.head,
    s.heap.next p = next ∧ ∀ t, (s.pc t).cursor ≠ some p

instance [Fintype T] (c : T × Op) (s : State T) : Decidable (Clear c s) :=
  inferInstanceAs (Decidable (∀ next ∈ (s.pc c.1).newHead, ∀ p ∈ s.sem.head,
    s.heap.next p = next ∧ ∀ t, (s.pc t).cursor ≠ some p))

/-- A thread that appends has its `tmp` in the queue. -/
def Cursor (Q : List ℕ) : Option ℕ → Prop
  | none => Q = []
  | some p => p ∈ Q

/-- What a thread knows about its own node, the queue and `head` at each place. -/
def Pc.Ok (t : T) (head : Option ℕ) (Q : List ℕ) (h : Heap T) : Pc → Prop
  | .malloc tmp => Cursor Q tmp
  | .setStatus tmp a => Cursor Q tmp ∧ a ∉ Q
  | .setNext tmp a => Cursor Q tmp ∧ a ∉ Q ∧ h.status a = t
  | .storeFirst a => Q = [] ∧ h.status a = t ∧ h.next a = none
  | .walk tmp a => (∃ p ∈ Q, tmp = some p) ∧ a ∉ Q ∧ h.status a = t ∧ h.next a = none
  | .walkNext p a => p ∈ Q ∧ h.next p ≠ none ∧ a ∉ Q ∧ h.status a = t ∧ h.next a = none
  | .append p a => p ∈ Q ∧ h.next p = none ∧ a ∉ Q ∧ h.status a = t ∧ h.next a = none
  | .unlock a | .spin a | .spinWait a | .spinHead a => a ∈ Q ∧ h.status a = t
  | .spinStatus a p =>
    (a ∈ Q ∧ h.status a = t) ∧ ∀ q, p = some q → h.status q = t → head = some a
  | .setWait a | .slowLoad a | .slowStore a _ | .saveHead a =>
    (a ∈ Q ∧ h.status a = t) ∧ head = some a
  | .loadHead a tmp | .storeHead a tmp _ =>
    (a ∈ Q ∧ h.status a = t) ∧ head = some a ∧ tmp = some a
  | .loadNext a tmp p => (a ∈ Q ∧ h.status a = t) ∧ head = some a ∧ tmp = some a ∧ p = some a
  | .free tmp => ∃ b, tmp = some b ∧ b ∉ Q
  | _ => True

structure QueueInv (s : State T) (Q : List ℕ) : Prop where
  linked : Chained s.heap.next s.sem.head Q
  mutex : HeldAt Pc.InMutex s.pc s.sem.lock
  ok : ∀ t, (s.pc t).Ok t s.sem.head Q s.heap
  member : ∀ a ∈ Q, (s.pc (s.heap.status a)).enqueued = some a
  allocated : ∀ t a, (s.pc t).owned = some a → s.heap.allocated a = true
  unique : ∀ t t' a, (s.pc t).owned = some a → (s.pc t').owned = some a → t = t'

section Local

variable {t : T} {head head' : Option ℕ} {Q Q' : List ℕ} {h h' : Heap T} {pc : Pc}

theorem Pc.owned_of_enqueued {a : ℕ} (ha : pc.enqueued = some a) : pc.owned = some a := by
  cases pc with
  | unlock _ | spin _ | spinWait _ | spinHead _ | spinStatus _ _ | setWait _ => exact ha
  | slowLoad _ | slowStore _ _ | saveHead _ => exact ha
  | loadHead _ _ | loadNext _ _ _ | storeHead _ _ _ => exact ha
  | _ => cases ha

theorem Pc.Ok.enqueued (hok : pc.Ok t head Q h) {a : ℕ} (ha : pc.enqueued = some a) :
    a ∈ Q ∧ h.status a = t := by
  cases pc with
  | unlock b | spin b | spinWait b | spinHead b =>
    obtain rfl := Option.some.inj ha
    exact hok
  | spinStatus b _ | setWait b | slowLoad b | slowStore b _ | saveHead b =>
    obtain rfl := Option.some.inj ha
    exact hok.1
  | loadHead b _ | loadNext b _ _ | storeHead b _ _ =>
    obtain rfl := Option.some.inj ha
    exact hok.1
  | _ => cases ha

/-- A thread outside the mutex does not notice when another one prepares or appends its node. -/
theorem Pc.Ok.of_append (hok : pc.Ok t head Q h) (hm : ¬pc.InMutex) (hQ : ∀ a ∈ Q, a ∈ Q')
    (hown : ∀ a, pc.owned = some a → a ∉ Q → a ∉ Q')
    (hstatus : ∀ a ∈ Q, h'.status a = h.status a) (hst : ∀ q, h'.status q = t → h.status q = t)
    (hhead : ∀ a ∈ Q, head = some a → head' = some a) : pc.Ok t head' Q' h' := by
  have hqueued : ∀ {a}, a ∈ Q ∧ h.status a = t → a ∈ Q' ∧ h'.status a = t := by
    intro a ha
    exact ⟨hQ a ha.1, (hstatus a ha.1).trans ha.2⟩
  cases pc with
  | spin a | spinWait a | spinHead a => exact hqueued hok
  | spinStatus a p =>
    exact ⟨hqueued hok.1, fun q hq hs => hhead a hok.1.1 (hok.2 q hq (hst q hs))⟩
  | setWait a | slowLoad a | slowStore a _ | saveHead a =>
    exact ⟨hqueued hok.1, hhead a hok.1.1 hok.2⟩
  | loadHead a tmp | storeHead a tmp _ | loadNext a tmp _ =>
    exact ⟨hqueued hok.1, hhead a hok.1.1 hok.2.1, hok.2.2⟩
  | free tmp =>
    obtain ⟨b, rfl, hb⟩ := hok
    exact ⟨b, rfl, hown b rfl hb⟩
  | lock | clearWait | upLoad | upStore _ | ret => trivial
  | _ => exact absurd trivial hm

theorem Pc.Ok.of_remove {a : ℕ} (hok : pc.Ok t (some a) (a :: Q) h) (hne : h.status a ≠ t)
    (hcur : pc.cursor ≠ some a) : pc.Ok t head' Q h := by
  have hqueued : ∀ {b}, b ∈ a :: Q ∧ h.status b = t → b ∈ Q ∧ h.status b = t := by
    intro b hb
    refine ⟨(List.mem_cons.mp hb.1).resolve_left ?_, hb.2⟩
    rintro rfl
    exact hne hb.2
  have hhead : ∀ {b}, b ∈ a :: Q ∧ h.status b = t → some a ≠ some b := by
    intro b hb he
    rw [Option.some.inj he] at hne
    exact hne hb.2
  have hpast : ∀ {p}, p ∈ a :: Q → some p ≠ some a → p ∈ Q := by
    intro p hp hne
    exact (List.mem_cons.mp hp).resolve_left fun he => hne (congrArg some he)
  have hcursor : ∀ {tmp}, Cursor (a :: Q) tmp → tmp ≠ some a → Cursor Q tmp := by
    intro tmp htmp hne
    cases tmp with
    | none => cases htmp
    | some p => exact hpast htmp hne
  have hfresh : ∀ {b}, b ∉ a :: Q → b ∉ Q := fun hb hQ => hb (List.mem_cons_of_mem _ hQ)
  cases pc with
  | malloc tmp => exact hcursor hok hcur
  | setStatus tmp b => exact ⟨hcursor hok.1 hcur, hfresh hok.2⟩
  | setNext tmp b => exact ⟨hcursor hok.1 hcur, hfresh hok.2.1, hok.2.2⟩
  | storeFirst b => cases hok.1
  | walk tmp b =>
    obtain ⟨⟨p, hp, rfl⟩, hb, hrest⟩ := hok
    exact ⟨⟨p, hpast hp hcur, rfl⟩, hfresh hb, hrest⟩
  | walkNext p b | append p b => exact ⟨hpast hok.1 hcur, hok.2.1, hfresh hok.2.2.1, hok.2.2.2⟩
  | unlock b | spin b | spinWait b | spinHead b => exact hqueued hok
  | spinStatus b p =>
    exact ⟨hqueued hok.1, fun q hq hs => absurd (hok.2 q hq hs) (hhead hok.1)⟩
  | setWait b | slowLoad b | slowStore b _ | saveHead b => exact absurd hok.2 (hhead hok.1)
  | loadHead b tmp | storeHead b tmp _ | loadNext b tmp _ => exact absurd hok.2.1 (hhead hok.1)
  | free tmp =>
    obtain ⟨b, rfl, hb⟩ := hok
    exact ⟨b, rfl, hfresh hb⟩
  | _ => trivial

end Local

section Facts

variable {s : State T} {Q : List ℕ} {t : T} {q pc' : Pc}

theorem queueInv_initial {v : ℤ} (h : Initial v s) : QueueInv s [] := by
  obtain ⟨hsem, -, hpc⟩ := h
  refine ⟨?_, fun t => ?_, fun t => ?_, by simp, fun t a ha => ?_, fun t t' a ha => ?_⟩
  · rw [hsem]
    exact .nil
  · rw [hsem, hpc]
    exact iff_of_false id (by simp [ssuSemInit])
  · rw [hpc]
    trivial
  · rw [hpc] at ha
    cases ha
  · rw [hpc] at ha
    cases ha

theorem QueueInv.nodup (h : QueueInv s Q) :
    (Q.map s.heap.status).Nodup := by
  apply h.linked.nodup.map_on
  intro a ha b hb heq
  have hmem := h.member a ha
  rw [heq, h.member b hb] at hmem
  exact (Option.some.inj hmem).symm

theorem QueueInv.allocated_of_mem (h : QueueInv s Q) {a : ℕ} (ha : a ∈ Q) :
    s.heap.allocated a = true :=
  h.allocated _ a (Pc.owned_of_enqueued (h.member a ha))

/-- Only the thread inside the mutex appends nodes. -/
theorem QueueInv.outside (h : QueueInv s Q) (hpc : s.pc t = q) (hm : q.InMutex) {t' : T}
    (ht : t' ≠ t) : ¬(s.pc t').InMutex := by
  intro hm'
  rw [← hpc] at hm
  exact ht (h.mutex.unique hm' hm)

theorem QueueInv.ok_at (h : QueueInv s Q) (hpc : s.pc t = q) : q.Ok t s.sem.head Q s.heap :=
  hpc ▸ h.ok t

/-- What `update` asks about the own node when it is the same as before. -/
theorem QueueInv.owned_update (h : QueueInv s Q) (hpc : s.pc t = q) (hown : pc'.owned = q.owned)
    {a : ℕ} (ha : pc'.owned = some a) :
    s.heap.allocated a = true ∧ ∀ t' ≠ t, (s.pc t').owned ≠ some a := by
  rw [hown, ← hpc] at ha
  exact ⟨h.allocated t a ha, fun t' ht ha' => ht (h.unique t' t a ha' ha)⟩

end Facts

section Step

variable [DecidableEq T] {s : State T} {Q : List ℕ} {t : T} {q pc' : Pc}

/-- What is left to show for a step of the thread `t` to the place `pc'`. -/
theorem QueueInv.update (h : QueueInv s Q) {sem : SSUSem T} {heap : Heap T} {Q' : List ℕ}
    (hlinked : Chained heap.next sem.head Q')
    (hmutex : HeldAt Pc.InMutex (Function.update s.pc t pc') sem.lock)
    (hok : pc'.Ok t sem.head Q' heap)
    (hothers : ∀ t' ≠ t, (s.pc t').Ok t' sem.head Q' heap)
    (hmember : ∀ a ∈ Q', (Function.update s.pc t pc' (heap.status a)).enqueued = some a)
    (hown : ∀ a, pc'.owned = some a →
      heap.allocated a = true ∧ ∀ t' ≠ t, (s.pc t').owned ≠ some a)
    (halloc : ∀ t' ≠ t, ∀ a, (s.pc t').owned = some a → heap.allocated a = true) :
    QueueInv { sem, heap, pc := Function.update s.pc t pc' } Q' := by
  have hself : Function.update s.pc t pc' t = pc' := Function.update_self _ _ _
  have hother : ∀ t' ≠ t, Function.update s.pc t pc' t' = s.pc t' := fun t' ht =>
    Function.update_of_ne ht _ _
  refine ⟨hlinked, hmutex, ?_, hmember, ?_, fun t₁ t₂ a h₁ h₂ => ?_⟩
  · exact (Function.forall_update_iff s.pc fun t' q => q.Ok t' sem.head Q' heap).mpr ⟨hok, hothers⟩
  · exact (Function.forall_update_iff s.pc fun _ q =>
      ∀ a, q.owned = some a → heap.allocated a = true).mpr ⟨fun a ha => (hown a ha).1, halloc⟩
  · dsimp only at h₁ h₂
    by_cases ht₁ : t₁ = t
    · rw [ht₁, hself] at h₁
      by_contra hne
      rw [hother t₂ fun ht₂ => hne (ht₁.trans ht₂.symm)] at h₂
      exact (hown a h₁).2 t₂ (fun ht₂ => hne (ht₁.trans ht₂.symm)) h₂
    · rw [hother t₁ ht₁] at h₁
      by_cases ht₂ : t₂ = t
      · rw [ht₂, hself] at h₂
        exact absurd h₁ ((hown a h₂).2 t₁ ht₁)
      · rw [hother t₂ ht₂] at h₂
        exact h.unique t₁ t₂ a h₁ h₂

/-- What `update` asks about the members of the queue when neither they nor their states change. -/
theorem QueueInv.member_update (h : QueueInv s Q) (hpc : s.pc t = q) {status : ℕ → T}
    (hstatus : ∀ a ∈ Q, status a = s.heap.status a) (henq : pc'.enqueued = q.enqueued) :
    ∀ a ∈ Q, (Function.update s.pc t pc' (status a)).enqueued = some a := by
  intro a ha
  rw [hstatus a ha, ← h.member a ha, Function.update_apply]
  split_ifs with ht
  · rw [ht, hpc, henq]
  · rfl

theorem QueueInv.plain (h : QueueInv s Q) (hpc : s.pc t = q) {sem : SSUSem T}
    (hhead : sem.head = s.sem.head)
    (hmutex : HeldAt Pc.InMutex (Function.update s.pc t pc') sem.lock)
    (hok : pc'.Ok t s.sem.head Q s.heap) (henq : pc'.enqueued = q.enqueued)
    (hown : pc'.owned = q.owned) :
    QueueInv { sem, heap := s.heap, pc := Function.update s.pc t pc' } Q := by
  apply h.update (hhead ▸ h.linked) hmutex (hhead ▸ hok)
  · intro t' _
    rw [hhead]
    exact h.ok t'
  · exact h.member_update hpc (fun _ _ => rfl) henq
  · exact fun a => h.owned_update hpc hown
  · exact fun t' _ => h.allocated t'

theorem QueueInv.stay (h : QueueInv s Q) (hpc : s.pc t = q) {sem : SSUSem T}
    (hhead : sem.head = s.sem.head) (hlock : sem.lock = s.sem.lock)
    (hm : pc'.InMutex ↔ q.InMutex) (hok : pc'.Ok t s.sem.head Q s.heap)
    (henq : pc'.enqueued = q.enqueued) (hown : pc'.owned = q.owned) :
    QueueInv { sem, heap := s.heap, pc := Function.update s.pc t pc' } Q := by
  rw [← hpc] at hm
  exact h.plain hpc hhead (hlock ▸ h.mutex.move hm) hok henq hown

theorem QueueInv.malloc (h : QueueInv s Q) {tmp : Option ℕ} {a : ℕ} (hpc : s.pc t = .malloc tmp)
    (ha : s.heap.allocated a = false) :
    QueueInv { s with heap := s.heap.malloc a, pc := Function.update s.pc t (.setStatus tmp a) }
      Q := by
  have hok := h.ok t
  rw [hpc] at hok
  have hkeep : ∀ b, s.heap.allocated b = true → (s.heap.malloc a).allocated b = true := by
    intro b hb
    simp only [Heap.malloc, Function.update_apply]
    split_ifs <;> simp [hb]
  refine h.update h.linked (h.mutex.move (by simp [hpc, Pc.InMutex])) ?_ ?_ ?_ ?_ ?_
  · refine ⟨hok, fun hQ => ?_⟩
    rw [h.allocated_of_mem hQ] at ha
    cases ha
  · exact fun t' _ => h.ok t'
  · exact h.member_update hpc (fun _ _ => rfl) rfl
  · intro b hb
    obtain rfl := Option.some.inj hb
    refine ⟨Function.update_self _ _ _, fun t' _ hb => ?_⟩
    rw [h.allocated t' a hb] at ha
    cases ha
  · exact fun t' _ b hb => hkeep b (h.allocated t' b hb)

theorem QueueInv.prepare (h : QueueInv s Q) (hpc : s.pc t = q) {a : ℕ} {heap : Heap T}
    (hm : q.InMutex) (hm' : pc'.InMutex) (hown : pc'.owned = q.owned)
    (henq : pc'.enqueued = q.enqueued) (haQ : a ∉ Q)
    (hnext : ∀ b ≠ a, heap.next b = s.heap.next b)
    (hstatus : ∀ b, heap.status b = s.heap.status b ∨ b = a ∧ heap.status b = t)
    (halloc : heap.allocated = s.heap.allocated) (hok : pc'.Ok t s.sem.head Q heap) :
    QueueInv { s with heap, pc := Function.update s.pc t pc' } Q := by
  have hne : ∀ b ∈ Q, b ≠ a := fun b hb he => haQ (he ▸ hb)
  have hstatusQ : ∀ b ∈ Q, heap.status b = s.heap.status b := fun b hb =>
    (hstatus b).resolve_right fun hba => hne b hb hba.1
  apply h.update (h.linked.congr fun b hb => hnext b (hne b hb))
    (h.mutex.move (iff_of_true hm' (hpc ▸ hm))) hok
  · intro t' ht
    apply (h.ok t').of_append (h.outside hpc hm ht) (fun _ hb => hb) (fun _ _ hb => hb) hstatusQ
    · intro q hq
      rcases hstatus q with hs | ⟨-, hs⟩
      · rw [← hs, hq]
      · exact absurd (hq.symm.trans hs) ht
    · exact fun _ _ hb => hb
  · exact h.member_update hpc hstatusQ henq
  · rw [halloc]
    exact fun b => h.owned_update hpc hown
  · rw [halloc]
    exact fun t' _ => h.allocated t'

theorem QueueInv.enqueue (h : QueueInv s Q) (hpc : s.pc t = q) {a : ℕ} {sem : SSUSem T}
    {heap : Heap T} (hm : q.InMutex) (ha : q.owned = some a) (henq : q.enqueued = none)
    (hst : s.heap.status a = t) (hlock : sem.lock = s.sem.lock)
    (hlinked : Chained heap.next sem.head (Q ++ [a]))
    (hhead : ∀ b ∈ Q, s.sem.head = some b → sem.head = some b)
    (hstatus : heap.status = s.heap.status) (halloc : heap.allocated = s.heap.allocated) :
    QueueInv { sem, heap, pc := Function.update s.pc t (.unlock a) } (Q ++ [a]) := by
  have hown : (Pc.unlock a).owned = q.owned := ha.symm
  apply h.update hlinked (hlock ▸ h.mutex.move (iff_of_true trivial (hpc ▸ hm)))
  · exact ⟨by simp, hstatus ▸ hst⟩
  · intro t' ht
    apply (h.ok t').of_append (h.outside hpc hm ht) (fun _ hb => List.mem_append_left _ hb)
    · intro b hb hbQ
      have hne : b ≠ a := fun he => ht (h.unique t' t a (he ▸ hb) (hpc ▸ ha))
      simp [hbQ, hne]
    · exact fun _ _ => by rw [hstatus]
    · exact fun _ hq => by rw [← hstatus, hq]
    · exact hhead
  · intro b hb
    rcases List.mem_append.mp hb with hbQ | hba
    · have hmem := h.member b hbQ
      rw [hstatus, Function.update_of_ne, hmem]
      intro he
      rw [he, hpc, henq] at hmem
      cases hmem
    · obtain rfl := List.mem_singleton.mp hba
      rw [hstatus, hst, Function.update_self]
      rfl
  · rw [halloc]
    exact fun b => h.owned_update hpc hown
  · rw [halloc]
    exact fun t' _ => h.allocated t'

theorem QueueInv.dequeue (h : QueueInv s Q) {a : ℕ} {tmp next : Option ℕ}
    (hpc : s.pc t = .storeHead a tmp next) (hnext : s.heap.next a = next)
    (hcursor : ∀ t', (s.pc t').cursor ≠ some a) :
    ∃ Q', Q = a :: Q' ∧ s.heap.status a = t ∧
      QueueInv { s with sem := { s.sem with head := next }
                        pc := Function.update s.pc t (.free tmp) } Q' := by
  have hok := h.ok t
  rw [hpc] at hok
  obtain ⟨⟨haQ, hst⟩, hhead, htmp⟩ := hok
  have hlinked := h.linked
  rw [hhead] at hlinked
  obtain ⟨Q', rfl, hrest⟩ := hlinked.of_some
  have hnot : a ∉ Q' := (List.nodup_cons.mp hlinked.nodup).1
  refine ⟨Q', rfl, hst, ?_⟩
  have hown : (Pc.free tmp).owned = (Pc.storeHead a tmp next).owned := htmp
  refine h.update (hnext ▸ hrest) (h.mutex.move (by simp [hpc, Pc.InMutex])) ⟨a, htmp, hnot⟩
    ?_ ?_ ?_ ?_
  · intro t' ht
    have hok' := h.ok t'
    rw [hhead] at hok'
    exact hok'.of_remove (fun he => ht (he.symm.trans hst)) (hcursor t')
  · intro b hb
    have hmem := h.member b (List.mem_cons_of_mem _ hb)
    rw [Function.update_of_ne, hmem]
    intro he
    rw [he, hpc] at hmem
    exact hnot (Option.some.inj hmem ▸ hb)
  · exact fun b => h.owned_update hpc hown
  · exact fun t' _ => h.allocated t'

theorem QueueInv.free (h : QueueInv s Q) {tmp : Option ℕ} (hpc : s.pc t = .free tmp) :
    QueueInv { s with heap := s.heap.free tmp, pc := Function.update s.pc t .clearWait } Q := by
  have hok := h.ok t
  rw [hpc] at hok
  obtain ⟨a, rfl, haQ⟩ := hok
  refine h.update h.linked (h.mutex.move (by simp [hpc, Pc.InMutex])) trivial ?_ ?_ ?_ ?_
  · exact fun t' _ => h.ok t'
  · exact h.member_update hpc (fun _ _ => rfl) rfl
  · exact fun b hb => by cases hb
  · intro t' ht b hb
    have hne : b ≠ a := fun he => ht (h.unique t' t a (he ▸ hb) (by rw [hpc]; rfl))
    change Function.update s.heap.allocated a false b = true
    rw [Function.update_of_ne hne]
    exact h.allocated t' b hb

section Run

variable {tmp next : Option ℕ} {a p : ℕ} {sem : SSUSem T} {heap : Heap T}

/-- The queue and the waiting threads behind a step of the thread `t` from `q` to `pc'`. -/
def Requeues (s : State T) (Q : List ℕ) (t : T) (q pc' : Pc) (sem : SSUSem T) (heap : Heap T) :
    Prop :=
  ∃ Q', QueueInv { sem, heap, pc := Function.update s.pc t pc' } Q' ∧
    Q'.map heap.status = q.requeue t (Q.map s.heap.status)

theorem QueueInv.run_lock (h : QueueInv s Q) (hpc : s.pc t = .lock)
    (hr : Sem.run t s.sem s.heap .lock = .ok (pc', sem, heap)) :
    Requeues s Q t .lock pc' sem heap := by
  simp only [Sem.run] at hr
  split_ifs at hr with hl
  cases hr
  have hfree := h.mutex
  rw [hl] at hfree
  exact ⟨Q, h.plain hpc rfl (hfree.acquire trivial) trivial rfl rfl, rfl⟩

theorem QueueInv.run_readHead (h : QueueInv s Q) (hpc : s.pc t = .readHead)
    (hr : Sem.run t s.sem s.heap .readHead = .ok (pc', sem, heap)) :
    Requeues s Q t .readHead pc' sem heap := by
  cases hr
  refine ⟨Q, h.stay hpc rfl rfl .rfl ?_ rfl rfl, rfl⟩
  have hlinked := h.linked
  cases hhead : s.sem.head with
  | none => exact hlinked.eq_nil_iff.mp hhead
  | some p =>
    rw [hhead] at hlinked
    exact hlinked.head_mem

theorem QueueInv.run_setStatus (h : QueueInv s Q) (hpc : s.pc t = .setStatus tmp a)
    (hr : Sem.run t s.sem s.heap (.setStatus tmp a) = .ok (pc', sem, heap)) :
    Requeues s Q t (.setStatus tmp a) pc' sem heap := by
  obtain ⟨hcur, haQ⟩ := h.ok_at hpc
  cases hr
  refine ⟨Q, h.prepare hpc trivial trivial rfl rfl haQ (by simp) (fun b => ?_) rfl ?_, ?_⟩
  · rw [Heap.status_setStatus, Function.update_apply]
    split_ifs with hb
    · exact Or.inr ⟨hb, rfl⟩
    · exact Or.inl rfl
  · exact ⟨hcur, haQ, by simp⟩
  · apply List.map_congr_left
    intro b hb
    rw [Heap.status_setStatus, Function.update_of_ne]
    exact fun he => haQ (he ▸ hb)

theorem QueueInv.run_setNext (h : QueueInv s Q) (hpc : s.pc t = .setNext tmp a)
    (hr : Sem.run t s.sem s.heap (.setNext tmp a) = .ok (pc', sem, heap)) :
    Requeues s Q t (.setNext tmp a) pc' sem heap := by
  obtain ⟨hcur, haQ, hst⟩ := h.ok_at hpc
  cases hr
  have hnext : ∀ b ≠ a, (s.heap.setNext a none).next b = s.heap.next b := by
    intro b hb
    rw [Heap.next_setNext, Function.update_of_ne hb]
  refine ⟨Q, ?_, by rw [Heap.status_setNext]; rfl⟩
  split_ifs with htmp
  · refine h.prepare hpc trivial trivial rfl rfl haQ hnext (by simp) rfl
      ⟨?_, by simpa using hst, by simp⟩
    rw [htmp] at hcur
    exact hcur
  · refine h.prepare hpc trivial trivial rfl rfl haQ hnext (by simp) rfl
      ⟨?_, haQ, by simpa using hst, by simp⟩
    obtain ⟨p, rfl⟩ := Option.ne_none_iff_exists'.mp htmp
    exact ⟨p, hcur, rfl⟩

theorem QueueInv.run_storeFirst (h : QueueInv s Q) (hpc : s.pc t = .storeFirst a)
    (hr : Sem.run t s.sem s.heap (.storeFirst a) = .ok (pc', sem, heap)) :
    Requeues s Q t (.storeFirst a) pc' sem heap := by
  obtain ⟨rfl, hst, hnext⟩ := h.ok_at hpc
  cases hr
  refine ⟨[a], h.enqueue hpc trivial rfl rfl hst rfl ?_ (by simp) rfl rfl, ?_⟩
  · apply Chained.cons
    rw [hnext]
    exact .nil
  · simp [Pc.requeue, hst]

theorem QueueInv.run_walk (h : QueueInv s Q) (hpc : s.pc t = .walk tmp a)
    (hr : Sem.run t s.sem s.heap (.walk tmp a) = .ok (pc', sem, heap)) :
    Requeues s Q t (.walk tmp a) pc' sem heap := by
  obtain ⟨⟨p, hp, rfl⟩, hfresh⟩ := h.ok_at hpc
  cases hr
  split_ifs with hend
  · exact ⟨Q, h.stay hpc rfl rfl .rfl ⟨hp, hend, hfresh⟩ rfl rfl, rfl⟩
  · exact ⟨Q, h.stay hpc rfl rfl .rfl ⟨hp, hend, hfresh⟩ rfl rfl, rfl⟩

theorem QueueInv.run_walkNext (h : QueueInv s Q) (hpc : s.pc t = .walkNext p a)
    (hr : Sem.run t s.sem s.heap (.walkNext p a) = .ok (pc', sem, heap)) :
    Requeues s Q t (.walkNext p a) pc' sem heap := by
  obtain ⟨hp, hnext, hfresh⟩ := h.ok_at hpc
  cases hr
  obtain ⟨q, hq⟩ := Option.ne_none_iff_exists'.mp hnext
  exact ⟨Q, h.stay hpc rfl rfl .rfl ⟨⟨q, h.linked.next_mem hp hq, hq⟩, hfresh⟩ rfl rfl, rfl⟩

theorem QueueInv.run_append (h : QueueInv s Q) (hpc : s.pc t = .append p a)
    (hr : Sem.run t s.sem s.heap (.append p a) = .ok (pc', sem, heap)) :
    Requeues s Q t (.append p a) pc' sem heap := by
  obtain ⟨hp, hend, haQ, hst, hnext⟩ := h.ok_at hpc
  cases hr
  refine ⟨Q ++ [a], h.enqueue hpc trivial rfl rfl hst rfl ?_ (fun _ _ hb => hb) (by simp) rfl, ?_⟩
  · rw [Heap.next_setNext]
    exact h.linked.concat hp hend haQ hnext
  · simp [Pc.requeue, hst]

theorem QueueInv.run_spinHead (h : QueueInv s Q) (hpc : s.pc t = .spinHead a)
    (hr : Sem.run t s.sem s.heap (.spinHead a) = .ok (pc', sem, heap)) :
    Requeues s Q t (.spinHead a) pc' sem heap := by
  have hok := h.ok_at hpc
  cases hr
  refine ⟨Q, h.stay hpc rfl rfl .rfl ⟨hok, fun q hq hs => ?_⟩ rfl rfl, rfl⟩
  -- The first node of the queue belongs to `t`, so it is the one `t` has appended.
  have hlinked := h.linked
  rw [hq] at hlinked
  have hmem := h.member q hlinked.head_mem
  rw [hs, hpc] at hmem
  rw [hq]
  exact hmem.symm

theorem QueueInv.run_spinStatus (h : QueueInv s Q) (hpc : s.pc t = .spinStatus a tmp)
    (hr : Sem.run t s.sem s.heap (.spinStatus a tmp) = .ok (pc', sem, heap)) :
    Requeues s Q t (.spinStatus a tmp) pc' sem heap := by
  have hok := h.ok_at hpc
  cases tmp with
  | none => cases hr
  | some q =>
    cases hr
    split_ifs with hs
    · exact ⟨Q, h.stay hpc rfl rfl .rfl ⟨hok.1, hok.2 q rfl hs⟩ rfl rfl, rfl⟩
    · exact ⟨Q, h.stay hpc rfl rfl .rfl hok.1 rfl rfl, rfl⟩

theorem QueueInv.run_storeHead (h : QueueInv s Q) {op : Op} (hclear : Clear (t, op) s)
    (hpc : s.pc t = .storeHead a tmp next)
    (hr : Sem.run t s.sem s.heap (.storeHead a tmp next) = .ok (pc', sem, heap)) :
    Requeues s Q t (.storeHead a tmp next) pc' sem heap := by
  have hhead := (h.ok_at hpc).2.1
  cases hr
  obtain ⟨hnext, hcur⟩ := hclear next (by rw [hpc]; rfl) a hhead
  obtain ⟨Q', rfl, hst, hinv⟩ := h.dequeue hpc hnext hcur
  exact ⟨Q', hinv, by simp [Pc.requeue, hst]⟩

theorem QueueInv.run_free (h : QueueInv s Q) (hpc : s.pc t = .free tmp)
    (hr : Sem.run t s.sem s.heap (.free tmp) = .ok (pc', sem, heap)) :
    Requeues s Q t (.free tmp) pc' sem heap := by
  obtain ⟨b, rfl, -⟩ := h.ok_at hpc
  cases hr
  exact ⟨Q, h.free hpc, rfl⟩

/-- Only the places that append a node or take one off change the queue. -/
theorem QueueInv.run (h : QueueInv s Q) {op : Op} (hclear : Clear (t, op) s)
    (hr : Sem.run t s.sem s.heap (s.pc t) = .ok (pc', sem, heap)) :
    Requeues s Q t (s.pc t) pc' sem heap := by
  have hok := h.ok t
  obtain ⟨q, hpc⟩ : ∃ q, s.pc t = q := ⟨_, rfl⟩
  rw [hpc] at hr hok ⊢
  cases q with
  | ret | malloc _ => cases hr
  | lock => exact h.run_lock hpc hr
  | fastUnlock =>
    cases hr
    exact ⟨Q, h.plain hpc rfl (h.mutex.release (hpc ▸ trivial) id) trivial rfl rfl, rfl⟩
  | unlock a =>
    cases hr
    exact ⟨Q, h.plain hpc rfl (h.mutex.release (hpc ▸ trivial) id) hok rfl rfl, rfl⟩
  | test =>
    cases hr
    split_ifs
    · exact ⟨Q, h.stay hpc rfl rfl .rfl trivial rfl rfl, rfl⟩
    · exact ⟨Q, h.stay hpc rfl rfl .rfl trivial rfl rfl, rfl⟩
  | fastLoad | fastStore _ | clearWait | upLoad | upStore _ =>
    cases hr
    exact ⟨Q, h.stay hpc rfl rfl .rfl trivial rfl rfl, rfl⟩
  | readHead => exact h.run_readHead hpc hr
  | setStatus tmp a => exact h.run_setStatus hpc hr
  | setNext tmp a => exact h.run_setNext hpc hr
  | storeFirst a => exact h.run_storeFirst hpc hr
  | walk tmp a => exact h.run_walk hpc hr
  | walkNext p a => exact h.run_walkNext hpc hr
  | append p a => exact h.run_append hpc hr
  | spin a | spinWait a =>
    cases hr
    split_ifs
    · exact ⟨Q, h.stay hpc rfl rfl .rfl hok rfl rfl, rfl⟩
    · exact ⟨Q, h.stay hpc rfl rfl .rfl hok rfl rfl, rfl⟩
  | spinHead a => exact h.run_spinHead hpc hr
  | spinStatus a p => exact h.run_spinStatus hpc hr
  | setWait a | slowLoad a | slowStore a _ =>
    cases hr
    exact ⟨Q, h.stay hpc rfl rfl .rfl hok rfl rfl, rfl⟩
  | saveHead a =>
    cases hr
    exact ⟨Q, h.stay hpc rfl rfl .rfl ⟨hok.1, hok.2, hok.2⟩ rfl rfl, rfl⟩
  | loadHead a tmp =>
    cases hr
    exact ⟨Q, h.stay hpc rfl rfl .rfl ⟨hok.1, hok.2.1, hok.2.2, hok.2.1⟩ rfl rfl, rfl⟩
  | loadNext a tmp p =>
    obtain ⟨hq, hhead, htmp, rfl⟩ := hok
    cases hr
    exact ⟨Q, h.stay hpc rfl rfl .rfl ⟨hq, hhead, htmp⟩ rfl rfl, rfl⟩
  | storeHead a tmp next => exact h.run_storeHead hclear hpc hr
  | free tmp => exact h.run_free hpc hr

end Run

theorem QueueInv.exec (h : QueueInv s Q) {c : T × Op} {u : Unit} {s' : State T}
    (hclear : Clear c s) (he : exec c s = .ok (u, s')) :
    ∃ Q', QueueInv s' Q' ∧
      Q'.map s'.heap.status = (s.pc c.1).requeue c.1 (Q.map s.heap.status) := by
  obtain ⟨t, op⟩ := c
  cases exec_trans he with
  | down hret | up hret =>
    exact ⟨Q, h.stay hret rfl rfl .rfl trivial rfl rfl, by rw [hret]; rfl⟩
  | @act a _ _ _ hadv =>
    cases a with
    | run => exact h.run hclear hadv
    | malloc a =>
      obtain ⟨tmp, hpc, ha, rfl, rfl, rfl⟩ := advance_malloc hadv
      exact ⟨Q, h.malloc hpc ha, by rw [hpc]; rfl⟩

end Step

variable [DecidableEq T]

theorem queue_of_run {v : ℤ} {tr : List (Event (State T) (T × Op) Unit)} {s : State T}
    (hr : Interleaving v tr s) (hclear : ∀ e ∈ tr, Clear e.call e.pre) :
    ∃ Q, QueueInv s Q ∧ Q.map s.heap.status = waiting tr := by
  apply (hr.of_good hclear).invariant_history fun tr s =>
    ∃ Q, QueueInv s Q ∧ Q.map s.heap.status = waiting tr
  · exact fun s hs => ⟨[], queueInv_initial hs, rfl⟩
  · rintro tr s c u s' ⟨Q, hinv, hwait⟩ hc he
    obtain ⟨Q', hinv', hwait'⟩ := hinv.exec hc he
    refine ⟨Q', hinv', ?_⟩
    rw [hwait', hwait]
    rfl

theorem Pc.Spinning.exists_enqueued {pc : Pc} (h : pc.Spinning) : ∃ a, pc.enqueued = some a := by
  unfold Pc.Spinning at h
  split at h
  · exact h.elim
  · exact Option.ne_none_iff_exists'.mp h

/-- No waiter is lost as long as no thread appends to a node while it is taken off. -/
theorem noneLost_of_clear {v : ℤ} {tr : List (Event (State T) (T × Op) Unit)} {s : State T}
    (hr : Interleaving v tr s) (hclear : ∀ e ∈ tr, Clear e.call e.pre) : NoneLost tr s := by
  obtain ⟨Q, hinv, hwait⟩ := queue_of_run hr hclear
  refine ⟨Q, hinv.linked, hwait, fun t ht => ?_⟩
  obtain ⟨a, ha⟩ := ht.exists_enqueued
  obtain ⟨haQ, hst⟩ := (hinv.ok t).enqueued ha
  refine ⟨List.count_eq_one_of_mem hinv.nodup ?_, fun hnone => ?_⟩
  · rw [← hst]
    exact List.mem_map_of_mem haQ
  · rw [hinv.linked.eq_nil_iff.mp hnone] at haQ
    cases haQ

/-- The threads `0` and `1` wait, and `0` takes itself off after a call of `SSU_Sem_up`. -/
theorem noneLost_twoWaiters : ∃ (tr : List (Event (State (Fin 3)) (Fin 3 × Op) Unit))
    (s : State (Fin 3)), Interleaving 0 tr s ∧ waiting tr = [1] ∧ NoneLost tr s := by
  have h : ∃ (tr : List (Event (State (Fin 3)) (Fin 3 × Op) Unit)) (s : State (Fin 3)),
      Interleaving 0 tr s ∧ decide ((∀ e ∈ tr, Clear e.call e.pre) ∧ waiting tr = [1]) = true :=
    Run.exists_of_replayCheck (s := start 0 0) (List.flatten [[(0, .down)], runs 0 3,
      [(0, .act (.malloc 1))], runs 0 5, [(1, .down)], runs 1 3, [(1, .act (.malloc 2))],
      runs 1 6, [(2, .up)], runs 2 2, runs 0 12]) (initial_start 0 0) (by decide +kernel)
  obtain ⟨tr, s, hr, hp⟩ := h
  obtain ⟨hclear, hwait⟩ := of_decide_eq_true hp
  exact ⟨tr, s, hr, hwait, noneLost_of_clear hr hclear⟩

/-- The thread `1` appends its node to that of `0` after `0` has read the `next` field and before
it stores `head`. -/
theorem waiter_lost : ∃ (tr : List (Event (State (Fin 3)) (Fin 3 × Op) Unit))
    (s : State (Fin 3)), Interleaving 0 tr s ∧ s.pc 1 = .spin 2 ∧ s.sem.head = none ∧
      ¬NoneLost tr s := by
  have h : ∃ (tr : List (Event (State (Fin 3)) (Fin 3 × Op) Unit)) (s : State (Fin 3)),
      Interleaving 0 tr s ∧ decide (s.pc 1 = .spin 2 ∧ s.sem.head = none) = true :=
    Run.exists_of_replayCheck (s := start 0 0) (List.flatten [[(0, .down)], runs 0 3,
      [(0, .act (.malloc 1))], runs 0 5, [(1, .down)], runs 1 3, [(1, .act (.malloc 2))],
      runs 1 3, [(2, .up)], runs 2 2, runs 0 10, runs 1 2, runs 0 1]) (initial_start 0 0)
      (by decide +kernel)
  obtain ⟨tr, s, hr, hp⟩ := h
  obtain ⟨hpc, hhead⟩ := of_decide_eq_true hp
  refine ⟨tr, s, hr, hpc, hhead, ?_⟩
  rintro ⟨Q, -, -, hspin⟩
  have hne := (hspin 1 (by rw [hpc]; simp [Pc.Spinning, Pc.enqueued])).2
  exact hne hhead

end SsuOs.Sem
