import SsuOs.Lib.Scanf

/-! What `scan_proc` reads of a process from its file `stat` under `/proc`, on a machine with
`int` of 32 bits and `long` of 64 bits. -/
namespace SsuOs.Ps
open Lib Lib.Scanf

def blank : UInt8 := 32

def leftParen : UInt8 := 40

def rightParen : UInt8 := 41

abbrev nameLen : ℕ := 512

/-! ### The file -/

/-- The name of a command as the kernel keeps it. -/
structure Comm where
  bytes : List UInt8
  length_le : bytes.length ≤ 15
  nonzero : 0 ∉ bytes

def isLetter (c : UInt8) : Bool := 65 ≤ c && c ≤ 90 || 97 ≤ c && c ≤ 122

/-- The fields of the file up to `rss`, and what the kernel writes behind them. -/
structure StatRecord where
  pid : Int32
  comm : Comm
  state : UInt8
  ppid : Int32
  pgrp : Int32
  session : Int32
  ttyNr : Int32
  tpgid : Int32
  flags : UInt32
  minflt : UInt64
  cminflt : UInt64
  majflt : UInt64
  cmajflt : UInt64
  utime : UInt64
  stime : UInt64
  cutime : Int64
  cstime : Int64
  priority : Int64
  nice : Int64
  numThreads : Int64
  itrealvalue : Int64
  starttime : UInt64
  vsize : UInt64
  rss : Int64
  rest : List UInt8
  state_letter : isLetter state = true
  rest_head : ∀ c ∈ rest.head?, isSpace c = true

namespace StatRecord

variable (r : StatRecord)

def numbers : List ℤ :=
  [r.ppid.toInt, r.pgrp.toInt, r.session.toInt, r.ttyNr.toInt, r.tpgid.toInt,
    r.flags.toNat, r.minflt.toNat, r.cminflt.toNat, r.majflt.toNat, r.cmajflt.toNat,
    r.utime.toNat, r.stime.toNat, r.cutime.toInt, r.cstime.toInt, r.priority.toInt,
    r.nice.toInt, r.numThreads.toInt, r.itrealvalue.toInt, r.starttime.toNat, r.vsize.toNat,
    r.rss.toInt]

def text : List UInt8 :=
  decimal r.pid.toInt ++ blank :: leftParen :: (r.comm.bytes ++ rightParen :: blank :: r.state ::
    (r.numbers.flatMap (blank :: decimal ·) ++ r.rest))

end StatRecord

/-! ### The program -/

/-- The fields of `proc_list` that the format stores to. -/
structure ProcList where
  pid : Int32
  ppid : Int32
  pgrp : Int32
  sid : Int32
  tpgid : Int32
  ttyNr : Int32
  state : UInt8
  cmdline : CString.Buffer
  utime : UInt64
  stime : UInt64
  vsize : UInt64
  rss : Int64
  nice : Int64
  numThreads : Int64
  starttime : UInt64

/-- `pstat` behind its `memset`. -/
def ProcList.zero : ProcList :=
  ⟨0, 0, 0, 0, 0, 0, 0, List.replicate nameLen 0, 0, 0, 0, 0, 0, 0, 0⟩

section Conversions

variable (set : ℤ → ProcList → ProcList)

def int : Option (IntArg ProcList) := some ⟨⟨true, 32⟩, set⟩

def long : Option (IntArg ProcList) := some ⟨⟨true, 64⟩, set⟩

def ulong : Option (IntArg ProcList) := some ⟨⟨false, 64⟩, set⟩

end Conversions

/-- The format of `scan_proc` with its arguments. -/
def statFormat : List (Directive ProcList) :=
  [.int (int fun v p => { p with pid := .ofInt v }), .space,
    .string ⟨ProcList.cmdline, fun b p => { p with cmdline := b }⟩, .space,
    .char fun c p => { p with state := c }, .space,
    .int (int fun v p => { p with ppid := .ofInt v }), .space,
    .int (int fun v p => { p with pgrp := .ofInt v }), .space,
    .int (int fun v p => { p with sid := .ofInt v }), .space,
    .int (int fun v p => { p with ttyNr := .ofInt v }), .space,
    .int (int fun v p => { p with tpgid := .ofInt v }), .space,
    .int none, .space, .int none, .space, .int none, .space, .int none, .space, .int none, .space,
    .int (ulong fun v p => { p with utime := .ofInt v }), .space,
    .int (ulong fun v p => { p with stime := .ofInt v }),
    -- the two parts of the format meet without a blank
    .int none, .space, .int none, .space, .int none, .space,
    .int (long fun v p => { p with nice := .ofInt v }), .space,
    .int (long fun v p => { p with numThreads := .ofInt v }), .space,
    .int none, .space,
    .int (ulong fun v p => { p with starttime := .ofInt v }), .space,
    .int (ulong fun v p => { p with vsize := .ofInt v }), .space,
    .int (long fun v p => { p with rss := .ofInt v })]

def scanStat (text : List UInt8) : Except ScanFault ProcList :=
  scanf statFormat text .zero

/-! ### Names without white space -/

/-- Everything that is stored of a record but its name. -/
structure Stores (r : StatRecord) (p : ProcList) : Prop where
  pid : p.pid = r.pid
  state : p.state = r.state
  ppid : p.ppid = r.ppid
  pgrp : p.pgrp = r.pgrp
  sid : p.sid = r.session
  ttyNr : p.ttyNr = r.ttyNr
  tpgid : p.tpgid = r.tpgid
  utime : p.utime = r.utime
  stime : p.stime = r.stime
  nice : p.nice = r.nice
  numThreads : p.numThreads = r.numThreads
  starttime : p.starttime = r.starttime
  vsize : p.vsize = r.vsize
  rss : p.rss = r.rss

def Decodes (r : StatRecord) : Prop := ∃ p, scanStat r.text = .ok p ∧ Stores r p

def Comm.Solid (comm : Comm) : Prop := ∀ c ∈ comm.bytes, isSpace c = false

def cmdlineArg : StringArg ProcList := ⟨ProcList.cmdline, fun b p => { p with cmdline := b }⟩

def rssArg : Option (IntArg ProcList) := long fun v p => { p with rss := .ofInt v }

def numberArgs : List (Option (IntArg ProcList)) :=
  ((statFormat.drop 5).filterMap Directive.intArg).dropLast

theorem scanStat_eq (text : List UInt8) : scanStat text =
    scanf (.int (int fun v p => { p with pid := .ofInt v }) :: .string cmdlineArg :: .space ::
      .char (fun c p => { p with state := c }) :: (numberArgs.map .int ++ [.int rssArg]))
      text .zero :=
  (scanf_unspaced statFormat text .zero).symm

section Fits

variable (set : ℤ → ProcList → ProcList)

theorem fits_int (x : Int32) : Fits (int set) x.toInt := by
  rintro a ⟨⟩
  exact ⟨x.le_toInt, x.toInt_lt⟩

theorem fits_long (x : Int64) : Fits (long set) x.toInt := by
  rintro a ⟨⟩
  exact ⟨x.le_toInt, x.toInt_lt⟩

theorem fits_ulong (x : UInt64) : Fits (ulong set) x.toNat := by
  rintro a ⟨⟩
  exact ⟨Int.natCast_nonneg _, by exact_mod_cast x.toNat_lt⟩

theorem fits_none (v : ℤ) : Fits (none : Option (IntArg ProcList)) v := by
  rintro a ⟨⟩

end Fits

theorem ofInt_toNat (x : UInt64) : UInt64.ofInt x.toNat = x := by
  have hmod : ((x.toNat : ℤ) % 2 ^ 64).toNat = x.toNat := by
    have := x.toNat_lt
    omega
  rw [UInt64.ofInt, hmod, UInt64.ofNat_toNat]

theorem fits_numbers (r : StatRecord) :
    List.Forall₂ Fits (numberArgs ++ [rssArg]) r.numbers :=
  .cons (fits_int _ _) <| .cons (fits_int _ _) <| .cons (fits_int _ _) <| .cons (fits_int _ _) <|
  .cons (fits_int _ _) <| .cons (fits_none _) <| .cons (fits_none _) <| .cons (fits_none _) <|
  .cons (fits_none _) <| .cons (fits_none _) <| .cons (fits_ulong _ _) <|
  .cons (fits_ulong _ _) <| .cons (fits_none _) <| .cons (fits_none _) <| .cons (fits_none _) <|
  .cons (fits_long _ _) <| .cons (fits_long _ _) <| .cons (fits_none _) <|
  .cons (fits_ulong _ _) <| .cons (fits_ulong _ _) <| .cons (fits_long _ _) .nil

theorem not_space_of_letter {c : UInt8} (h : isLetter c = true) :
    isSpace c = false ∧ isDigit c = false ∧ isSign c = false := by
  simp only [isLetter, Bool.or_eq_true, Bool.and_eq_true, decide_eq_true_eq,
    UInt8.le_iff_toNat_le, UInt8.reduceToNat] at h
  simp only [isSpace, isDigit, isSign, Bool.or_eq_false_iff, Bool.and_eq_false_iff,
    decide_eq_false_iff_not, UInt8.le_iff_toNat_le, ← UInt8.toNat_inj, UInt8.reduceToNat]
  omega

theorem store_cmdline {s : List UInt8} {p : ProcList} (hp : p.cmdline.length = nameLen)
    (hs : s.length < nameLen) : ∃ b, cmdlineArg.store s p = .ok { p with cmdline := b } := by
  have hlt : s.length < (cmdlineArg.get p).length := by
    rw [cmdlineArg, hp]
    exact hs
  refine ⟨s ++ 0 :: p.cmdline.drop (s.length + 1), ?_⟩
  rw [StringArg.store, CString.storeString, if_pos hlt]
  rfl

def stateFormat : List (Directive ProcList) :=
  .space :: .char (fun c p => { p with state := c }) :: (numberArgs.map .int ++ [.int rssArg])

/-- The string conversion takes the parenthesis and what follows it up to white space. -/
theorem scanStat_word (r : StatRecord) (s rest : List UInt8)
    (hsolid : ∀ c ∈ s, isSpace c = false) (hlen : s.length ≤ 16)
    (hrest : ∀ c ∈ rest.head?, isSpace c = true)
    (htext : r.text = decimal r.pid.toInt ++ blank :: leftParen :: (s ++ rest)) :
    ∃ b, scanStat r.text =
      scanf stateFormat rest { ProcList.zero with pid := r.pid, cmdline := b } := by
  have hput : put (int fun v p => { p with pid := .ofInt v }) r.pid.toInt ProcList.zero =
      { ProcList.zero with pid := r.pid } := by
    simp only [put, int, Option.elim_some, Int32.ofInt_toInt]
  have hpid : scanStat r.text = scanf (.string cmdlineArg :: stateFormat)
      (blank :: leftParen :: (s ++ rest)) { ProcList.zero with pid := r.pid } := by
    rw [scanStat_eq, htext, ← hput]
    exact scanf_int (fits_int _ r.pid) [] (by simp) (by simp [isDigit, blank])
  obtain ⟨b, hb⟩ := store_cmdline (s := leftParen :: s) (p := { ProcList.zero with pid := r.pid })
    List.length_replicate (Nat.lt_of_le_of_lt (Nat.succ_le_succ hlen) (by decide))
  have hword : scanf (.string cmdlineArg :: stateFormat) (blank :: leftParen :: (s ++ rest))
      { ProcList.zero with pid := r.pid } = cmdlineArg.store (leftParen :: s)
        { ProcList.zero with pid := r.pid } >>= fun p => scanf stateFormat rest p :=
    scanf_string (by simp) (List.forall_mem_cons.mpr ⟨rfl, hsolid⟩) [blank]
      (by simp [isSpace, blank]) hrest
  refine ⟨b, ?_⟩
  rw [hpid, hword, hb]
  rfl

theorem decodes_of_solid {r : StatRecord} (h : r.comm.Solid) : Decodes r := by
  have hword : ∀ c ∈ r.comm.bytes ++ [rightParen], isSpace c = false := by
    intro c hc
    rcases List.mem_append.mp hc with hc | hc
    · exact h c hc
    · rw [List.mem_singleton.mp hc]
      rfl
  have hlen := r.comm.length_le
  obtain ⟨b, hb⟩ := scanStat_word r (r.comm.bytes ++ [rightParen])
    (blank :: r.state :: (r.numbers.flatMap (blank :: decimal ·) ++ r.rest)) hword
    (by simp; omega) (by simp [isSpace, blank]) (by simp [StatRecord.text])
  have hchar : scanf stateFormat
      (blank :: r.state :: (r.numbers.flatMap (blank :: decimal ·) ++ r.rest))
      { ProcList.zero with pid := r.pid, cmdline := b } =
      scanf ((numberArgs ++ [rssArg]).map .int)
        (r.numbers.flatMap (blank :: decimal ·) ++ r.rest)
        { ProcList.zero with pid := r.pid, cmdline := b, state := r.state } :=
    scanf_space_char (not_space_of_letter r.state_letter).1 [blank] (by simp [isSpace, blank])
  have hints := scanf_ints (fits_numbers r)
    (fun c hc => not_digit_of_space (r.rest_head c hc))
    { ProcList.zero with pid := r.pid, cmdline := b, state := r.state }
  refine ⟨_, hb.trans (hchar.trans hints), ?_⟩
  exact ⟨rfl, rfl, Int32.ofInt_toInt _, Int32.ofInt_toInt _, Int32.ofInt_toInt _,
    Int32.ofInt_toInt _, Int32.ofInt_toInt _, ofInt_toNat _, ofInt_toNat _, Int64.ofInt_toInt _,
    Int64.ofInt_toInt _, ofInt_toNat _, ofInt_toNat _, Int64.ofInt_toInt _⟩

/-! ### Names with white space -/

theorem keeps_rss : ∀ d ∈ numberArgs.map .int, Directive.Keeps ProcList.rss d := by
  refine List.forall_iff_forall_mem.mp ?_
  refine ⟨?_, ?_, ?_, ?_, ?_, ?_, ?_, ?_, ?_, ?_, ?_, ?_, ?_, ?_, ?_, ?_, ?_, ?_, ?_, ?_⟩
  all_goals rintro a ⟨⟩ <;> exact fun _ _ => rfl

/-- The part of a name in front of its first white space. -/
theorem Comm.exists_split {comm : Comm} (h : ¬comm.Solid) :
    ∃ s c w, comm.bytes = s ++ c :: w ∧ (∀ a ∈ s, isSpace a = false) ∧ isSpace c = true := by
  have hne : comm.bytes.dropWhile (!isSpace ·) ≠ [] := by
    refine fun hnil => h fun c hc => ?_
    simpa using List.dropWhile_eq_nil_iff.mp hnil c hc
  obtain ⟨c, w, hw⟩ := List.exists_cons_of_ne_nil hne
  refine ⟨comm.bytes.takeWhile (!isSpace ·), c, w, ?_, fun a ha => ?_, ?_⟩
  · rw [← hw, List.takeWhile_append_dropWhile]
  · simpa using List.mem_takeWhile_imp ha
  · simpa [hw] using List.head_dropWhile_not (!isSpace ·) hne

/-- Twenty numbers are asked for before `rss`, so it is not reached when a character that is in no
number comes too early. -/
theorem rss_of_stop {c : UInt8} {u v : List UInt8} {m p : ProcList} (hm : m.rss = 0)
    (hc : isSpace c = false ∧ isDigit c = false ∧ isSign c = false) (hu : u.length < 20)
    (hscan : scanf (numberArgs.map .int ++ [.int rssArg]) (u ++ c :: v) m = .ok p) :
    p.rss = 0 := by
  rw [scanf_ints_stop hc.1 hc.2.1 hc.2.2 hu] at hscan
  rw [scanf_keeps keeps_rss hscan, hm]

/-- Behind white space in the name the conversions end in front of its parenthesis or of the
state, whose characters are no numbers. -/
theorem rss_of_not_solid {r : StatRecord} {p : ProcList} (h : ¬r.comm.Solid)
    (hp : scanStat r.text = .ok p) : p.rss = 0 := by
  obtain ⟨s, c, w, hbytes, hs, hc⟩ := Comm.exists_split h
  have hlen := r.comm.length_le
  rw [hbytes, List.length_append, List.length_cons] at hlen
  obtain ⟨b, hb⟩ := scanStat_word r s ((c :: w) ++ rightParen :: blank :: r.state ::
      (r.numbers.flatMap (blank :: decimal ·) ++ r.rest)) hs (by omega) (by simpa using hc)
    (by simp [StatRecord.text, hbytes])
  rw [hb, stateFormat, scanf, dropWhile_append_stop (by rfl)] at hp
  have hdrop := List.length_dropWhile_le isSpace (c :: w)
  rw [List.length_cons] at hdrop
  cases hv : (c :: w).dropWhile isSpace with
  | nil =>
    -- the state conversion takes the parenthesis
    rw [hv] at hp
    have hstop : [blank].length < 20 := by decide
    exact rss_of_stop rfl (not_space_of_letter r.state_letter) hstop hp
  | cons a v =>
    rw [hv] at hp hdrop
    rw [List.length_cons] at hdrop
    have hparen : isSpace rightParen = false ∧ isDigit rightParen = false ∧
        isSign rightParen = false := ⟨rfl, rfl, rfl⟩
    exact rss_of_stop rfl hparen (by omega : v.length < 20) hp

theorem not_decodes_of_rss {r : StatRecord} (h : ¬r.comm.Solid) (hrss : r.rss ≠ 0) :
    ¬Decodes r := by
  rintro ⟨p, hp, hstores⟩
  exact hrss (hstores.rss.symm.trans (rss_of_not_solid h hp))

def sleeping (comm : Comm) : StatRecord where
  pid := 1
  comm := comm
  state := 83
  ppid := 0
  pgrp := 1
  session := 1
  ttyNr := 0
  tpgid := -1
  flags := 0
  minflt := 0
  cminflt := 0
  majflt := 0
  cmajflt := 0
  utime := 0
  stime := 0
  cutime := 0
  cstime := 0
  priority := 20
  nice := 0
  numThreads := 1
  itrealvalue := 0
  starttime := 0
  vsize := 4096
  rss := 1
  rest := [blank]
  state_letter := rfl
  rest_head := by simp [isSpace, blank]

/-- The records with a name are decoded, whatever their numbers are, exactly if there is no white
space in the name. With white space only a record of a process without resident pages can be
decoded, by chance. -/
theorem decodes_iff_solid (comm : Comm) :
    ((∀ r : StatRecord, r.comm = comm → Decodes r) ↔ comm.Solid) ∧
      ∀ r : StatRecord, r.comm = comm → r.rss ≠ 0 → (Decodes r ↔ comm.Solid) := by
  have hrss : ∀ r : StatRecord, r.comm = comm → r.rss ≠ 0 → (Decodes r ↔ comm.Solid) := by
    rintro r rfl hrss
    exact ⟨fun hd => by_contra fun hs => not_decodes_of_rss hs hrss hd, decodes_of_solid⟩
  refine ⟨⟨fun h => ?_, ?_⟩, hrss⟩
  · exact (hrss (sleeping comm) rfl (by decide : (1 : Int64) ≠ 0)).mp (h _ rfl)
  · rintro hs r rfl
    exact decodes_of_solid hs

def bash : Comm where
  bytes := [98, 97, 115, 104]
  length_le := by decide
  nonzero := by decide

theorem decodes_bash : Decodes { sleeping bash with ppid := 812, nice := -5 } := by
  have hsolid : bash.Solid := by simp [Comm.Solid, bash, isSpace]
  exact (decodes_iff_solid bash).1.mpr hsolid _ rfl

def tmux : Comm where
  bytes := [116, 109, 117, 120, 58, 32, 115, 101, 114, 118, 101, 114]
  length_le := by decide
  nonzero := by decide

def tmuxServer : StatRecord :=
  { sleeping tmux with
    pid := 812, ppid := 1, pgrp := 812, session := 812, utime := 37, rss := 1290 }

/-- The state is then a letter of the name and the parent is missing. -/
theorem name_shifts_fields : tmuxServer.ppid = 1 ∧
    (scanStat tmuxServer.text).map (fun p => (p.pid, p.state, p.ppid)) = .ok (812, 115, 0) ∧
    ¬Decodes tmuxServer := by
  have hscan : (scanStat tmuxServer.text).map (fun p => (p.pid, p.state, p.ppid)) =
      .ok (812, 115, 0) := by decide +kernel
  refine ⟨rfl, hscan, ?_⟩
  rintro ⟨p, hp, hstores⟩
  rw [hp] at hscan
  have hppid : p.ppid = 0 := congrArg (·.2.2) (Except.ok.inj hscan)
  rw [hstores.ppid] at hppid
  exact absurd hppid (by decide)

end SsuOs.Ps
