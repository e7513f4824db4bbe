import Mathlib.Data.List.Forall2
import SsuOs.Lib.CString
import SsuOs.Lib.Words

/-! How `ssu_shell.c` cuts a line into tokens, joins the tokens into commands and cuts each
command again before it runs. -/
namespace SsuOs.Shell
open Lib CString

def maxTokenSize : ℕ := 64
def maxTokenNum : ℕ := 64
def maxCommandNum : ℕ := 64
def commandSize : ℕ := 1024

def space : UInt8 := ' '.toUInt8
def newline : UInt8 := '\n'.toUInt8
def tab : UInt8 := '\t'.toUInt8
def bar : List UInt8 := ['|'.toUInt8]

def isBlank (c : UInt8) : Bool := c == space || c == newline || c == tab

/-- What `malloc` finds in the `k`-th string block that one call asks for. -/
abbrev Junk := ℕ → ℕ → UInt8

/-! ### `tokenize` -/

/-- `tokenNo` is the number of entries written to `tokens`. -/
structure TokenizeState where
  token : Buffer
  tokenIndex : ℕ
  tokens : List Buffer

def tokenizeStep (junk : Junk) (st : TokenizeState) (readChar : UInt8) :
    Except BufferFault TokenizeState :=
  if isBlank readChar then do
    let token ← store st.token st.tokenIndex 0
    if st.tokenIndex ≠ 0 then do
      let copy ← strcpy (malloc (junk (st.tokens.length + 1)) maxTokenSize) token
      let tokens ← push maxTokenNum st.tokens copy
      .ok { token, tokenIndex := 0, tokens }
    else .ok { st with token }
  else do
    let token ← store st.token st.tokenIndex readChar
    .ok { st with token, tokenIndex := st.tokenIndex + 1 }

def tokenize (junk : Junk) (line : Buffer) : Except BufferFault (List Buffer) := do
  let n ← strlen line
  let st ← (line.take n).foldlM (tokenizeStep junk)
    { token := malloc (junk 0) maxTokenSize, tokenIndex := 0, tokens := [] }
  terminate maxTokenNum st.tokens

/-- The words `ts` are stored, `w` is being read and `s` is the rest of the line. The line ends
in a blank, so that no word is left in `token` at the end. -/
structure Reading (T ts : List (List UInt8)) (w s : List UInt8) (st : TokenizeState) : Prop where
  size : st.token.length = maxTokenSize
  token : w <+: st.token
  tokenIndex : st.tokenIndex = w.length
  tokens : List.Forall₂ Holds st.tokens ts
  notBlank : ∀ c ∈ w, isBlank c = false
  nonzero : 0 ∉ w ++ s
  ends : ∀ c, (w ++ s).getLast? = some c → isBlank c = true
  remaining : ts ++ words isBlank (w ++ s) = T

structure TokensFit (T : List (List UInt8)) : Prop where
  token : ∀ t ∈ T, t.length < maxTokenSize
  tokens : T.length < maxTokenNum

namespace Reading

variable (junk : Junk) {T ts : List (List UInt8)} {w s : List UInt8} {c : UInt8}
  {st : TokenizeState}

theorem isWord_snoc (h : Reading T ts w (c :: s) st) (hc : isBlank c = false) :
    IsWord isBlank (w ++ [c]) := by
  refine ⟨by simp, fun a ha => ?_⟩
  rcases List.mem_append.mp ha with ha | ha
  · exact h.notBlank a ha
  · rwa [List.mem_singleton.mp ha]

theorem room_char (hT : TokensFit T) (h : Reading T ts w (c :: s) st) (hc : isBlank c = false) :
    w.length < maxTokenSize := by
  obtain ⟨u, hu, hp⟩ := (h.isWord_snoc hc).exists_isPrefix s
  have hmem : u ∈ T := by
    rw [← h.remaining, List.append_cons]
    exact List.mem_append_right ts hu
  have hle : (w ++ [c]).length ≤ u.length := hp.length_le
  rw [List.length_append, List.length_singleton] at hle
  have := hT.token u hmem
  omega

theorem step_char (hroom : w.length < maxTokenSize) (h : Reading T ts w (c :: s) st)
    (hc : isBlank c = false) :
    ∃ st', tokenizeStep junk st c = .ok st' ∧ Reading T ts (w ++ [c]) s st' := by
  have hsplit : w ++ c :: s = (w ++ [c]) ++ s := List.append_cons w c s
  obtain ⟨b, hb, hp, hsize⟩ := store_of_isPrefix c h.token (by rwa [h.size])
  refine ⟨{ st with token := b, tokenIndex := w.length + 1 }, ?_, hsize.trans h.size, hp, by simp,
    h.tokens, (h.isWord_snoc hc).not_sep, hsplit ▸ h.nonzero, hsplit ▸ h.ends,
    hsplit ▸ h.remaining⟩
  rw [tokenizeStep, if_neg (by simp [hc]), h.tokenIndex, hb, ok_bind]

theorem ends_of_blank (h : Reading T ts w (c :: s) st) :
    ∀ a, s.getLast? = some a → isBlank a = true := by
  intro a ha
  refine h.ends a ?_
  rw [List.getLast?_append, List.getLast?_cons, ha]
  rfl

theorem step_blank (h : Reading T ts [] (c :: s) st) (hc : isBlank c = true) :
    ∃ st', tokenizeStep junk st c = .ok st' ∧ Reading T ts [] s st' := by
  obtain ⟨b, hb, -, hsize⟩ := store_of_isPrefix 0 h.token (by rw [h.size]; decide)
  refine ⟨{ st with token := b }, ?_, hsize.trans h.size, List.nil_prefix, h.tokenIndex, h.tokens,
    by simp, ?_, h.ends_of_blank, ?_⟩
  · rw [tokenizeStep, if_pos hc, h.tokenIndex, hb, ok_bind, if_neg (by simp)]
  · exact fun hz => h.nonzero (List.mem_cons_of_mem c hz)
  · rw [← h.remaining, List.nil_append, List.nil_append, words_cons hc]

theorem words_end (h : Reading T ts w (c :: s) st) (hc : isBlank c = true) (hw : w ≠ []) :
    ts ++ w :: words isBlank s = T := by
  rw [← h.remaining, words_append_cons hc, IsWord.words_eq ⟨hw, h.notBlank⟩,
    List.singleton_append]

theorem step_end (hroom : w.length < maxTokenSize) (hnum : st.tokens.length < maxTokenNum)
    (h : Reading T ts w (c :: s) st) (hc : isBlank c = true) (hw : w ≠ []) :
    ∃ st', tokenizeStep junk st c = .ok st' ∧ Reading T (ts ++ [w]) [] s st' := by
  have hwords := h.words_end hc hw
  have hz : 0 ∉ w := fun hz => h.nonzero (List.mem_append_left _ hz)
  obtain ⟨b, hb, hp, hsize⟩ := store_of_isPrefix 0 h.token (by rwa [h.size])
  obtain ⟨copy, hcopy, hholds⟩ := Holds.strcpy ⟨hz, hp⟩
    (malloc (junk (st.tokens.length + 1)) maxTokenSize) (by rwa [length_malloc])
  refine ⟨⟨b, 0, st.tokens ++ [copy]⟩, ?_, hsize.trans h.size, List.nil_prefix, rfl,
    List.rel_append h.tokens (.cons hholds .nil), by simp, ?_, h.ends_of_blank, by simpa⟩
  · rw [tokenizeStep, if_pos hc, h.tokenIndex, hb, ok_bind, if_pos (by simpa using hw), hcopy,
      ok_bind, push_of_lt copy hnum, ok_bind]
  · exact fun hz => h.nonzero (List.mem_append_right w (List.mem_cons_of_mem c hz))

theorem step (hT : TokensFit T) (h : Reading T ts w (c :: s) st) :
    ∃ st', tokenizeStep junk st c = .ok st' ∧ ∃ ts' w', Reading T ts' w' s st' := by
  cases hc : isBlank c with
  | false =>
    obtain ⟨st', hst', h'⟩ := h.step_char junk (h.room_char hT hc) hc
    exact ⟨st', hst', _, _, h'⟩
  | true =>
    by_cases hw : w = []
    · subst hw
      obtain ⟨st', hst', h'⟩ := h.step_blank junk hc
      exact ⟨st', hst', _, _, h'⟩
    · have hwords := h.words_end hc hw
      have hnum : st.tokens.length < maxTokenNum := by
        have := hT.tokens
        rw [← hwords, List.length_append, List.length_cons] at this
        rw [h.tokens.length_eq]
        omega
      obtain ⟨st', hst', h'⟩ := h.step_end junk (hT.token w (by rw [← hwords]; simp)) hnum hc hw
      exact ⟨st', hst', _, _, h'⟩

theorem step_of_ok {st' : TokenizeState} (h : Reading T ts w (c :: s) st)
    (hts : ∀ t ∈ ts, t.length < maxTokenSize) (hst' : tokenizeStep junk st c = .ok st') :
    ∃ ts' w', Reading T ts' w' s st' ∧ ∀ t ∈ ts', t.length < maxTokenSize := by
  cases hc : isBlank c with
  | false =>
    have hroom : w.length < maxTokenSize := by
      rw [tokenizeStep, if_neg (by simp [hc])] at hst'
      obtain ⟨b, hb, -⟩ := bind_eq_ok.mp hst'
      have := lt_of_store_eq_ok hb
      rwa [h.tokenIndex, h.size] at this
    obtain ⟨st₁, hst₁, h'⟩ := h.step_char junk hroom hc
    obtain rfl := ok_unique hst₁ hst'
    exact ⟨_, _, h', hts⟩
  | true =>
    by_cases hw : w = []
    · subst hw
      obtain ⟨st₁, hst₁, h'⟩ := h.step_blank junk hc
      obtain rfl := ok_unique hst₁ hst'
      exact ⟨_, _, h', hts⟩
    · have hroom : w.length < maxTokenSize ∧ st.tokens.length < maxTokenNum := by
        rw [tokenizeStep, if_pos hc] at hst'
        obtain ⟨b, hb, hst'⟩ := bind_eq_ok.mp hst'
        rw [if_pos (by rw [h.tokenIndex]; simpa using hw)] at hst'
        obtain ⟨copy, -, hst'⟩ := bind_eq_ok.mp hst'
        obtain ⟨tokens, htokens, -⟩ := bind_eq_ok.mp hst'
        have := lt_of_store_eq_ok hb
        rw [h.tokenIndex, h.size] at this
        exact ⟨this, lt_of_push_eq_ok htokens⟩
      obtain ⟨st₁, hst₁, h'⟩ := h.step_end junk hroom.1 hroom.2 hc hw
      obtain rfl := ok_unique hst₁ hst'
      exact ⟨_, _, h', List.forall_mem_append.mpr ⟨hts, by simpa using hroom.1⟩⟩

theorem finish (h : Reading T ts w [] st) : ts = T := by
  have hnil : w = [] := by
    by_contra hne
    have hlast := h.ends (w.getLast hne)
      (by rw [List.append_nil, List.getLast?_eq_some_getLast])
    rw [h.notBlank _ (List.getLast_mem hne)] at hlast
    simp at hlast
  have hT := h.remaining
  rwa [hnil, List.append_nil, words_nil, List.append_nil] at hT

end Reading

section Tokenize

variable (junk : Junk) {line : Buffer} {s : List UInt8} (hline : Holds line s)
  (hend : ∀ c, s.getLast? = some c → isBlank c = true)
include hline hend

theorem reading_start : Reading (words isBlank s) [] [] s
    { token := malloc (junk 0) maxTokenSize, tokenIndex := 0, tokens := [] } :=
  ⟨length_malloc _ _, List.nil_prefix, rfl, .nil, by simp, hline.nonzero, hend, rfl⟩

theorem tokenize_words (hT : TokensFit (words isBlank s)) :
    ∃ tokens, tokenize junk line = .ok tokens ∧
      List.Forall₂ Holds tokens (words isBlank s) := by
  obtain ⟨st, hst, ts, w, h⟩ := foldlM_ok
    (fun s st => ∃ ts w, Reading (words isBlank _) ts w s st)
    (fun c s st ⟨ts, w, h⟩ => h.step junk hT) ⟨[], [], reading_start junk hline hend⟩
  obtain rfl := h.finish
  refine ⟨st.tokens, ?_, h.tokens⟩
  rw [tokenize, hline.strlen_eq, ok_bind, hline.take_eq, hst, ok_bind, terminate_of_lt]
  rw [h.tokens.length_eq]
  exact hT.tokens

theorem tokensFit_of_tokenize {tokens : List Buffer} (htok : tokenize junk line = .ok tokens) :
    TokensFit (words isBlank s) := by
  rw [tokenize, hline.strlen_eq, ok_bind, hline.take_eq] at htok
  obtain ⟨st, hst, hterm⟩ := bind_eq_ok.mp htok
  obtain ⟨ts, w, h, hts⟩ := foldlM_inv
    (fun s' st => ∃ ts w, Reading (words isBlank s) ts w s' st ∧ ∀ t ∈ ts, t.length < maxTokenSize)
    (by
      rintro c s' st st' ⟨ts, w, h, hts⟩ hst'
      exact h.step_of_ok junk hts hst')
    ⟨[], [], reading_start junk hline hend, by simp⟩ hst
  have hlt := lt_of_terminate_eq_ok hterm
  obtain rfl := h.finish
  rw [h.tokens.length_eq] at hlt
  exact ⟨hts, hlt⟩

end Tokenize

/-! ### `merge_to_command` -/

structure MergeState where
  command : Buffer
  commands : List Buffer

/-- Copies `command` to the next entry of `commands`. -/
def emit (junk : Junk) (st : MergeState) : Except BufferFault (List Buffer) := do
  let copy ← strcpy (malloc (junk st.commands.length) commandSize) st.command
  push maxCommandNum st.commands copy

def cleared : Buffer := List.replicate commandSize 0

def mergeStep (junk : Junk) (st : MergeState) (token : Buffer) :
    Except BufferFault MergeState := do
  let order ← strcmp token (bar ++ [0])
  if order = .eq then do
    let commands ← emit junk st
    .ok { command := cleared, commands }
  else do
    let command ← strcat st.command token
    let command ← strcat command [space, 0]
    .ok { st with command }

def mergeToCommand (junk : Junk) (tokens : List Buffer) : Except BufferFault (List Buffer) := do
  let st ← tokens.foldlM (mergeStep junk) { command := cleared, commands := [] }
  let commands ← emit junk st
  terminate maxCommandNum commands

def joined (ts : List (List UInt8)) : List UInt8 := ts.flatMap (· ++ [space])

/-- The commands that the tokens make when `c` is joined already. -/
def commandsFrom (c : List UInt8) : List (List UInt8) → List (List UInt8)
  | [] => [c]
  | t :: ts => if t = bar then c :: commandsFrom [] ts else commandsFrom (c ++ (t ++ [space])) ts

theorem commandsFrom_eq_modifyHead (c : List UInt8) (ts : List (List UInt8)) :
    commandsFrom c ts = ((ts.splitOn bar).map joined).modifyHead (c ++ ·) := by
  induction ts generalizing c with
  | nil => simp [commandsFrom, joined]
  | cons t ts ih =>
    rw [commandsFrom, List.splitOn_cons_eq_if_modifyHead]
    obtain ⟨u, us, hus⟩ := List.exists_cons_of_ne_nil (List.splitOn_ne_nil bar ts)
    by_cases ht : t = bar
    · rw [if_pos ht, if_pos (by simpa using ht), ih, hus]
      simp [joined]
    · rw [if_neg ht, if_neg (by simpa using ht), ih, hus]
      simp [joined]

theorem commandsFrom_nil (ts : List (List UInt8)) :
    commandsFrom [] ts = (ts.splitOn bar).map joined := by
  rw [commandsFrom_eq_modifyHead]
  obtain ⟨u, us, hus⟩ := List.exists_cons_of_ne_nil (List.splitOn_ne_nil bar ts)
  simp [hus]

theorem exists_isPrefix_commandsFrom (c : List UInt8) (ts : List (List UInt8)) :
    ∃ u ∈ commandsFrom c ts, c <+: u := by
  obtain ⟨u, us, hus⟩ := List.exists_cons_of_ne_nil (List.splitOn_ne_nil bar ts)
  refine ⟨c ++ joined u, ?_, List.prefix_append _ _⟩
  simp [commandsFrom_eq_modifyHead, hus]

structure CommandsFit (C : List (List UInt8)) : Prop where
  command : ∀ c ∈ C, c.length < commandSize
  commands : C.length < maxCommandNum

/-- The commands `cs` are stored, `c` is being joined and `tokens` are left. -/
structure Joining (C cs : List (List UInt8)) (c : List UInt8) (tokens : List Buffer)
    (ts : List (List UInt8)) (st : MergeState) : Prop where
  size : st.command.length = commandSize
  command : Holds st.command c
  commands : List.Forall₂ Holds st.commands cs
  tokens : List.Forall₂ Holds tokens ts
  remaining : cs ++ commandsFrom c ts = C

theorem holds_bar : Holds (bar ++ [0]) bar := ⟨by decide, List.prefix_rfl⟩

theorem holds_space : Holds [space, 0] [space] := ⟨by decide, List.prefix_rfl⟩

theorem holds_cleared : Holds cleared [] := by
  rw [cleared, commandSize, List.replicate_succ]
  exact .append_zero List.not_mem_nil _

namespace Joining

variable (junk : Junk) {C cs ts : List (List UInt8)} {c t : List UInt8} {token : Buffer}
  {tokens : List Buffer} {st : MergeState}

theorem emit (hnum : st.commands.length < maxCommandNum) (h : Joining C cs c tokens ts st) :
    ∃ commands, Shell.emit junk st = .ok commands ∧ List.Forall₂ Holds commands (cs ++ [c]) := by
  have hroom : c.length < commandSize := h.size ▸ h.command.length_lt
  obtain ⟨copy, hcopy, hholds⟩ := h.command.strcpy
    (malloc (junk st.commands.length) commandSize) (by rwa [length_malloc])
  refine ⟨st.commands ++ [copy], ?_, List.rel_append h.commands (.cons hholds .nil)⟩
  rw [Shell.emit, hcopy, ok_bind, push_of_lt copy hnum]

theorem num_of_emit {commands : List Buffer} (hst : Shell.emit junk st = .ok commands) :
    st.commands.length < maxCommandNum := by
  unfold Shell.emit at hst
  obtain ⟨copy, -, hpush⟩ := bind_eq_ok.mp hst
  exact lt_of_push_eq_ok hpush

theorem num_of_isPrefix (hC : CommandsFit C) (h : Joining C cs c tokens ts st)
    (hc : cs ++ [c] <+: C) : st.commands.length < maxCommandNum := by
  have hle : (cs ++ [c]).length ≤ C.length := hc.length_le
  rw [List.length_append, List.length_singleton] at hle
  have := hC.commands
  rw [h.commands.length_eq]
  omega

theorem step_bar (hnum : st.commands.length < maxCommandNum)
    (h : Joining C cs c (token :: tokens) (bar :: ts) st) :
    ∃ st', mergeStep junk st token = .ok st' ∧ Joining C (cs ++ [c]) [] tokens ts st' := by
  have hC' : cs ++ c :: commandsFrom [] ts = C := by
    rw [← h.remaining, commandsFrom, if_pos rfl]
  obtain ⟨htoken, htokens⟩ := List.forall₂_cons.mp h.tokens
  obtain ⟨order, horder, heq⟩ := htoken.strcmp_eq holds_bar
  obtain ⟨commands, hcommands, hholds⟩ := h.emit junk hnum
  refine ⟨⟨cleared, commands⟩, ?_, List.length_replicate, holds_cleared, hholds, htokens, by simpa⟩
  rw [mergeStep, horder, ok_bind, if_pos (heq.mpr rfl), hcommands, ok_bind]

theorem step_token (hroom : c.length + (t.length + 1) < commandSize)
    (h : Joining C cs c (token :: tokens) (t :: ts) st) (ht : t ≠ bar) :
    ∃ st', mergeStep junk st token = .ok st' ∧
      Joining C cs (c ++ (t ++ [space])) tokens ts st' := by
  have hC' : cs ++ commandsFrom (c ++ (t ++ [space])) ts = C := by
    rw [← h.remaining, commandsFrom, if_neg ht]
  obtain ⟨htoken, htokens⟩ := List.forall₂_cons.mp h.tokens
  obtain ⟨order, horder, heq⟩ := htoken.strcmp_eq holds_bar
  obtain ⟨b₁, hb₁, hholds₁, hsize₁⟩ := h.command.strcat htoken (by rw [h.size]; omega)
  obtain ⟨b₂, hb₂, hholds₂, hsize₂⟩ := hholds₁.strcat holds_space (by
    rw [hsize₁, h.size, List.length_append, List.length_singleton]
    omega)
  rw [List.append_assoc] at hholds₂
  refine ⟨⟨b₂, st.commands⟩, ?_, (hsize₂.trans hsize₁).trans h.size, hholds₂, h.commands, htokens,
    hC'⟩
  rw [mergeStep, horder, ok_bind, if_neg (mt heq.mp ht), hb₁, ok_bind, hb₂, ok_bind]

theorem room_token (hC : CommandsFit C) (h : Joining C cs c (token :: tokens) (t :: ts) st)
    (ht : t ≠ bar) : c.length + (t.length + 1) < commandSize := by
  obtain ⟨u, hu, hp⟩ := exists_isPrefix_commandsFrom (c ++ (t ++ [space])) ts
  have hmem : u ∈ C := by
    rw [← h.remaining, commandsFrom, if_neg ht]
    exact List.mem_append_right cs hu
  have hle := hp.length_le
  have := hC.command u hmem
  simp only [List.length_append, List.length_singleton] at hle
  omega

theorem step (hC : CommandsFit C) (h : Joining C cs c (token :: tokens) ts st) :
    ∃ st', mergeStep junk st token = .ok st' ∧ ∃ cs' c' ts', Joining C cs' c' tokens ts' st' := by
  obtain ⟨t, ts, -, -, rfl⟩ := List.forall₂_cons_left_iff.mp h.tokens
  by_cases ht : t = bar
  · subst ht
    have hC' := h.remaining
    rw [commandsFrom, if_pos rfl] at hC'
    obtain ⟨st', hst', h'⟩ := h.step_bar junk
      (h.num_of_isPrefix hC ⟨commandsFrom [] ts, by rw [← hC']; simp⟩)
    exact ⟨st', hst', _, _, _, h'⟩
  · obtain ⟨st', hst', h'⟩ := h.step_token junk (h.room_token hC ht) ht
    exact ⟨st', hst', _, _, _, h'⟩

theorem step_of_ok {st' : MergeState} (h : Joining C cs c (token :: tokens) ts st)
    (hcs : ∀ c ∈ cs, c.length < commandSize) (hst' : mergeStep junk st token = .ok st') :
    ∃ cs' c' ts', Joining C cs' c' tokens ts' st' ∧ ∀ c ∈ cs', c.length < commandSize := by
  obtain ⟨t, ts, htoken, -, rfl⟩ := List.forall₂_cons_left_iff.mp h.tokens
  obtain ⟨order, horder, heq⟩ := htoken.strcmp_eq holds_bar
  have hok := hst'
  rw [mergeStep, horder, ok_bind] at hok
  by_cases ht : t = bar
  · subst ht
    rw [if_pos (heq.mpr rfl)] at hok
    obtain ⟨commands, hcommands, -⟩ := bind_eq_ok.mp hok
    obtain ⟨st₁, hst₁, h'⟩ := h.step_bar junk (num_of_emit junk hcommands)
    obtain rfl := ok_unique hst₁ hst'
    have hlast : c.length < commandSize := h.size ▸ h.command.length_lt
    exact ⟨_, _, _, h', List.forall_mem_append.mpr ⟨hcs, by simpa using hlast⟩⟩
  · rw [if_neg (mt heq.mp ht)] at hok
    obtain ⟨b₁, hb₁, hok⟩ := bind_eq_ok.mp hok
    obtain ⟨b₂, hb₂, -⟩ := bind_eq_ok.mp hok
    have hlt := h.command.lt_of_strcat_eq_ok htoken hb₁
    obtain ⟨b, hb, hholds, hsize⟩ := h.command.strcat htoken hlt
    obtain rfl := ok_unique hb hb₁
    have hroom := hholds.lt_of_strcat_eq_ok holds_space hb₂
    rw [hsize, h.size, List.length_append, List.length_singleton] at hroom
    obtain ⟨st₁, hst₁, h'⟩ := h.step_token junk (by omega) ht
    obtain rfl := ok_unique hst₁ hst'
    exact ⟨_, _, _, h', hcs⟩

theorem finish (h : Joining C cs c [] ts st) : cs ++ [c] = C := by
  have hremaining := h.remaining
  rwa [List.forall₂_nil_left_iff.mp h.tokens, commandsFrom] at hremaining

end Joining

section Merge

variable (junk : Junk) {tokens : List Buffer} {ts : List (List UInt8)}
  (htokens : List.Forall₂ Holds tokens ts)
include htokens

theorem joining_start : Joining ((ts.splitOn bar).map joined) [] [] tokens ts
    { command := cleared, commands := [] } :=
  ⟨List.length_replicate, holds_cleared, .nil, htokens, commandsFrom_nil ts⟩

theorem mergeToCommand_joined (hC : CommandsFit ((ts.splitOn bar).map joined)) :
    ∃ commands, mergeToCommand junk tokens = .ok commands ∧
      List.Forall₂ Holds commands ((ts.splitOn bar).map joined) := by
  obtain ⟨st, hst, cs, c, ts', h⟩ := foldlM_ok
    (fun tokens st => ∃ cs c ts', Joining ((ts.splitOn bar).map joined) cs c tokens ts' st)
    (fun token tokens st ⟨cs, c, ts', h⟩ => h.step junk hC) ⟨[], [], ts, joining_start htokens⟩
  have hlast := h.finish
  obtain ⟨commands, hcommands, hholds⟩ := h.emit junk
    (h.num_of_isPrefix hC (hlast ▸ List.prefix_rfl))
  rw [hlast] at hholds
  refine ⟨commands, ?_, hholds⟩
  rw [mergeToCommand, hst, ok_bind, hcommands, ok_bind, terminate_of_lt]
  rw [hholds.length_eq]
  exact hC.commands

theorem commandsFit_of_mergeToCommand {commands : List Buffer}
    (hmerge : mergeToCommand junk tokens = .ok commands) :
    CommandsFit ((ts.splitOn bar).map joined) := by
  rw [mergeToCommand] at hmerge
  obtain ⟨st, hst, hmerge⟩ := bind_eq_ok.mp hmerge
  obtain ⟨commands', hemit, hterm⟩ := bind_eq_ok.mp hmerge
  obtain ⟨cs, c, ts', h, hcs⟩ := foldlM_inv
    (fun tokens st => ∃ cs c ts', Joining ((ts.splitOn bar).map joined) cs c tokens ts' st ∧
      ∀ c ∈ cs, c.length < commandSize)
    (by
      rintro token tokens st st' ⟨cs, c, ts', h, hcs⟩ hst'
      exact h.step_of_ok junk hcs hst')
    ⟨[], [], ts, joining_start htokens, by simp⟩ hst
  obtain ⟨commands₁, hcommands, hholds⟩ := h.emit junk (Joining.num_of_emit junk hemit)
  obtain rfl := ok_unique hcommands hemit
  have hlast : c.length < commandSize := h.size ▸ h.command.length_lt
  have hlt := lt_of_terminate_eq_ok hterm
  rw [hholds.length_eq] at hlt
  rw [← h.finish]
  exact ⟨List.forall_mem_append.mpr ⟨hcs, by simpa using hlast⟩, hlt⟩

end Merge

/-! ### Cutting the commands again -/

theorem words_joined {ts : List (List UInt8)} (h : ∀ t ∈ ts, IsWord isBlank t) :
    words isBlank (joined ts) = ts := words_flatMap rfl h

theorem isBlank_getLast_joined (ts : List (List UInt8)) :
    ∀ c, (joined ts).getLast? = some c → isBlank c = true := by
  intro c hc
  rcases List.eq_nil_or_concat ts with rfl | ⟨ts, t, rfl⟩
  · simp [joined] at hc
  · simp [joined] at hc
    rw [← hc]
    rfl

/-- The limits of the shell for a line with the tokens `T`. -/
structure WithinLimits (T : List (List UInt8)) : Prop where
  tokens : TokensFit T
  commands : CommandsFit ((T.splitOn bar).map joined)

theorem TokensFit.of_segment {T seg : List (List UInt8)} (h : TokensFit T)
    (hseg : seg ∈ T.splitOn bar) : TokensFit seg := by
  have hsub : seg.Sublist T := sublist_of_mem_splitOn hseg
  exact ⟨fun t ht => h.token t (hsub.subset ht), Nat.lt_of_le_of_lt hsub.length_le h.tokens⟩

theorem tokenize_joined {T seg : List (List UInt8)} {command : Buffer} (junk : Junk)
    (hT : TokensFit T) (hwords : ∀ t ∈ T, IsWord isBlank t) (hseg : seg ∈ T.splitOn bar)
    (hcommand : Holds command (joined seg)) :
    ∃ argv, tokenize junk command = .ok argv ∧ List.Forall₂ Holds argv seg := by
  have heq : words isBlank (joined seg) = seg :=
    words_joined fun t ht => hwords t ((sublist_of_mem_splitOn hseg).subset ht)
  have h := tokenize_words junk hcommand (isBlank_getLast_joined seg)
    (heq.symm ▸ hT.of_segment hseg)
  rwa [heq] at h

theorem isBlank_of_getLast {s : List UInt8} (hend : s.getLast? = some newline) :
    ∀ c, s.getLast? = some c → isBlank c = true := by
  intro c hc
  rw [hend] at hc
  cases hc
  rfl

/-- A line's tokens are joined into one command more than there are bars among them, and each
command is cut again into the tokens between two bars. -/
theorem parse_segments {line : Buffer} {s : List UInt8} (junk junk₁ : Junk)
    (hline : Holds line s) (hend : s.getLast? = some newline)
    (hT : WithinLimits (words isBlank s)) :
    ∃ tokens commands, tokenize junk line = .ok tokens ∧
      mergeToCommand junk₁ tokens = .ok commands ∧
      commands.length = (words isBlank s).count bar + 1 ∧
      List.Forall₂ (fun command seg => ∀ junk₂, ∃ argv, tokenize junk₂ command = .ok argv ∧
        List.Forall₂ Holds argv seg) commands ((words isBlank s).splitOn bar) := by
  obtain ⟨tokens, htokens, hholds⟩ :=
    tokenize_words junk hline (isBlank_of_getLast hend) hT.tokens
  obtain ⟨commands, hcommands, hjoined⟩ := mergeToCommand_joined junk₁ hholds hT.commands
  rw [List.forall₂_map_right_iff] at hjoined
  refine ⟨tokens, commands, htokens, hcommands, ?_, ?_⟩
  · rw [hjoined.length_eq, length_splitOn]
  · rw [List.forall₂_iff_zip] at hjoined ⊢
    refine ⟨hjoined.1, fun {command seg} hmem junk₂ => ?_⟩
    exact tokenize_joined junk₂ hT.tokens (fun t => isWord_of_mem_words) (List.of_mem_zip hmem).2
      (hjoined.2 hmem)

def exampleLine : List UInt8 := " ls | | wc \n".toList.map Char.toUInt8

theorem parse_segments_exampleLine :
    ∃ tokens commands, tokenize (fun _ _ => 1) (exampleLine ++ [0]) = .ok tokens ∧
      mergeToCommand (fun _ _ => 1) tokens = .ok commands ∧ commands.length = 3 ∧
      List.Forall₂ (fun command seg => ∀ junk₂, ∃ argv, tokenize junk₂ command = .ok argv ∧
        List.Forall₂ Holds argv seg) commands [[[108, 115]], [], [[119, 99]]] := by
  have hline : Holds (exampleLine ++ [0]) exampleLine := ⟨by decide, List.prefix_rfl⟩
  exact parse_segments _ _ hline (by decide) ⟨⟨by decide, by decide⟩, by decide, by decide⟩

end SsuOs.Shell
