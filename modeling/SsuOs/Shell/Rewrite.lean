import SsuOs.Shell.Parse

/-! What `main` does with a line between reading it and running its commands: `pps` and `ttop` are
renamed in the tokens before these are joined. -/
namespace SsuOs.Shell
open Lib CString

def pps : List UInt8 := "pps".toList.map Char.toUInt8
def ttop : List UInt8 := "ttop".toList.map Char.toUInt8
def dotPps : List UInt8 := "./pps".toList.map Char.toUInt8
def dotTtop : List UInt8 := "./ttop".toList.map Char.toUInt8

/-- The body of the loop over the tokens. -/
def rewriteToken (junk : ℕ → UInt8) (token : Buffer) : Except BufferFault Buffer := do
  let order ← strcmp token (pps ++ [0])
  if order = .eq then strcpy (realloc junk token 6) (dotPps ++ [0])
  else do
    let order ← strcmp token (ttop ++ [0])
    if order = .eq then strcpy (realloc junk token 7) (dotTtop ++ [0]) else .ok token

def parseLine (junk₁ junk₂ junk₃ : Junk) (line : Buffer) : Except BufferFault (List Buffer) := do
  let tokens ← tokenize junk₁ line
  let tokens ← mapRest (fun k => rewriteToken (junk₂ k)) tokens
  mergeToCommand junk₃ tokens

/-- The argument vectors that the stages of the pipeline pass to `execvp`. -/
def execVectors (junk₁ junk₂ junk₃ : Junk) (junk₄ : ℕ → Junk) (line : Buffer) :
    Except BufferFault (List (List Buffer)) := do
  let commands ← parseLine junk₁ junk₂ junk₃ line
  mapRest (fun k => tokenize (junk₄ k)) commands

/-- The string that `main` leaves in place of a token. -/
def rename (t : List UInt8) : List UInt8 :=
  if t = pps then dotPps else if t = ttop then dotTtop else t

theorem rename_eq_bar_iff (t : List UInt8) : rename t = bar ↔ t = bar := by
  unfold rename
  split_ifs with h₁ h₂
  · subst h₁
    decide
  · subst h₂
    decide
  · rfl

theorem rename_eq_self_iff (t : List UInt8) : rename t = t ↔ t ≠ pps ∧ t ≠ ttop := by
  unfold rename
  split_ifs with h₁ h₂
  · subst h₁
    decide
  · subst h₂
    decide
  · simp [h₁, h₂]

theorem isWord_of_all {w : List UInt8} (hne : w ≠ []) (h : w.all (!isBlank ·) = true) :
    IsWord isBlank w :=
  ⟨hne, by simpa using h⟩

theorem isWord_rename {t : List UInt8} (h : IsWord isBlank t) : IsWord isBlank (rename t) := by
  unfold rename
  split_ifs
  · exact isWord_of_all (by decide) (by decide)
  · exact isWord_of_all (by decide) (by decide)
  · exact h

theorem length_rename_lt {t : List UInt8} (h : t.length < maxTokenSize) :
    (rename t).length < maxTokenSize := by
  unfold rename
  split_ifs
  · decide
  · decide
  · exact h

theorem TokensFit.rename {T : List (List UInt8)} (h : TokensFit T) :
    TokensFit (T.map Shell.rename) := by
  refine ⟨fun t ht => ?_, by rw [List.length_map]; exact h.tokens⟩
  obtain ⟨u, hu, rfl⟩ := List.mem_map.mp ht
  exact length_rename_lt (h.token u hu)

theorem holds_append_zero {s : List UInt8} (h : 0 ∉ s) : Holds (s ++ [0]) s :=
  .append_zero h []

theorem rewriteToken_rename (junk : ℕ → UInt8) {token : Buffer} {t : List UInt8}
    (h : Holds token t) :
    ∃ token', rewriteToken junk token = .ok token' ∧ Holds token' (rename t) := by
  obtain ⟨o₁, ho₁, heq₁⟩ := h.strcmp_eq (holds_append_zero (s := pps) (by decide))
  obtain ⟨o₂, ho₂, heq₂⟩ := h.strcmp_eq (holds_append_zero (s := ttop) (by decide))
  rw [rewriteToken, ho₁, ok_bind, ho₂, ok_bind]
  unfold rename
  simp only [heq₁, heq₂]
  split_ifs
  · exact (holds_append_zero (by decide)).strcpy _ (by rw [length_realloc]; decide)
  · exact (holds_append_zero (by decide)).strcpy _ (by rw [length_realloc]; decide)
  · exact ⟨token, rfl, h⟩

/-- The first token of a command is renamed. -/
def renameFirst : List (List UInt8) → List (List UInt8)
  | [] => []
  | t :: ts => rename t :: ts

theorem map_rename_eq_renameFirst_iff (seg : List (List UInt8)) :
    seg.map rename = renameFirst seg ↔ ∀ t ∈ seg.tail, t ≠ pps ∧ t ≠ ttop := by
  cases seg with
  | nil => simp [renameFirst]
  | cons t ts =>
    rw [List.map_cons, renameFirst, List.cons_inj_right, List.tail_cons]
    simp only [← rename_eq_self_iff]
    simpa using List.map_inj_left (l := ts) (f := rename) (g := id)

section Line

variable (junk₁ junk₂ junk₃ : Junk) {line : Buffer} {s : List UInt8} (hline : Holds line s)
  (hend : s.getLast? = some newline)
include hline hend

theorem tokens_renamed (hT : TokensFit (words isBlank s)) :
    ∃ tokens tokens', tokenize junk₁ line = .ok tokens ∧
      mapRest (fun k => rewriteToken (junk₂ k)) tokens = .ok tokens' ∧
      List.Forall₂ Holds tokens' ((words isBlank s).map rename) := by
  obtain ⟨tokens, htokens, hholds⟩ := tokenize_words junk₁ hline (isBlank_of_getLast hend) hT
  obtain ⟨tokens', htokens', hholds'⟩ := mapRest_ok (S := fun b t => Holds b (rename t)) hholds
    fun k _ _ _ h => rewriteToken_rename (junk₂ k) h
  exact ⟨tokens, tokens', htokens, htokens', List.forall₂_map_right_iff.mpr hholds'⟩

theorem parseLine_joined (hT : TokensFit (words isBlank s))
    (hC : CommandsFit ((((words isBlank s).map rename).splitOn bar).map joined)) :
    ∃ commands, parseLine junk₁ junk₂ junk₃ line = .ok commands ∧
      List.Forall₂ Holds commands ((((words isBlank s).map rename).splitOn bar).map joined) := by
  obtain ⟨tokens, tokens', htokens, htokens', hholds⟩ := tokens_renamed junk₁ junk₂ hline hend hT
  obtain ⟨commands, hcommands, hjoined⟩ := mergeToCommand_joined junk₃ hholds hC
  exact ⟨commands, by rw [parseLine, htokens, ok_bind, htokens', ok_bind, hcommands], hjoined⟩

theorem tokensFit_of_parseLine {commands : List Buffer}
    (hparse : parseLine junk₁ junk₂ junk₃ line = .ok commands) : TokensFit (words isBlank s) := by
  rw [parseLine] at hparse
  obtain ⟨tokens, htokens, -⟩ := bind_eq_ok.mp hparse
  exact tokensFit_of_tokenize junk₁ hline (isBlank_of_getLast hend) htokens

/-- A line is cut, renamed and joined without leaving a buffer exactly if its tokens fit their
buffers as they are read, and the commands theirs as they are renamed. -/
theorem parseLine_ok_iff :
    (∃ commands, parseLine junk₁ junk₂ junk₃ line = .ok commands) ↔
      TokensFit (words isBlank s) ∧
        CommandsFit ((((words isBlank s).map rename).splitOn bar).map joined) := by
  constructor
  · rintro ⟨commands, hparse⟩
    have hT := tokensFit_of_parseLine junk₁ junk₂ junk₃ hline hend hparse
    obtain ⟨tokens, tokens', htokens, htokens', hholds⟩ :=
      tokens_renamed junk₁ junk₂ hline hend hT
    rw [parseLine, htokens, ok_bind, htokens', ok_bind] at hparse
    exact ⟨hT, commandsFit_of_mergeToCommand junk₃ hholds hparse⟩
  · rintro ⟨hT, hC⟩
    obtain ⟨commands, hcommands, -⟩ := parseLine_joined junk₁ junk₂ junk₃ hline hend hT hC
    exact ⟨commands, hcommands⟩

theorem execVectors_segments (junk₄ : ℕ → Junk) (hT : TokensFit (words isBlank s))
    (hC : CommandsFit ((((words isBlank s).map rename).splitOn bar).map joined)) :
    ∃ argvs, execVectors junk₁ junk₂ junk₃ junk₄ line = .ok argvs ∧
      List.Forall₂ (List.Forall₂ Holds) argvs (((words isBlank s).map rename).splitOn bar) := by
  obtain ⟨commands, hcommands, hjoined⟩ := parseLine_joined junk₁ junk₂ junk₃ hline hend hT hC
  have hwords : ∀ t ∈ (words isBlank s).map rename, IsWord isBlank t := by
    intro t ht
    obtain ⟨u, hu, rfl⟩ := List.mem_map.mp ht
    exact isWord_rename (isWord_of_mem_words hu)
  obtain ⟨argvs, hargvs, hholds⟩ := mapRest_ok (S := List.Forall₂ Holds)
    (List.forall₂_map_right_iff.mp hjoined)
    fun k _ _ hseg h => tokenize_joined (junk₄ k) hT.rename hwords hseg h
  exact ⟨argvs, by rw [execVectors, hcommands, ok_bind, hargvs], hholds⟩

end Line

theorem parseLine_ok_exampleLine :
    (∃ commands, parseLine (fun _ _ => 1) (fun _ _ => 2) (fun _ _ => 3) (exampleLine ++ [0]) =
      .ok commands) ↔
    TokensFit (words isBlank exampleLine) ∧
      CommandsFit ((((words isBlank exampleLine).map rename).splitOn bar).map joined) :=
  parseLine_ok_iff _ _ _ (holds_append_zero (by decide)) (by decide)

/-- A single token of 64 characters leaves no room for its NUL. -/
theorem parseLine_long_token :
    parseLine (fun _ _ => 1) (fun _ _ => 2) (fun _ _ => 3)
      (List.replicate 64 97 ++ [newline] ++ [0]) = .error .outOfBounds := by
  decide +kernel

theorem rightUnique_holds : Relator.RightUnique Holds := fun _ _ _ => Holds.unique

theorem argvs_unique {argvs : List (List Buffer)} {X Y : List (List (List UInt8))}
    (hX : List.Forall₂ (List.Forall₂ Holds) argvs X)
    (hY : List.Forall₂ (List.Forall₂ Holds) argvs Y) : X = Y :=
  rightUnique_holds.forall₂.forall₂ hX hY

/-- Of a line within the limits only the command names are renamed exactly if no other token is
one of the two names. -/
theorem execVectors_renameFirst_iff (junk₁ junk₂ junk₃ : Junk) (junk₄ : ℕ → Junk) {line : Buffer}
    {s : List UInt8} (hline : Holds line s) (hend : s.getLast? = some newline)
    (hT : TokensFit (words isBlank s))
    (hC : CommandsFit ((((words isBlank s).map rename).splitOn bar).map joined)) :
    ∃ argvs, execVectors junk₁ junk₂ junk₃ junk₄ line = .ok argvs ∧
      (List.Forall₂ (List.Forall₂ Holds) argvs
          (((words isBlank s).splitOn bar).map renameFirst) ↔
        ∀ seg ∈ (words isBlank s).splitOn bar, ∀ t ∈ seg.tail, t ≠ pps ∧ t ≠ ttop) := by
  obtain ⟨argvs, hargvs, hholds⟩ :=
    execVectors_segments junk₁ junk₂ junk₃ hline hend junk₄ hT hC
  rw [splitOn_map rename_eq_bar_iff] at hholds
  refine ⟨argvs, hargvs, ?_⟩
  simp only [← map_rename_eq_renameFirst_iff]
  rw [← List.map_inj_left]
  constructor
  · exact argvs_unique hholds
  · intro heq
    rwa [← heq]

def renamedLine : List UInt8 := "pps -a | ttop\n".toList.map Char.toUInt8

theorem execVectors_renameFirst_renamedLine :
    ∃ argvs, execVectors (fun _ _ => 1) (fun _ _ => 2) (fun _ _ => 3) (fun _ _ _ => 4)
        (renamedLine ++ [0]) = .ok argvs ∧
      List.Forall₂ (List.Forall₂ Holds) argvs [[dotPps, [45, 97]], [dotTtop]] := by
  obtain ⟨argvs, hargvs, hiff⟩ := execVectors_renameFirst_iff (fun _ _ => 1) (fun _ _ => 2)
    (fun _ _ => 3) (fun _ _ _ => 4) (holds_append_zero (s := renamedLine) (by decide)) (by decide)
    ⟨by decide, by decide⟩ ⟨by decide, by decide⟩
  exact ⟨argvs, hargvs, hiff.mpr (by decide)⟩

def echo : List UInt8 := "echo".toList.map Char.toUInt8

/-- `echo pps` prints `./pps`. -/
theorem execVectors_renames_argument :
    ∃ argvs, execVectors (fun _ _ => 1) (fun _ _ => 2) (fun _ _ => 3) (fun _ _ _ => 4)
        (echo ++ space :: pps ++ [newline] ++ [0]) = .ok argvs ∧
      List.Forall₂ (List.Forall₂ Holds) argvs [[echo, dotPps]] ∧
      ¬List.Forall₂ (List.Forall₂ Holds) argvs [[echo, pps]] := by
  obtain ⟨argvs, hargvs, hholds⟩ := execVectors_segments (fun _ _ => 1) (fun _ _ => 2)
    (fun _ _ => 3) (holds_append_zero (s := echo ++ space :: pps ++ [newline]) (by decide))
    (by decide) (fun _ _ _ => 4) ⟨by decide, by decide⟩ ⟨by decide, by decide⟩
  refine ⟨argvs, hargvs, hholds, fun hpps => ?_⟩
  exact absurd (argvs_unique hholds hpps) (by decide)

end SsuOs.Shell
