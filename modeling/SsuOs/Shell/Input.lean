import SsuOs.Lib.CStream
import SsuOs.Shell.Parse

/-! How `main` reads its lines, from the script named on the command line or from the user. The
processes that it forks share the offset of the script. -/
namespace SsuOs.Shell
open Lib CString

def maxInputSize : ℕ := 1024

inductive Input
  | script (file : List UInt8) (fp : Stream)
  | interactive (text : List UInt8)

def blankLine : Buffer := List.replicate maxInputSize 0

/-- `line[strlen(line) - 1] = '\0'`; the index is unsigned. -/
def chopLine (line : Buffer) : Except BufferFault Buffer := do
  let n ← strlen line
  if n = 0 then .error .outOfBounds else store line (n - 1) 0

def endLine (line : Buffer) : Except BufferFault Buffer := do
  let n ← strlen line
  store line n newline

/-- A round of the loop up to `tokenize`, with the string it passes; `none` when the loop is
left. The stream has a buffer of `blksize` bytes. -/
def readLine (blksize : ℕ+) : Input → Except BufferFault (Option (Buffer × Input))
  | .script file fp => do
    match ← fp.fgets file blksize blankLine maxInputSize with
    | none => .ok none
    | some (line, fp) =>
      let line ← chopLine line
      let line ← endLine line
      .ok (some (line, .script file fp))
  | .interactive text => do
    let (line, rest) ← scanLine blankLine text
    let line ← endLine line
    .ok (some (line, .interactive (getchar rest)))

namespace Input

/-- What a process forked now has not read in its copy of the stream. -/
def unread : Input → ℕ
  | .script _ fp => fp.unread.length
  | .interactive _ => 0

/-- `exit` in processes whose copies have `us` unread; a terminal cannot go back. -/
def exits : Input → List ℕ → Input
  | .script file fp, us => .script file (us.foldl Stream.exit fp)
  | .interactive text, _ => .interactive text

end Input

/-- The strings that the first `k` rounds pass to `tokenize`, and whether the loop has been left
by then. The processes that a round forks call `exit` when `execvp` fails in them: those of the
rounds `exits i` do so in round `i`, before the next line is read. `copies` says what the
processes of each round so far had unread. -/
def mainLoop (blksize : ℕ+) (exits : ℕ → List ℕ) :
    ℕ → List ℕ → Input → Except BufferFault (List Buffer × Bool)
  | 0, _, _ => .ok ([], false)
  | k + 1, copies, input => do
    match ← readLine blksize input with
    | none => .ok ([], true)
    | some (line, input) =>
      let forked := copies ++ [input.unread]
      let (lines, left) ← mainLoop blksize exits k forked
        (input.exits ((exits copies.length).filterMap (forked[·]?)))
      .ok (line :: lines, left)

def lineBuffer (l : List UInt8) : Buffer := l ++ List.replicate (maxInputSize - l.length) 0

section Buffers

variable {l : List UInt8}

theorem storeString_blankLine (hl : l.length < maxInputSize) :
    storeString blankLine l = .ok (lineBuffer l) := by
  have hzeros : maxInputSize - l.length = (maxInputSize - (l.length + 1)) + 1 := by omega
  rw [storeString, blankLine, List.length_replicate, if_pos hl, lineBuffer, hzeros,
    List.replicate_succ, List.drop_replicate]

theorem lineBuffer_eq (hl : l.length < maxInputSize) :
    lineBuffer l = l ++ 0 :: List.replicate (maxInputSize - (l.length + 1)) 0 := by
  have hzeros : maxInputSize - l.length = (maxInputSize - (l.length + 1)) + 1 := by omega
  rw [lineBuffer, hzeros, List.replicate_succ]

theorem holds_lineBuffer (hz : 0 ∉ l) (hl : l.length < maxInputSize) : Holds (lineBuffer l) l := by
  rw [lineBuffer_eq hl]
  exact .append_zero hz _

theorem chopLine_lineBuffer {c : UInt8} (hz : 0 ∉ l ++ [c]) (hl : l.length + 1 < maxInputSize) :
    chopLine (lineBuffer (l ++ [c])) = .ok (lineBuffer l) := by
  have hlen : (l ++ [c]).length = l.length + 1 := by simp
  have hstore : (lineBuffer (l ++ [c])).set l.length 0 = lineBuffer l := by
    rw [lineBuffer_eq (l := l) (by omega), lineBuffer, hlen, List.append_assoc,
      List.set_append_right l.length 0 le_rfl]
    simp
  rw [chopLine, (holds_lineBuffer hz (by omega)).strlen_eq, ok_bind, hlen, if_neg (by omega),
    Nat.add_sub_cancel, store, hstore, if_pos]
  rw [lineBuffer, List.length_append, hlen]
  omega

theorem zero_notMem_snoc (hz : 0 ∉ l) : 0 ∉ l ++ [newline] := by
  simpa [newline] using ⟨hz, by decide⟩

theorem endLine_lineBuffer (hz : 0 ∉ l) (hl : l.length + 1 < maxInputSize) :
    ∃ line, endLine (lineBuffer l) = .ok line ∧ Holds line (l ++ [newline]) := by
  have hzeros : maxInputSize - (l.length + 1) = (maxInputSize - (l.length + 2)) + 1 := by omega
  have hholds := holds_lineBuffer hz (by omega)
  refine ⟨(lineBuffer l).set l.length newline, ?_, ?_⟩
  · rw [endLine, hholds.strlen_eq, ok_bind, store, if_pos hholds.length_lt]
  · rw [lineBuffer_eq (by omega), hzeros, List.replicate_succ,
      List.set_append_right l.length newline le_rfl, Nat.sub_self, List.set_cons_zero,
      List.append_cons]
    exact .append_zero (zero_notMem_snoc hz) _

end Buffers

section Rounds

variable {blksize : ℕ+} {file : List UInt8} {fp fp' : Stream} {l : List UInt8}

theorem append_rest_of_takeLine {n : ℕ} (htake : fp.takeLine file blksize n = (l, fp')) :
    l ++ fp'.rest file = fp.rest file := by
  obtain ⟨hline, hrest⟩ := Stream.takeLine_rest file blksize n fp
  rw [htake] at hline hrest
  dsimp only at hline hrest
  rw [hline, hrest, takeLine_append]

theorem readLine_script_end (h : fp.rest file = []) :
    readLine blksize (.script file fp) = .ok none := by
  have htake : (fp.takeLine file blksize (maxInputSize - 1)).1 = [] := by
    rw [(Stream.takeLine_rest file blksize _ fp).1, h]
    rfl
  rw [readLine, Stream.fgets, if_pos htake, ok_bind]

/-- The last character read is replaced by a newline, whichever it is. -/
theorem readLine_script (hz : 0 ∉ fp.rest file) (hne : fp.rest file ≠ [])
    (htake : fp.takeLine file blksize (maxInputSize - 1) = (l, fp')) :
    ∃ line, readLine blksize (.script file fp) = .ok (some (line, .script file fp')) ∧
      Holds line (l.dropLast ++ [newline]) := by
  have hrest := (Stream.takeLine_rest file blksize (maxInputSize - 1) fp).1
  rw [htake] at hrest
  dsimp only at hrest
  have hnil : l ≠ [] := by
    rw [hrest]
    exact (takeLine_eq_nil_iff (maxInputSize - 2) _).not.mpr hne
  have hshort : l.length ≤ maxInputSize - 1 := hrest ▸ length_takeLine_le _ _
  have hzero : 0 ∉ l := by
    rw [← append_rest_of_takeLine htake, List.mem_append, not_or] at hz
    exact hz.1
  have hsize : maxInputSize = 1024 := rfl
  have hlast := List.dropLast_append_getLast hnil
  have hlen : l.dropLast.length + 1 = l.length := by
    rw [List.length_dropLast]
    have := List.length_pos_iff.mpr hnil
    omega
  obtain ⟨line, hline, hholds⟩ := endLine_lineBuffer (l := l.dropLast)
    (fun h => hzero ((List.dropLast_sublist l).subset h)) (by omega)
  have hget : fp.fgets file blksize blankLine maxInputSize = .ok (some (lineBuffer l, fp')) := by
    rw [Stream.fgets, htake]
    dsimp only
    rw [if_neg hnil, storeString_blankLine (by omega), ok_bind]
  have hchop : chopLine (lineBuffer l) = .ok (lineBuffer l.dropLast) := by
    have := chopLine_lineBuffer (l := l.dropLast) (c := l.getLast hnil) (by rwa [hlast])
      (by omega)
    rwa [hlast] at this
  refine ⟨line, ?_, hholds⟩
  rw [readLine, hget, ok_bind]
  dsimp only
  rw [hchop, ok_bind, hline, ok_bind]

theorem readLine_interactive {text : List UInt8} (hz : 0 ∉ l) (hlen : l.length + 1 < maxInputSize)
    (htake : text.takeWhile (· ≠ lineFeed) = l) :
    ∃ line, readLine blksize (.interactive text) =
        .ok (some (line, .interactive (text.dropWhile (· ≠ lineFeed)).tail)) ∧
      Holds line (l ++ [newline]) := by
  obtain ⟨line, hline, hholds⟩ := endLine_lineBuffer hz hlen
  have hscan : scanLine blankLine text =
      .ok (lineBuffer l, text.dropWhile (· ≠ lineFeed)) := by
    rw [scanLine, htake]
    split_ifs with hnil
    · subst hnil
      have hdrop := List.takeWhile_append_dropWhile (l := text)
        (p := fun c => decide (c ≠ lineFeed))
      rw [htake, List.nil_append] at hdrop
      rw [hdrop]
      rfl
    · rw [storeString_blankLine (by omega), ok_bind]
  refine ⟨line, ?_, hholds⟩
  rw [readLine, hscan, ok_bind]
  dsimp only
  rw [hline, ok_bind]
  rfl

end Rounds

section Loop

variable {blksize : ℕ+} {exits : ℕ → List ℕ} {k : ℕ} {copies : List ℕ} {input input' : Input}
  {text rest : List UInt8} {line : Buffer} {lines : List Buffer}

theorem mainLoop_succ (h : readLine blksize input = .ok (some (line, input'))) :
    mainLoop blksize exits (k + 1) copies input =
      (mainLoop blksize exits k (copies ++ [input'.unread]) (input'.exits
        ((exits copies.length).filterMap ((copies ++ [input'.unread])[·]?)))).map
          fun p => (line :: p.1, p.2) := by
  rw [mainLoop, h, ok_bind]
  dsimp only
  cases mainLoop blksize exits k (copies ++ [input'.unread]) _ with
  | error e => rfl
  | ok p => rfl

theorem mainLoop_end (h : readLine blksize input = .ok none) :
    mainLoop blksize exits (k + 1) copies input = .ok ([], true) := by
  rw [mainLoop, h, ok_bind]

/-- The lines of a text, each with a newline behind it. -/
def expected (text : List UInt8) : List (List UInt8) :=
  (linesOf newline text).map (· ++ [newline])

/-- The loop passes exactly the lines of the text and is then left. -/
def Passes (blksize : ℕ+) (exits : ℕ → List ℕ) (input : Input) (text : List UInt8) : Prop :=
  ∃ k lines, mainLoop blksize exits k [] input = .ok (lines, true) ∧
    List.Forall₂ Holds lines (expected text)

/-- A text without NUL whose lines fit the buffer. -/
structure Readable (text : List UInt8) : Prop where
  nonzero : 0 ∉ text
  length_le : ∀ l ∈ linesOf newline text, l.length + 1 < maxInputSize

/-- Every line, the last one too, is ended by a newline. -/
def Terminated (text : List UInt8) : Prop := text = [] ∨ text.getLast? = some newline

instance (text : List UInt8) : Decidable (Terminated text) := inferInstanceAs (Decidable (_ ∨ _))

/-- How far the stream is ahead of the loop when the first `i` lines of the text have been read. -/
def readAhead (blksize : ℕ+) (text : List UInt8) (i : ℕ) : ℕ :=
  Stream.ahead text blksize ((expected text).take i).flatten.length -
    ((expected text).take i).flatten.length

/-- A process calls `exit` only if its copy of the stream has nothing unread. -/
def NoSetBack (blksize : ℕ+) (exits : ℕ → List ℕ) (text : List UInt8) : Prop :=
  ∀ i < (expected text).length, ∀ r ∈ exits i, r ≤ i → readAhead blksize text (r + 1) = 0

instance (blksize : ℕ+) (exits : ℕ → List ℕ) (text : List UInt8) :
    Decidable (NoSetBack blksize exits text) :=
  inferInstanceAs (Decidable (∀ i < _, ∀ _ ∈ _, _))

theorem expected_line {l : List UInt8} (hl : newline ∉ l) (rest : List UInt8) :
    expected (l ++ newline :: rest) = (l ++ [newline]) :: expected rest := by
  rw [expected, linesOf_append_cons hl, List.map_cons, expected]

theorem expected_last {l : List UInt8} (hl : newline ∉ l) (hne : l ≠ []) :
    expected l = [l ++ [newline]] := by
  rw [expected, linesOf_of_notMem hl hne, List.map_singleton]

theorem Readable.of_line {l : List UInt8} (h : Readable (l ++ newline :: rest))
    (hl : newline ∉ l) : 0 ∉ l ∧ l.length + 1 < maxInputSize ∧ Readable rest := by
  obtain ⟨hz, hlen⟩ := h
  rw [linesOf_append_cons hl, List.forall_mem_cons] at hlen
  rw [List.mem_append, List.mem_cons, not_or, not_or] at hz
  exact ⟨hz.1, hlen.1, hz.2.2, hlen.2⟩

theorem Readable.of_last {l : List UInt8} (h : Readable l) (hl : newline ∉ l) (hne : l ≠ []) :
    l.length + 1 < maxInputSize := by
  apply h.length_le
  rw [linesOf_of_notMem hl hne]
  exact List.mem_singleton_self l

theorem Terminated.of_line {l : List UInt8} :
    Terminated (l ++ newline :: rest) ↔ Terminated rest := by
  rw [Terminated, Terminated]
  cases rest with
  | nil => simp
  | cons c s => simp [List.getLast?_append, List.getLast?_cons]

theorem not_terminated_last {l : List UInt8} (hl : newline ∉ l) (hne : l ≠ []) : ¬Terminated l := by
  rintro (hnil | hlast)
  · exact hne hnil
  · exact hl (List.mem_of_getLast? hlast)

/-- What the processes of the first `i` rounds have unread, as long as no `exit` has gone back. -/
def copiesAt (blksize : ℕ+) (text : List UInt8) (i : ℕ) : List ℕ :=
  (List.range i).map fun r => readAhead blksize text (r + 1)

/-- What the processes that call `exit` in round `i` have unread, likewise. -/
def exiting (blksize : ℕ+) (exits : ℕ → List ℕ) (text : List UInt8) (i : ℕ) : List ℕ :=
  (exits i).filterMap ((copiesAt blksize text (i + 1))[·]?)

theorem mem_exiting {i u : ℕ} :
    u ∈ exiting blksize exits text i ↔
      ∃ r ∈ exits i, r ≤ i ∧ readAhead blksize text (r + 1) = u := by
  simp only [exiting, copiesAt, List.mem_filterMap, List.getElem?_map, Option.map_eq_some_iff,
    List.getElem?_eq_some_iff, List.length_range, List.getElem_range, exists_prop]
  constructor
  · rintro ⟨r, hr, q, ⟨hq, rfl⟩, hu⟩
    exact ⟨r, hr, by omega, hu⟩
  · rintro ⟨r, hr, hle, hu⟩
    exact ⟨r, hr, r, ⟨by omega, rfl⟩, hu⟩

/-- The text falls into the lines `read` and the text behind them. -/
structure Splits (text : List UInt8) (read : List (List UInt8)) (rest : List UInt8) : Prop where
  text_eq : text = read.flatten ++ rest
  expected_eq : expected text = read ++ expected rest

namespace Splits

variable {read : List (List UInt8)} {l : List UInt8}

theorem read_line (h : Splits text read (l ++ newline :: rest)) (hl : newline ∉ l) :
    Splits text (read ++ [l ++ [newline]]) rest := by
  obtain ⟨htext, hexp⟩ := h
  constructor
  · rw [htext]
    simp
  · rw [hexp, expected_line hl, List.append_cons]

theorem take_expected (h : Splits text read rest) :
    (expected text).take read.length = read := by
  rw [h.expected_eq, List.take_left]

theorem drop_text (h : Splits text read rest) : text.drop read.flatten.length = rest := by
  rw [h.text_eq, List.drop_left]

theorem readAhead_eq (blksize : ℕ+) (h : Splits text read rest) :
    readAhead blksize text read.length =
      (Stream.after text blksize read.flatten.length).unread.length := by
  rw [readAhead, h.take_expected, Stream.length_unread_after]

theorem length_le (h : Splits text read rest) : read.flatten.length ≤ text.length := by
  rw [h.text_eq, List.length_append]
  omega

theorem readAhead_le (h : Splits text read rest) {i : ℕ} (hi : i ≤ read.length) :
    readAhead blksize text i ≤ Stream.ahead text blksize read.flatten.length := by
  have htake : (expected text).take i = read.take i := by
    rw [h.expected_eq, List.take_append_of_le_length hi]
  have hlen : (read.take i).flatten.length ≤ read.flatten.length := by
    conv_rhs => rw [← List.take_append_drop i read, List.flatten_append, List.length_append]
    exact Nat.le_add_right _ _
  rw [readAhead, htake]
  exact (Nat.sub_le _ _).trans (Stream.ahead_mono _ _ hlen)

end Splits

/-- The loop when `read` has been read and no `exit` has gone back. -/
def loopFrom (blksize : ℕ+) (exits : ℕ → List ℕ) (text : List UInt8) (k : ℕ)
    (read : List (List UInt8)) : Except BufferFault (List Buffer × Bool) :=
  mainLoop blksize exits k (copiesAt blksize text read.length)
    (.script text (Stream.after text blksize read.flatten.length))

section Script

variable {read : List (List UInt8)} {l : List UInt8}

theorem loopFrom_line (blksize : ℕ+) (exits : ℕ → List ℕ) (h : Readable text)
    (hs : Splits text read (l ++ newline :: rest)) (hl : newline ∉ l)
    (hlen : l.length + 1 < maxInputSize) :
    ∃ line, Holds line (l ++ [newline]) ∧ ∀ k, loopFrom blksize exits text (k + 1) read =
      (mainLoop blksize exits k (copiesAt blksize text (read.length + 1)) (.script text
        ((exiting blksize exits text read.length).foldl Stream.exit
          (Stream.after text blksize (read ++ [l ++ [newline]]).flatten.length)))).map
            fun p => (line :: p.1, p.2) := by
  have hrest : (Stream.after text blksize read.flatten.length).rest text =
      l ++ newline :: rest := by rw [Stream.rest_after hs.length_le, hs.drop_text]
  have htake := Stream.takeLine_after blksize hs.drop_text hl
    (by omega : l.length < maxInputSize - 1)
  obtain ⟨line, hline, hholds⟩ := readLine_script
    (by rw [hrest, ← hs.drop_text]; exact fun hz => h.nonzero (List.mem_of_mem_drop hz))
    (by rw [hrest]; simp) htake
  rw [List.dropLast_concat] at hholds
  have hlength : (read ++ [l ++ [newline]]).flatten.length =
      read.flatten.length + (l.length + 1) := by simp
  have hcopies : copiesAt blksize text read.length ++
      [(Stream.after text blksize (read ++ [l ++ [newline]]).flatten.length).unread.length] =
        copiesAt blksize text (read.length + 1) := by
    have hahead := (hs.read_line hl).readAhead_eq blksize
    rw [List.length_append, List.length_singleton] at hahead
    rw [← hahead, copiesAt, copiesAt, List.range_succ, List.map_append, List.map_singleton]
  have hround : (copiesAt blksize text read.length).length = read.length := by simp [copiesAt]
  refine ⟨line, hholds, fun k => ?_⟩
  rw [loopFrom, mainLoop_succ hline, ← hlength]
  simp only [Input.unread, Input.exits, hcopies, hround, exiting]

theorem loopFrom_line_quiet (h : Readable text) (hs : Splits text read (l ++ newline :: rest))
    (hl : newline ∉ l) (hlen : l.length + 1 < maxInputSize)
    (hquiet : NoSetBack blksize exits text) :
    ∃ line, Holds line (l ++ [newline]) ∧ ∀ k, loopFrom blksize exits text (k + 1) read =
      (loopFrom blksize exits text k (read ++ [l ++ [newline]])).map
        fun p => (line :: p.1, p.2) := by
  have hlt : read.length < (expected text).length := by
    rw [hs.expected_eq, expected_line hl]
    simp
  have hzero : ∀ u ∈ exiting blksize exits text read.length, u = 0 := by
    intro u hu
    obtain ⟨r, hr, hle, rfl⟩ := mem_exiting.mp hu
    exact hquiet read.length hlt r hr hle
  obtain ⟨line, hholds, hround⟩ := loopFrom_line blksize exits h hs hl hlen
  refine ⟨line, hholds, fun k => ?_⟩
  rw [hround, Stream.foldl_exit_eq hzero, loopFrom, List.length_append, List.length_singleton]

theorem script_passes_lines (h : Readable text) (hs : Splits text read rest)
    (hrest : Readable rest) (hend : Terminated rest) (hquiet : NoSetBack blksize exits text) :
    ∃ k lines, loopFrom blksize exits text k read = .ok (lines, true) ∧
      List.Forall₂ Holds lines (expected rest) := by
  induction rest using lines_induction newline generalizing read with
  | nil =>
    refine ⟨1, [], ?_, by simp [expected]⟩
    apply mainLoop_end
    apply readLine_script_end
    rw [Stream.rest_after hs.length_le, hs.drop_text]
  | last l hl hne => exact absurd hend (not_terminated_last hl hne)
  | line l s hl ih =>
    obtain ⟨-, hlen, hread⟩ := hrest.of_line hl
    obtain ⟨line, hholds, hround⟩ := loopFrom_line_quiet h hs hl hlen hquiet
    obtain ⟨k, lines, hk, hlines⟩ := ih (hs.read_line hl) hread (Terminated.of_line.mp hend)
    refine ⟨k + 1, line :: lines, ?_, ?_⟩
    · rw [hround, hk, map_ok]
    · rw [expected_line hl]
      exact .cons hholds hlines

theorem script_drops_character {k : ℕ} {lines : List Buffer} (h : Readable text)
    (hs : Splits text read rest) (hrest : Readable rest) (hend : ¬Terminated rest)
    (hquiet : NoSetBack blksize exits text)
    (hk : loopFrom blksize exits text k read = .ok (lines, true)) :
    ¬List.Forall₂ Holds lines (expected rest) := by
  induction rest using lines_induction newline generalizing read k lines with
  | nil => exact absurd (Or.inl rfl) hend
  | last l hl hne =>
    have hfp : (Stream.after text blksize read.flatten.length).rest text = l := by
      rw [Stream.rest_after hs.length_le, hs.drop_text]
    have hlen := hrest.of_last hl hne
    obtain ⟨line, hline, hholds⟩ := readLine_script
      (by rw [hfp]; exact hrest.nonzero) (by rw [hfp]; exact hne)
      (Prod.mk.eta (p := Stream.takeLine text blksize _ _)).symm
    rw [(Stream.takeLine_rest _ _ _ _).1, hfp, takeLine_last hl (by omega)] at hholds
    cases k with
    | zero => simp [loopFrom, mainLoop] at hk
    | succ k =>
      rw [loopFrom, mainLoop_succ hline, map_eq_ok] at hk
      obtain ⟨p, -, hp⟩ := hk
      obtain ⟨rfl, -⟩ := Prod.mk.inj hp
      intro hall
      rw [expected_last hl hne] at hall
      have hsame := congrArg List.length (hholds.unique (List.forall₂_cons.mp hall).1)
      have hpos := List.length_pos_iff.mpr hne
      simp only [List.length_append, List.length_dropLast, List.length_singleton] at hsame
      omega
  | line l s hl ih =>
    obtain ⟨-, hlen, hread⟩ := hrest.of_line hl
    obtain ⟨line, -, hround⟩ := loopFrom_line_quiet h hs hl hlen hquiet
    cases k with
    | zero => simp [loopFrom, mainLoop] at hk
    | succ k =>
      rw [hround, map_eq_ok] at hk
      obtain ⟨⟨ls, left⟩, hk, hp⟩ := hk
      obtain ⟨rfl, rfl⟩ := Prod.mk.inj hp
      intro hall
      rw [expected_line hl] at hall
      exact ih (hs.read_line hl) hread (fun hs => hend (Terminated.of_line.mpr hs)) hk
        (List.forall₂_cons.mp hall).2

/-- Until the loop is left, every character that can be read is passed on. -/
theorem length_rest_le_passed {file : List UInt8} {fp : Stream} {strs : List (List UInt8)}
    (hfile : 0 ∉ file) (hunread : 0 ∉ fp.unread)
    (hk : mainLoop blksize exits k copies (.script file fp) = .ok (lines, true))
    (hlines : List.Forall₂ Holds lines strs) :
    (fp.rest file).length ≤ strs.flatten.length := by
  induction k generalizing copies fp lines strs with
  | zero => simp [mainLoop] at hk
  | succ k ih =>
    by_cases hne : fp.rest file = []
    · simp [hne]
    have hz := Stream.rest_nonzero hfile hunread
    rcases htake : fp.takeLine file blksize (maxInputSize - 1) with ⟨l, fp'⟩
    obtain ⟨line, hline, hholds⟩ := readLine_script hz hne htake
    have happend := append_rest_of_takeLine htake
    have hunread' : 0 ∉ fp'.unread := by
      rw [← happend] at hz
      exact fun hmem => hz (List.mem_append_right _ (List.mem_append_left _ hmem))
    rw [mainLoop_succ hline, map_eq_ok] at hk
    obtain ⟨⟨ls, left⟩, hk, hp⟩ := hk
    obtain ⟨rfl, rfl⟩ := Prod.mk.inj hp
    obtain ⟨str, strs, hstr, hls, rfl⟩ := List.forall₂_cons_left_iff.mp hlines
    have hle := (Stream.length_rest_le_foldl_exit _ _ _).trans
      (ih (by rwa [Stream.unread_foldl_exit]) hk hls)
    have hlen := congrArg List.length (hstr.unique hholds)
    simp only [List.length_append, List.length_dropLast, List.length_singleton] at hlen
    rw [← happend, List.flatten_cons, List.length_append, List.length_append]
    omega

theorem flatten_expected (h : Terminated text) : (expected text).flatten = text := by
  induction text using lines_induction newline with
  | nil => simp [expected]
  | last l hl hne => exact absurd h (not_terminated_last hl hne)
  | line l s hl ih =>
    rw [expected_line hl, List.flatten_cons, ih (Terminated.of_line.mp h)]
    simp

/-- When a process that has unread characters calls `exit`, too much is passed in the rounds
behind it. -/
theorem exiting_eq_zero {k : ℕ} {copies : List ℕ} {lines : List Buffer} {i : ℕ}
    (h : Readable text) (hs : Splits text read rest) (hend : Terminated rest)
    (hi : read.length = i + 1)
    (hk : mainLoop blksize exits k copies (.script text ((exiting blksize exits text i).foldl
      Stream.exit (Stream.after text blksize read.flatten.length))) = .ok (lines, true))
    (hlines : List.Forall₂ Holds lines (expected rest)) :
    ∀ u ∈ exiting blksize exits text i, u = 0 := by
  by_contra hpos
  push Not at hpos
  have hunread : 0 ∉ (Stream.after text blksize read.flatten.length).unread :=
    fun hz => h.nonzero (List.mem_of_mem_drop (List.mem_of_mem_take hz))
  have hle : ∀ u ∈ exiting blksize exits text i,
      u ≤ (Stream.after text blksize read.flatten.length).offset := by
    intro u hu
    obtain ⟨r, -, hr, rfl⟩ := mem_exiting.mp hu
    exact hs.readAhead_le (by omega)
  have hback := Stream.length_rest_lt_foldl_exit rfl (Stream.ahead_le text blksize _) hle hpos
  have hpassed := length_rest_le_passed h.nonzero (by rwa [Stream.unread_foldl_exit]) hk hlines
  rw [Stream.rest_after hs.length_le, hs.drop_text] at hback
  rw [flatten_expected hend] at hpassed
  omega

theorem noSetBack_of_passes {k : ℕ} {lines : List Buffer} (h : Readable text)
    (hs : Splits text read rest) (hrest : Readable rest) (hend : Terminated rest)
    (hk : loopFrom blksize exits text k read = .ok (lines, true))
    (hlines : List.Forall₂ Holds lines (expected rest)) {i : ℕ} (hi : read.length ≤ i)
    (hlt : i < (expected text).length) : ∀ u ∈ exiting blksize exits text i, u = 0 := by
  induction rest using lines_induction newline generalizing read k lines with
  | nil =>
    rw [hs.expected_eq, expected, linesOf_nil, List.map_nil, List.append_nil] at hlt
    omega
  | last l hl hne => exact absurd hend (not_terminated_last hl hne)
  | line l s hl ih =>
    obtain ⟨-, hlen, hread⟩ := hrest.of_line hl
    have hsplit := hs.read_line hl
    have hend' := Terminated.of_line.mp hend
    have hnext : (read ++ [l ++ [newline]]).length = read.length + 1 := by simp
    obtain ⟨line, -, hround⟩ := loopFrom_line blksize exits h hs hl hlen
    cases k with
    | zero => simp [loopFrom, mainLoop] at hk
    | succ k =>
      rw [hround, map_eq_ok] at hk
      obtain ⟨⟨ls, left⟩, hk, hp⟩ := hk
      obtain ⟨rfl, rfl⟩ := Prod.mk.inj hp
      rw [expected_line hl] at hlines
      have hls := (List.forall₂_cons.mp hlines).2
      have hzero := exiting_eq_zero h hsplit hend' hnext hk hls
      rw [Stream.foldl_exit_eq hzero, ← hnext] at hk
      rcases Nat.eq_or_lt_of_le hi with rfl | hi
      · exact hzero
      · exact ih hsplit hread hend' hk hls (by omega)

end Script

section Interactive

/-- Nothing in the loop leaves it when the input ends. -/
theorem interactive_not_left :
    mainLoop blksize exits k copies (.interactive text) ≠ .ok (lines, true) := by
  induction k generalizing text lines copies with
  | zero => simp [mainLoop]
  | succ k ih =>
    intro hk
    rw [mainLoop] at hk
    obtain ⟨read, hread, hk⟩ := bind_eq_ok.mp hk
    rw [readLine] at hread
    obtain ⟨p, -, hread⟩ := bind_eq_ok.mp hread
    obtain ⟨line, -, hread⟩ := bind_eq_ok.mp hread
    obtain rfl := Except.ok.inj hread
    obtain ⟨q, hq, hk⟩ := bind_eq_ok.mp hk
    have hleft := (ok_pair_inj hk).2
    exact ih (hq.trans (by rw [← hleft]))

theorem interactive_passes_lines (copies : List ℕ) (h : Readable text) :
    ∃ lines, mainLoop blksize exits (linesOf newline text).length copies (.interactive text) =
        .ok (lines, false) ∧
      List.Forall₂ Holds lines (expected text) := by
  induction text using lines_induction newline generalizing copies with
  | nil => exact ⟨[], rfl, by simp [expected]⟩
  | last l hl hne =>
    obtain ⟨htake, hdrop⟩ := takeWhile_last hl
    obtain ⟨line, hline, hholds⟩ := readLine_interactive h.nonzero (h.of_last hl hne) htake
    refine ⟨[line], ?_, ?_⟩
    · rw [linesOf_of_notMem hl hne, List.length_singleton, mainLoop_succ hline]
      rfl
    · rw [expected_last hl hne]
      exact .cons hholds .nil
  | line l s hl ih =>
    obtain ⟨hz, hlen, hs⟩ := h.of_line hl
    obtain ⟨htake, hdrop⟩ := takeWhile_line hl s
    obtain ⟨line, hline, hholds⟩ := readLine_interactive hz hlen htake
    rw [hdrop, List.tail_cons] at hline
    obtain ⟨lines, hk, hlines⟩ := ih (copies ++ [0]) hs
    refine ⟨line :: lines, ?_, ?_⟩
    · rw [linesOf_append_cons hl, List.length_cons]
      exact (mainLoop_succ hline).trans (by rw [Input.exits, Input.unread, hk, map_ok])
    · rw [expected_line hl]
      exact .cons hholds hlines

end Interactive

end Loop

def bytes (s : String) : List UInt8 := s.toList.map Char.toUInt8

def exampleText : List UInt8 := bytes "ls\n\nwc\n"

/-- The process of the first line calls `exit` in that round. -/
def nosuchExits (i : ℕ) : List ℕ := if i = 0 then [0] else []

end SsuOs.Shell
