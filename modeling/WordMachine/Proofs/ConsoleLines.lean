import Mathlib
import WordMachine.Proofs.Buffering

/-!
# `Proofs.ConsoleLines` — the lines that a console reads

The source delivers its bytes in chunks of any size, the console takes them through a buffer, and a line may end
anywhere in either, or be longer than the buffer. None of this shows: read after read, a console returns the pieces
that newlines cut the text into, and then that the input is closed. Only a source that brings nothing for too many
reads in a row is given up.

Contents:
* `Bytes.pieces`: the pieces of a text;
* `Input.Prompt`, `Input.append_of_take`: sources that are not given up, and what is taken from them;
* `Console.unread`: the text that a console has not read yet, wherever its bytes are;
* `Console.Reads`, `Console.reads_untilNewline`: the bytes up to a newline, whatever the chunks;
* `Console.Takes`, `Console.takes_readLine`: what one read returns and leaves;
* `Console.serveAll`, `Console.Flushing`, `Console.answers_eq`: reads, with output between them.
-/

namespace WordMachine

/-! ## Pieces of a text -/

namespace Bytes

/-- The pieces of a text that newlines separate; what follows the last newline is one only if it holds a byte. -/
def pieces (text : Bytes) : List Bytes :=
  let parts := text.splitOn Ascii.newline
  if parts.getLast? = some [] then parts.dropLast else parts

theorem pieces_nil : pieces [] = [] := rfl

theorem pieces_line {piece : Bytes} (h : Ascii.newline ∉ piece) (rest : Bytes) :
    pieces (piece ++ Ascii.newline :: rest) = piece :: pieces rest := by
  have hne := List.splitOn_ne_nil Ascii.newline rest
  simp only [pieces, List.splitOn_append_cons_self_of_not_mem h]
  rw [List.getLast?_cons_of_ne_nil hne, List.dropLast_cons_of_ne_nil hne]
  split
  · rfl
  · rfl

theorem pieces_unended {piece : Bytes} (h : Ascii.newline ∉ piece) (hne : piece ≠ []) : pieces piece = [piece] := by
  simp only [pieces, List.splitOn_eq_singleton h]
  exact if_neg (fun heq => hne (Option.some.inj heq))

theorem cut?_eq_some {c : UInt8} {text before after : Bytes} (h : cut? c text = some (before, after)) :
    text = before ++ c :: after ∧ c ∉ before := by
  unfold cut? at h
  split at h
  · cases h
  next b rest hdrop =>
    obtain ⟨rfl, rfl⟩ := Prod.mk.inj (Option.some.inj h)
    have hb := List.head?_dropWhile_not (· != c) text
    rw [hdrop] at hb
    obtain rfl : b = c := by simpa using hb
    refine ⟨?_, fun hmem => by simpa using List.mem_takeWhile_imp hmem⟩
    rw [← hdrop, List.takeWhile_append_dropWhile]

theorem notMem_of_cut? {c : UInt8} {text : Bytes} (h : cut? c text = none) : c ∉ text := by
  unfold cut? at h
  split at h
  next hdrop => exact fun hmem => by simpa using List.dropWhile_eq_nil_iff.mp hdrop c hmem
  · cases h

end Bytes

/-! ## Bytes up to a newline -/

namespace Input

variable {count reads : Nat} {chunks rest : List Bytes} {data : Bytes}

/-- No more reads in a row bring nothing than are borne. -/
def Prompt (chunks : List Bytes) : Prop := ¬List.replicate patience [] <:+: chunks

theorem prompt_nil : Prompt [] := by
  intro h
  exact absurd (List.infix_nil.mp h) (by decide)

theorem Prompt.tail {chunk : Bytes} (h : Prompt (chunk :: chunks)) : Prompt chunks :=
  fun hempty => h (List.infix_cons hempty)

/-- In front of a chunk with bytes, no chunk that brings nothing counts. -/
theorem Prompt.cons {chunk : Bytes} (h : Prompt chunks) (hne : chunk ≠ []) : Prompt (chunk :: chunks) := by
  intro hempty
  rcases List.infix_cons_iff.mp hempty with hprefix | hinfix
  · exact hne (List.cons_prefix_cons.mp hprefix).1.symm
  · exact h hinfix

/-- What is taken and what is left are the bytes of the chunks, in order. -/
theorem append_of_take (h : take count reads chunks = .bytes data rest) :
    data ++ rest.flatten = chunks.flatten := by
  fun_induction take count reads chunks with
  | case1 | case2 => cases h
  | case3 reads chunks ih => exact ih h
  | case4 reads b chunk chunks hle =>
    cases h
    rfl
  | case5 reads b chunk chunks hlt =>
    cases h
    rw [List.flatten_cons, ← List.append_assoc, List.take_append_drop, List.flatten_cons]

/-- A source that has ended had no more bytes. -/
theorem flatten_of_ended (h : take count reads chunks = .ended) : chunks.flatten = [] := by
  fun_induction take count reads chunks with
  | case1 | case4 | case5 => cases h
  | case2 => rfl
  | case3 reads chunks ih => exact ih h

/-- Only reads that bring nothing make a source stall. -/
theorem eq_of_stalled (h : take count reads chunks = .stalled rest) : chunks = List.replicate reads [] ++ rest := by
  fun_induction take count reads chunks with
  | case1 chunks =>
    cases h
    rfl
  | case2 | case4 | case5 => cases h
  | case3 reads chunks ih =>
    rw [ih h]
    rfl

/-- A prompt source does not stall. -/
theorem Prompt.not_stalled (hprompt : Prompt chunks) : take count patience chunks ≠ .stalled rest := by
  intro h
  refine hprompt ⟨[], rest, ?_⟩
  rw [List.nil_append, eq_of_stalled h]

theorem Prompt.take (hprompt : Prompt chunks) (h : take count reads chunks = .bytes data rest) : Prompt rest := by
  fun_induction Input.take count reads chunks with
  | case1 | case2 => cases h
  | case3 reads chunks ih => exact ih hprompt.tail h
  | case4 reads b chunk chunks hle =>
    cases h
    exact hprompt.tail
  | case5 reads b chunk chunks hlt =>
    cases h
    refine hprompt.tail.cons fun hempty => ?_
    have hlength := congrArg List.length hempty
    simp only [List.length_drop, List.length_nil] at hlength
    omega

end Input

namespace Console

theorem moved_append_kept (buffer : Bytes) : moved buffer ++ kept buffer = buffer := by
  unfold moved kept
  by_cases h : buffer.length < bufferSize
  · rw [if_pos h, if_pos h, List.nil_append]
  · rw [if_neg h, if_neg h, List.append_nil]

/-- The bytes that a reading leaves. -/
def Reading.left (r : Reading) : Bytes := r.buffer ++ r.chunks.flatten

/-- How a reading is to divide a text, behind the bytes of the line read before. -/
inductive Reads (line : Bytes) : Bytes → Reading → Prop where
  | ended {piece : Bytes} {r : Reading} (hpiece : Ascii.newline ∉ piece) (hline : r.line = line ++ piece)
      (hstop : r.stop = .newline) : Reads line (piece ++ Ascii.newline :: r.left) r
  | unended {piece : Bytes} {r : Reading} (hpiece : Ascii.newline ∉ piece) (hline : r.line = line ++ piece)
      (hstop : r.stop = .ended) (hleft : r.left = []) : Reads line piece r

/-- Bytes without a newline that were moved to the line belong to the piece. -/
theorem Reads.moved {line buffer text : Bytes} {r : Reading} (hbuffer : Ascii.newline ∉ buffer)
    (h : Reads (line ++ buffer) text r) : Reads line (buffer ++ text) r := by
  cases h with
  | @ended piece _ hpiece hline hstop =>
    rw [← List.append_assoc]
    refine .ended ?_ (hline.trans (List.append_assoc ..)) hstop
    exact fun h => (List.mem_append.mp h).elim hbuffer hpiece
  | unended hpiece hline hstop hleft =>
    refine .unended ?_ (hline.trans (List.append_assoc ..)) hstop hleft
    exact fun h => (List.mem_append.mp h).elim hbuffer hpiece

/-- A reading ends at the first newline of the buffer and the chunks together. -/
theorem reads_untilNewline (line buffer : Bytes) {chunks : List Bytes} (hprompt : Input.Prompt chunks) :
    Reads line (buffer ++ chunks.flatten) (readUntilNewline line buffer chunks) ∧
      Input.Prompt (readUntilNewline line buffer chunks).chunks := by
  -- each round moves bytes from the chunks to the buffer, or from the buffer to the line, and keeps their order
  fun_induction readUntilNewline line buffer chunks with
  | case1 line buffer chunks before after hcut =>
    obtain ⟨rfl, hbefore⟩ := Bytes.cut?_eq_some hcut
    rw [List.append_assoc]
    exact ⟨Reads.ended (r := ⟨line ++ before, .newline, after, chunks⟩) hbefore rfl rfl, hprompt⟩
  | case2 line buffer chunks hcut data rest htake _ ih =>
    obtain ⟨hreads, hrest⟩ := ih (hprompt.take htake)
    refine ⟨?_, hrest⟩
    rw [List.append_assoc, Input.append_of_take htake] at hreads
    have hmoved : Ascii.newline ∉ moved buffer := by
      intro hmem
      apply Bytes.notMem_of_cut? hcut
      rw [← moved_append_kept buffer]
      exact List.mem_append_left _ hmem
    have htext := hreads.moved hmoved
    rwa [← List.append_assoc, moved_append_kept] at htext
  | case3 line buffer chunks hcut htake =>
    rw [Input.flatten_of_ended htake, List.append_nil]
    exact ⟨.unended (Bytes.notMem_of_cut? hcut) rfl rfl rfl, Input.prompt_nil⟩
  | case4 line buffer chunks hcut rest htake => exact absurd htake hprompt.not_stalled

/-! ## One read -/

/-- The text that the console has not read yet: what it has taken from the source, and what is still to come. -/
def unread (c : Console) : Bytes := (c.input.map fun input => c.buffer ++ input.remaining).getD []

/-- What one read returns of a text, and what it leaves of it. -/
inductive Takes : Bytes → Bytes × Option HostFailure → Bytes → Prop where
  | line {piece : Bytes} (h : Ascii.newline ∉ piece) (rest : Bytes) :
      Takes (piece ++ Ascii.newline :: rest) (Bytes.dropReturn piece, none) rest
  /-- The last piece needs no newline, but a byte. -/
  | last {piece : Bytes} (h : Ascii.newline ∉ piece) (hne : piece ≠ []) :
      Takes piece (Bytes.dropReturn piece, none) []
  | closed : Takes [] ([], some .inputClosed) []

/-- The source of the console, if there is one, ends without a failure and is never given up before. -/
def EndsCleanly (c : Console) : Prop := ∀ input ∈ c.input, input.fails = false ∧ Input.Prompt input.chunks

theorem takes_readLine {c : Console} (hc : c.EndsCleanly) (hflush : c.flush.2 = none) :
    Takes c.unread c.readLine.2 c.readLine.1.unread ∧ c.readLine.1.EndsCleanly := by
  obtain ⟨input, buffer, output⟩ := c
  obtain ⟨flushed, hflushed⟩ : ∃ flushed, output.flush = (flushed, none) := ⟨_, Prod.ext rfl hflush⟩
  cases input with
  | none =>
    simp only [readLine, flush, hflushed]
    exact ⟨.closed, hc⟩
  | some input =>
    obtain ⟨hfails, hprompt⟩ := hc input rfl
    obtain ⟨hreads, hrest⟩ := reads_untilNewline [] buffer hprompt
    simp only [readLine, flush, hflushed, unread, Input.remaining, Option.map_some, Option.getD_some]
    generalize readUntilNewline [] buffer input.chunks = r at hreads hrest
    generalize buffer ++ input.chunks.flatten = text at hreads
    have hclean : EndsCleanly ⟨some { input with chunks := r.chunks }, r.buffer, flushed⟩ := by
      rintro _ ⟨⟩
      exact ⟨hfails, hrest⟩
    -- a line without its end counts only if it has bytes, and it is the last
    cases hreads with
    | @ended piece _ hpiece hline hstop =>
      simp only [Reading.result, hstop, hline]
      exact ⟨.line hpiece r.left, hclean⟩
    | unended hpiece hline hstop hleft =>
      simp only [Reading.result, hstop]
      cases text with
      | nil =>
        have hending : input.ending = .inputClosed := by
          rw [Input.ending, hfails]
          rfl
        rw [if_pos (by simp [hline]), hline, hending]
        refine ⟨?_, hclean⟩
        show Takes [] ([], some .inputClosed) r.left
        rw [hleft]
        exact .closed
      | cons b piece =>
        rw [if_neg (by simp [hline, hfails]), hline]
        refine ⟨?_, hclean⟩
        show Takes (b :: piece) (Bytes.dropReturn (b :: piece), none) r.left
        rw [hleft]
        exact .last hpiece (List.cons_ne_nil b piece)

/-! ## Reads and output -/

/-- A call of a program to its console. -/
inductive Call where
  | write (data : Bytes)
  | flush
  | readLine
  deriving DecidableEq

/-- Serve a call, and give what a read returns. -/
def serve (c : Console) : Call → Console × List (Bytes × Option HostFailure)
  | .write data => ((c.write data).1, [])
  | .flush => (c.flush.1, [])
  | .readLine => (c.readLine.1, [c.readLine.2])

/-- Serve calls one after the other, and give what the reads return. -/
def serveAll (c : Console) : List Call → Console × List (Bytes × Option HostFailure)
  | [] => (c, [])
  | call :: calls =>
      let rest := (c.serve call).1.serveAll calls
      (rest.1, (c.serve call).2 ++ rest.2)

/-- Whenever a line is read, the output that is pending then can be flushed. -/
def Flushing (c : Console) : List Call → Prop
  | [] => True
  | call :: calls => (call = .readLine → c.flush.2 = none) ∧ (c.serve call).1.Flushing calls

/-- What the read with a number, from zero, is to return of a text: the piece with this number, without one carriage
return at its end, or else that there is no more input. -/
def answer (text : Bytes) (i : Nat) : Bytes × Option HostFailure :=
  (((Bytes.pieces text)[i]?).map fun piece => (Bytes.dropReturn piece, none)).getD ([], some .inputClosed)

/-- A read returns the first answer and leaves the others. -/
theorem Takes.answer_eq {text rest : Bytes} {r : Bytes × Option HostFailure} (h : Takes text r rest) :
    answer text 0 = r ∧ ∀ i, answer text (i + 1) = answer rest i := by
  cases h with
  | line h rest => simp [answer, Bytes.pieces_line h]
  | last h hne => simp [answer, Bytes.pieces_unended h hne, Bytes.pieces_nil]
  | closed => exact ⟨rfl, fun i => rfl⟩

/-- What was read of the rest of a text, behind what one read takes, is what was read of the text. -/
theorem Takes.pieces_eq {text rest : Bytes} {r : Bytes × Option HostFailure} (h : Takes text r rest)
    {done after : Bytes} {n : Nat} (hrest : rest = done ++ after)
    (hdone : Bytes.pieces done = (Bytes.pieces rest).take n) :
    ∃ done, text = done ++ after ∧ Bytes.pieces done = (Bytes.pieces text).take (n + 1) := by
  cases h with
  | @line piece h rest =>
    refine ⟨piece ++ Ascii.newline :: done, by rw [hrest, List.append_assoc]; rfl, ?_⟩
    rw [Bytes.pieces_line h, Bytes.pieces_line h, List.take_succ_cons, hdone]
  | last h hne =>
    obtain ⟨rfl, rfl⟩ := List.append_eq_nil_iff.mp hrest.symm
    refine ⟨text, (List.append_nil text).symm, ?_⟩
    rw [Bytes.pieces_unended h hne, List.take_succ_cons, List.take_nil]
  | closed =>
    obtain ⟨rfl, rfl⟩ := List.append_eq_nil_iff.mp hrest.symm
    exact ⟨[], rfl, rfl⟩

/-- However its source delivers a text, and whatever is written between the reads, each read of a console returns the
next piece of the text, and that there is no more input behind the last one. No byte is lost, read twice or moved: the
pieces returned are those of the text in front of what is not read yet. -/
theorem answers_eq (c : Console) (calls : List Call) (hc : c.EndsCleanly) (hflush : c.Flushing calls) :
    let n := calls.count .readLine
    (c.serveAll calls).2 = (List.range n).map (answer c.unread) ∧
      ∃ done, c.unread = done ++ (c.serveAll calls).1.unread ∧
        Bytes.pieces done = (Bytes.pieces c.unread).take n := by
  induction calls generalizing c with
  | nil => exact ⟨rfl, [], rfl, rfl⟩
  | cons call calls ih =>
    obtain ⟨hready, hrest⟩ := hflush
    cases call with
    | write data => exact ih (c.write data).1 hc hrest
    | flush => exact ih c.flush.1 hc hrest
    | readLine =>
      obtain ⟨htakes, hclean⟩ := takes_readLine hc (hready rfl)
      obtain ⟨hanswers, done, hunread, hdone⟩ := ih c.readLine.1 hclean hrest
      obtain ⟨hfirst, hothers⟩ := htakes.answer_eq
      dsimp only
      rw [List.count_cons_self]
      refine ⟨?_, htakes.pieces_eq hunread hdone⟩
      rw [List.range_succ_eq_map, List.map_cons, List.map_map, hfirst, serveAll]
      show c.readLine.2 :: (c.readLine.1.serveAll calls).2 = _
      rw [hanswers]
      exact congrArg _ (List.map_congr_left fun i _ => (hothers i).symm)

/-- Output through a buffer to a sink without a limit can always be flushed. -/
theorem flushing_of_mirrors {plain : Output} {c : Console} (h : Output.Mirrors plain c.output) (calls : List Call) :
    c.Flushing calls := by
  induction calls generalizing plain c with
  | nil => trivial
  | cons call calls ih =>
    obtain ⟨-, hflush, hflushed, -⟩ := h.flush
    cases call with
    | write data =>
      obtain ⟨_, buffered, -, hwrite, hwritten⟩ := h.write data
      have houtput : (c.write data).1.output = buffered := congrArg Prod.fst hwrite
      rw [← houtput] at hwritten
      exact ⟨by rintro ⟨⟩, ih hwritten⟩
    | flush => exact ⟨by rintro ⟨⟩, ih hflushed⟩
    | readLine =>
      rw [← output_readLine] at hflushed
      exact ⟨fun _ => hflush, ih hflushed⟩

/-- A console whose source delivers two lines and an unended one, cut within the end of the first. -/
def cutLines : Console where
  input := some ⟨[[0x68, 0x69, 0x0d], [], [0x0a, 0x0a, 0x6f]], false⟩
  output := .buffered ⟨#[], none⟩ [] none

theorem answers_eq_cutLines :
    cutLines.EndsCleanly ∧
      cutLines.Flushing [.write (bytes "> "), .readLine, .readLine, .flush, .readLine, .readLine] ∧
      (cutLines.serveAll [.write (bytes "> "), .readLine, .readLine, .flush, .readLine, .readLine]).2 =
        [(bytes "hi", none), ([], none), (bytes "o", none), ([], some .inputClosed)] := by
  have hclean : cutLines.EndsCleanly := by
    rintro _ ⟨⟩
    refine ⟨rfl, fun hempty => ?_⟩
    -- there are fewer chunks than reads that are borne
    exact absurd hempty.length_le (by decide)
  have hflushing : cutLines.Flushing [.write (bytes "> "), .readLine, .readLine, .flush, .readLine, .readLine] :=
    flushing_of_mirrors (Output.mirrors_start #[]) _
  have hanswers := (answers_eq cutLines _ hclean hflushing).1
  exact ⟨hclean, hflushing, hanswers.trans (by decide)⟩

end Console

end WordMachine
