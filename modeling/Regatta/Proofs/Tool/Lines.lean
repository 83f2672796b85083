import Regatta.Proofs.Text.Split
import Regatta.Tool.Process

/-! The lines of a stream do not depend on the pieces it arrives in.

A stream is a row of lines with a line feed behind each, and what follows the last line feed
(`IsLines`). A writer keeps what has followed the last line feed so far (`LineWriter.Holds`), so with
each piece it passes on what the stream has gained in complete lines (`Holds.write`), and when the
stream has ended it has passed on its lines and no others (`lines_of_stream`). Of two streams each
has a writer of its own, and their pieces are taken in one after another. What is passed on is then
made of the lines of the two streams, whole and each stream's in their order (`Interleaved`). -/
namespace Regatta.Tool

open LineWriter (lineFeed carriageReturn trimmed)

/-! ### Lines of a stream -/

/-- The lines of a stream: what stands before each line feed, without the carriage returns at its
end, and what follows the last line feed, if that is anything. -/
inductive IsLines : Text → List Text → Prop
  | nil : IsLines [] []
  | rest {t : Text} (hne : t ≠ []) (h : lineFeed ∉ t) : IsLines t [t]
  | line {body more : Text} {lines : List Text} (returns : Nat) (hbody : lineFeed ∉ body)
    (hlast : body.getLast? ≠ some carriageReturn) (h : IsLines more lines) :
    IsLines (body ++ List.replicate returns carriageReturn ++ lineFeed :: more) (body :: lines)

/-- The lines that a line feed has completed. -/
def completeLines (t : Text) : List Text := (Text.splitOn lineFeed t).dropLast.map trimmed

/-- What follows the last line feed. -/
def remainder (t : Text) : Text := (Text.splitOn lineFeed t).getLast?.getD []

def lastLine (t : Text) : List Text := if (remainder t).isEmpty then [] else [remainder t]

variable {t u : Text}

theorem splitOn_eq (t : Text) :
    Text.splitOn lineFeed t = (Text.splitOn lineFeed t).dropLast ++ [remainder t] := by
  have hne := Text.splitOn_ne_nil lineFeed t
  rw [remainder, List.getLast?_eq_some_getLast hne]
  exact (List.dropLast_concat_getLast hne).symm

theorem completeLines_append (t u : Text) :
    completeLines (t ++ u) = completeLines t ++ completeLines (remainder t ++ u) := by
  unfold completeLines
  rw [Text.splitOn_append_last (splitOn_eq t),
    List.dropLast_append_of_ne_nil (Text.splitOn_ne_nil _ _), List.map_append]

theorem remainder_append (t u : Text) : remainder (t ++ u) = remainder (remainder t ++ u) := by
  have hne := Text.splitOn_ne_nil lineFeed (remainder t ++ u)
  have hlast : (Text.splitOn lineFeed (t ++ u)).getLast? =
      (Text.splitOn lineFeed (remainder t ++ u)).getLast? := by
    rw [Text.splitOn_append_last (splitOn_eq t), List.getLast?_append,
      List.getLast?_eq_some_getLast hne, Option.some_or]
  exact congrArg (Option.getD · []) hlast

theorem completeLines_of_not_mem (h : lineFeed ∉ t) : completeLines t = [] := by
  unfold completeLines
  rw [Text.splitOn_of_not_mem h]
  rfl

theorem remainder_of_not_mem (h : lineFeed ∉ t) : remainder t = t := by
  unfold remainder
  rw [Text.splitOn_of_not_mem h]
  rfl

theorem completeLines_line (h : lineFeed ∉ t) (more : Text) :
    completeLines (t ++ lineFeed :: more) = trimmed t :: completeLines more := by
  unfold completeLines
  rw [Text.splitOn_append h, List.dropLast_cons_of_ne_nil (Text.splitOn_ne_nil _ _), List.map_cons]

theorem lastLine_line (h : lineFeed ∉ t) (more : Text) :
    lastLine (t ++ lineFeed :: more) = lastLine more := by
  have hremainder : remainder (t ++ lineFeed :: more) = remainder more := by
    unfold remainder
    rw [Text.splitOn_append h, List.getLast?_cons_of_ne_nil (Text.splitOn_ne_nil _ _)]
  unfold lastLine
  rw [hremainder]

theorem exists_trimmed (t : Text) : ∃ returns, t = trimmed t ++ List.replicate returns carriageReturn ∧
    (trimmed t).getLast? ≠ some carriageReturn := by
  have hreturns : t.reverse.takeWhile (· == carriageReturn) =
      List.replicate (t.reverse.takeWhile (· == carriageReturn)).length carriageReturn :=
    List.eq_replicate_of_mem fun b hb => beq_iff_eq.mp (List.all_eq_true.mp List.all_takeWhile b hb)
  refine ⟨(t.reverse.takeWhile (· == carriageReturn)).length, ?_, fun hlast => ?_⟩
  · rw [trimmed, ← List.reverse_replicate, ← hreturns, ← List.reverse_append,
      List.takeWhile_append_dropWhile, List.reverse_reverse]
  · have hhead := List.head?_dropWhile_not (· == carriageReturn) t.reverse
    rw [trimmed, List.getLast?_reverse] at hlast
    rw [hlast] at hhead
    exact absurd hhead (by decide)

theorem trimmed_append (returns : Nat) (h : t.getLast? ≠ some carriageReturn) :
    trimmed (t ++ List.replicate returns carriageReturn) = t := by
  have hdrop : t.reverse.dropWhile (· == carriageReturn) = t.reverse := by
    rw [← List.head?_reverse] at h
    cases hreverse : t.reverse with
    | nil => rfl
    | cons b rest =>
      rw [hreverse] at h
      exact List.dropWhile_cons_of_neg fun hb => h (congrArg some (beq_iff_eq.mp hb))
  rw [trimmed, List.reverse_append, List.reverse_replicate,
    List.dropWhile_append_of_pos fun b hb => beq_iff_eq.mpr (List.eq_of_mem_replicate hb), hdrop,
    List.reverse_reverse]

theorem isLines_lines (t : Text) : IsLines t (completeLines t ++ lastLine t) := by
  induction hn : t.length using Nat.strongRecOn generalizing t with
  | ind n ih =>
    by_cases hmem : lineFeed ∈ t
    · obtain ⟨first, more, rfl, hfirst⟩ := List.eq_append_cons_of_mem hmem
      have hmore := ih more.length (by simp [← hn]; omega) more rfl
      rw [completeLines_line hfirst, lastLine_line hfirst]
      obtain ⟨returns, hsplit, hlast⟩ := exists_trimmed first
      generalize trimmed first = body at hsplit hlast
      subst hsplit
      exact .line returns (fun h => hfirst (List.mem_append_left _ h)) hlast hmore
    · rw [completeLines_of_not_mem hmem, lastLine, remainder_of_not_mem hmem]
      cases t with
      | nil => exact .nil
      | cons b rest => exact .rest (List.cons_ne_nil b rest) hmem

theorem isLines_iff {lines : List Text} : IsLines t lines ↔ lines = completeLines t ++ lastLine t := by
  refine ⟨fun h => ?_, fun h => h ▸ isLines_lines t⟩
  induction h with
  | nil => rfl
  | @rest t hne hmem =>
    rw [completeLines_of_not_mem hmem, lastLine, remainder_of_not_mem hmem,
      if_neg (by simpa using hne)]
    rfl
  | @line body more lines returns hbody hlast _ ih =>
    have hline : lineFeed ∉ body ++ List.replicate returns carriageReturn := by
      rw [List.mem_append]
      rintro (h | h)
      · exact hbody h
      · exact absurd (List.eq_of_mem_replicate h) (by decide)
    rw [completeLines_line hline, lastLine_line hline, trimmed_append returns hlast, ih]
    rfl

/-! ### One writer -/

namespace LineWriter

/-- Follows one stream that arrives in these pieces: the lines that are passed on, and all of it. -/
def follow (logged : Bool) (pieces : List Text) : List Text × Text :=
  let (complete, w) := passOn write { logged } pieces
  let (leftover, w) := w.flush
  (complete ++ leftover, w.received)

/-- The writer has taken in this much of the stream. -/
structure Holds (w : LineWriter) (t : Text) : Prop where
  logged : w.logged = true
  received : w.received = t
  pending : w.pending = remainder t

variable {w : LineWriter}

theorem holds_opened : Holds { logged := true } [] := ⟨rfl, rfl, rfl⟩

/-- With a piece the writer passes on what the stream gains in complete lines. -/
theorem Holds.write (h : Holds w t) (piece : Text) :
    completeLines (t ++ piece) = completeLines t ++ (w.write piece).1 ∧
      Holds (w.write piece).2 (t ++ piece) := by
  unfold LineWriter.write
  simp only [h.logged, if_true]
  refine ⟨?_, rfl, ?_, ?_⟩
  · rw [completeLines_append, ← h.pending]
    rfl
  · exact congrArg (· ++ piece) h.received
  · rw [remainder_append, ← h.pending]
    rfl

theorem Holds.passOn (h : Holds w t) (pieces : List Text) :
    completeLines (t ++ pieces.flatten) = completeLines t ++ (passOn LineWriter.write w pieces).1 ∧
      Holds (Tool.passOn LineWriter.write w pieces).2 (t ++ pieces.flatten) := by
  induction pieces generalizing w t with
  | nil =>
    rw [List.flatten_nil, List.append_nil]
    exact ⟨(List.append_nil _).symm, h⟩
  | cons piece rest ih =>
    obtain ⟨hlines, hholds⟩ := h.write piece
    obtain ⟨hmore, hend⟩ := ih hholds
    rw [List.flatten_cons, ← List.append_assoc]
    refine ⟨?_, hend⟩
    rw [hmore, hlines, List.append_assoc]
    rfl

theorem Holds.flush (h : Holds w t) : w.flush.1 = lastLine t := by
  unfold LineWriter.flush lastLine
  rw [h.logged, h.pending]
  cases (remainder t).isEmpty <;> rfl

theorem lines_follow (pieces : List Text) : (follow true pieces).1 =
    completeLines pieces.flatten ++ lastLine pieces.flatten := by
  obtain ⟨hlines, hholds⟩ := holds_opened.passOn pieces
  have hcomplete : (passOn write { logged := true } pieces).1 = completeLines pieces.flatten :=
    hlines.symm
  have hleftover : (passOn write { logged := true } pieces).2.flush.1 = lastLine pieces.flatten :=
    hholds.flush
  rw [← hcomplete, ← hleftover]
  rfl

theorem received_follow (pieces : List Text) : (follow true pieces).2 = pieces.flatten :=
  (holds_opened.passOn pieces).2.received

end LineWriter

/-! ### Two writers -/

/-- A list made of the members of two others, those of each in their order. -/
inductive Interleaved {α : Type} : List α → List α → List α → Prop
  | nil : Interleaved [] [] []
  | left {xs ys zs : List α} (x : α) (h : Interleaved xs ys zs) : Interleaved (x :: xs) ys (x :: zs)
  | right {xs ys zs : List α} (y : α) (h : Interleaved xs ys zs) : Interleaved xs (y :: ys) (y :: zs)

namespace Interleaved

variable {α : Type} {xs ys zs : List α}

theorem append_left (l : List α) (h : Interleaved xs ys zs) : Interleaved (l ++ xs) ys (l ++ zs) := by
  induction l with
  | nil => exact h
  | cons x l ih => exact .left x ih

theorem append_right (l : List α) (h : Interleaved xs ys zs) : Interleaved xs (l ++ ys) (l ++ zs) := by
  induction l with
  | nil => exact h
  | cons y l ih => exact .right y ih

theorem append {xs' ys' zs' : List α} (h : Interleaved xs ys zs) (h' : Interleaved xs' ys' zs') :
    Interleaved (xs ++ xs') (ys ++ ys') (zs ++ zs') := by
  induction h with
  | nil => exact h'
  | left x _ ih => exact .left x ih
  | right y _ ih => exact .right y ih

end Interleaved

namespace Streams

def pieces (which : Stream) (arrival : List Piece) : List Text :=
  (arrival.filter fun p => p.1 = which).map Prod.snd

def stream (which : Stream) (arrival : List Piece) : Text := (pieces which arrival).flatten

theorem passOn_write (s : Streams) (arrival : List Piece) :
    Interleaved (passOn LineWriter.write s.out (pieces .out arrival)).1
      (passOn LineWriter.write s.err (pieces .err arrival)).1 (passOn write s arrival).1 ∧
    (passOn write s arrival).2 = ⟨(passOn LineWriter.write s.out (pieces .out arrival)).2,
      (passOn LineWriter.write s.err (pieces .err arrival)).2⟩ := by
  induction arrival generalizing s with
  | nil => exact ⟨.nil, rfl⟩
  | cons p rest ih =>
    obtain ⟨which, piece⟩ := p
    cases which with
    | out =>
      obtain ⟨hlines, hend⟩ := ih { s with out := (s.out.write piece).2 }
      exact ⟨hlines.append_left _, hend⟩
    | err =>
      obtain ⟨hlines, hend⟩ := ih { s with err := (s.err.write piece).2 }
      exact ⟨hlines.append_right _, hend⟩

theorem lines_follow (arrival : List Piece) :
    Interleaved (LineWriter.follow true (pieces .out arrival)).1
      (LineWriter.follow true (pieces .err arrival)).1 (follow true arrival).lines := by
  obtain ⟨hlines, hend⟩ := passOn_write (opened true) arrival
  have hrest (xs ys : List Text) : Interleaved xs ys (xs ++ ys) := by
    have := (Interleaved.nil.append_right ys).append_left xs
    rwa [List.append_nil, List.append_nil] at this
  refine hlines.append ?_
  show Interleaved _ _ (flush (passOn write (opened true) arrival).2).1
  rw [hend]
  exact hrest _ _

theorem output_follow (arrival : List Piece) :
    (follow true arrival).output = stream .out arrival ++ stream .err arrival := by
  have hend := (passOn_write (opened true) arrival).2
  show (flush (passOn write (opened true) arrival).2).2.out.received ++
    (flush (passOn write (opened true) arrival).2).2.err.received = _
  rw [hend, stream, stream, ← LineWriter.received_follow, ← LineWriter.received_follow]
  rfl

/-- **The lines of a stream are passed on whole, however it arrives.** A writer passes on the lines
of the stream and no others, and holds all of it in the end. Of two streams each keeps its lines, and
they come in their order, whatever the order in which the pieces of the two are taken in. -/
theorem follow_passes_lines :
    (∀ cut : List Text, (∀ lines, IsLines cut.flatten lines ↔ lines = (LineWriter.follow true cut).1) ∧
      (LineWriter.follow true cut).2 = cut.flatten) ∧
    ∀ arrival : List Piece, (∃ outs errs, IsLines (stream .out arrival) outs ∧
      IsLines (stream .err arrival) errs ∧ Interleaved outs errs (follow true arrival).lines) ∧
      (follow true arrival).output = stream .out arrival ++ stream .err arrival := by
  refine ⟨fun cut => ⟨fun lines => ?_, LineWriter.received_follow cut⟩, fun arrival =>
    ⟨⟨_, _, ?_, ?_, lines_follow arrival⟩, output_follow arrival⟩⟩
  · rw [LineWriter.lines_follow]
    exact isLines_iff
  · exact isLines_iff.mpr (LineWriter.lines_follow _)
  · exact isLines_iff.mpr (LineWriter.lines_follow _)

end Streams
end Regatta.Tool
