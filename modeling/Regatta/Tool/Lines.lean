import Regatta.Text.Basic

/-! Lines out of the streams of a process, which arrive in pieces.

A line is complete when its line feed arrives; carriage returns before it are dropped. What is left
at the end of a stream is a line of its own, as it is. Each stream has a writer of its own, and the
writers take turns: while one passes on the lines of a piece, the other waits. -/
namespace Regatta.Tool

/-- Takes in pieces one after another, and gives the lines that each of them completes. -/
def passOn (write : σ → α → List Text × σ) (s : σ) : List α → List Text × σ
  | [] => ([], s)
  | a :: rest =>
    let (lines, s) := write s a
    let (more, s) := passOn write s rest
    (lines ++ more, s)

/-- What is known of one stream. -/
structure LineWriter where
  /-- Whether there is anyone to pass lines on to. -/
  logged : Bool
  /-- All that has arrived. -/
  received : Text := []
  /-- What has arrived after the last line feed, where lines are passed on. -/
  pending : Text := []
deriving DecidableEq, Repr

namespace LineWriter

def lineFeed : UInt8 := 10

def carriageReturn : UInt8 := 13

/-- A line without the carriage returns at its end. -/
def trimmed (t : Text) : Text := (t.reverse.dropWhile (· == carriageReturn)).reverse

/-- Takes in a piece of the stream. -/
def write (w : LineWriter) (piece : Text) : List Text × LineWriter :=
  let received := w.received ++ piece
  if w.logged then
    let parts := Text.splitOn lineFeed (w.pending ++ piece)
    (parts.dropLast.map trimmed, { w with received, pending := parts.getLast?.getD [] })
  else ([], { w with received })

/-- Ends the stream. -/
def flush (w : LineWriter) : List Text × LineWriter :=
  (if w.logged && !w.pending.isEmpty then [w.pending] else [], { w with pending := [] })

end LineWriter

inductive Stream where
  | out
  | err
deriving DecidableEq, Repr

/-- The streams of a process. -/
structure Streams where
  out : LineWriter
  err : LineWriter

/-- What became of the streams of a process. -/
structure StreamLog where
  /-- The lines that were complete while the process ran. -/
  complete : List Text
  /-- The lines that were left over when it had ended. -/
  leftover : List Text
  /-- All that was written to either stream. -/
  output : Text

def StreamLog.lines (l : StreamLog) : List Text := l.complete ++ l.leftover

namespace Streams

/-- A piece of a stream. -/
abbrev Piece := Stream × Text

def opened (logged : Bool) : Streams := ⟨{ logged }, { logged }⟩

def write (s : Streams) : Piece → List Text × Streams
  | (.out, piece) => (s.out.write piece).map id ({ s with out := · })
  | (.err, piece) => (s.err.write piece).map id ({ s with err := · })

def flush (s : Streams) : List Text × Streams :=
  let (out, o) := s.out.flush
  let (err, e) := s.err.flush
  (out ++ err, ⟨o, e⟩)

/-- Follows the streams of a process whose output arrives in these pieces. -/
def follow (logged : Bool) (arrival : List Piece) : StreamLog :=
  let (complete, s) := passOn write (opened logged) arrival
  let (leftover, s) := s.flush
  ⟨complete, leftover, s.out.received ++ s.err.received⟩

end Streams
end Regatta.Tool
