import Regatta.Report.Sink
import Regatta.Text.Rune

/-! Tables in plain text, with columns that line up.

Cells end at a tab, lines at a line feed. A column block is a maximal run of lines that have a cell
ended by a tab in that column; all cells of a block are filled up with blanks to the width of the
widest, plus two. The last cell of a line is never filled up.

Lines are kept back until the layout of all that precede is known: that is at the end, after a form
feed, and after a line of a single cell, which closes every block. Text between two bytes `FF` is
taken as it stands, tabs and line feeds included. -/
namespace Regatta.Table

structure Cell where
  text : Text
  width : Nat

abbrev Line := List Cell

/-- Blanks between the widest cell of a column and the next column. -/
def padding : Nat := 2

/-- What has been taken in and not yet laid out. -/
structure State where
  /-- Lines that are complete, the last one first. -/
  complete : List Line
  /-- The complete cells of the current line, the last one first. -/
  current : List Cell
  /-- The text of the incomplete cell, reversed. -/
  pending : Text
  /-- The part of that text whose width is not yet in `width`, reversed. -/
  unmeasured : Text
  width : Nat
  /-- Whether the text is between two bytes `FF`. -/
  verbatim : Bool
  /-- Column widths that an interrupted layout leaves behind. -/
  widths : List Nat

def State.empty : State := ⟨[], [], [], [], 0, false, []⟩

/-- Whether a line has a cell in the column that is filled up. -/
def reaches (column : Nat) (l : Line) : Bool := column + 1 < l.length

def blockWidth (column : Nat) (block : List Line) : Nat :=
  (block.map fun l => (l[column]?.map Cell.width).getD 0 + padding).foldl max 0

/-- Gives every line the widths of its filled-up cells, columns from `widths.length` on. -/
def layout : (depth : Nat) → (widths : List Nat) → List Line → List (Line × List Nat)
  | 0, widths, lines => lines.map (·, widths)
  | depth + 1, widths, lines =>
    let reach := reaches widths.length
    (lines.splitBy fun a b => reach a && reach b).flatMap fun block =>
      if block.any reach then layout depth (widths ++ [blockWidth widths.length block]) block
      else block.map (·, widths)

/-- Blanks are written in chunks of at most eight. -/
def blanks (n : Nat) : List Text :=
  if n == 0 then [[]]
  else List.replicate ((n - 1) / 8) (List.replicate 8 32) ++ [List.replicate ((n - 1) % 8 + 1) 32]

inductive Order where
  | put (chunk : Text)
  /-- A cell is wider than the column that an interrupted layout left behind. -/
  | burst

def cellOrders (c : Cell) (width : Option Nat) : List Order :=
  (if c.text.isEmpty then [] else [.put c.text]) ++
    width.elim [] fun w => if w < c.width then [.burst] else (blanks (w - c.width)).map .put

def lineOrders (l : Line) (widths : List Nat) : List Order :=
  l.zipIdx.flatMap fun (c, column) => cellOrders c widths[column]?

/-- The orders for lines, each with the widths of its line. No line feed follows the last line. -/
def orders (laid : List (Line × List Nat)) : List (List Nat × Order) :=
  laid.dropLast.flatMap (fun (l, widths) => (lineOrders l widths ++ [Order.put "\n"]).map (widths, ·)) ++
    laid.getLast?.toList.flatMap fun (l, widths) => (lineOrders l widths).map (widths, ·)

/-- How a write of a table ends early. -/
inductive Break where
  /-- The sink has no room left. -/
  | full (s : Sink) (widths : List Nat)
  | overrun

def obey (s : Sink) : List (List Nat × Order) → Except Break Sink
  | [] => .ok s
  | (widths, .put chunk) :: rest =>
    match s.write chunk with
    | .ok s => obey s rest
    | .error s => .error (.full s widths)
  | (_, .burst) :: _ => .error .overrun

def State.measured (t : State) : State :=
  { t with width := t.width + (Text.width t.unmeasured.reverse), unmeasured := [] }

def State.endCell (t : State) : State :=
  { t with current := ⟨t.pending.reverse, t.width⟩ :: t.current,
           pending := [], unmeasured := [], width := 0 }

/-- Ends a stretch of verbatim text; its two marks have no width. -/
def State.endVerbatim (t : State) : State :=
  let t := t.measured
  { t with width := t.width - 2, verbatim := false }

/-- The line that is not complete. -/
def State.lastLine (t : State) : Line :=
  (if t.pending.isEmpty then t else (if t.verbatim then t.endVerbatim else t).endCell).current.reverse

/-- All that was kept back, laid out. -/
def State.laidOut (t : State) : List (Line × List Nat) :=
  let lines := t.complete.reverse ++ [t.lastLine]
  layout ((lines.map List.length).foldl max 0) t.widths lines

def State.flush (t : State) (s : Sink) : Except Break Sink := obey s (orders t.laidOut)

/-- The state after one more byte, as long as nothing is laid out. -/
def State.next (t : State) (b : UInt8) : State :=
  let kept : State := { t with pending := b :: t.pending, unmeasured := b :: t.unmeasured }
  if t.verbatim then (if b == 255 then kept.endVerbatim else kept)
  else if b == 255 then
    { t.measured with pending := b :: t.pending, unmeasured := [b], verbatim := true }
  else if b == 9 || b == 11 then t.measured.endCell
  else if b == 10 || b == 12 then
    let t := t.measured.endCell
    { t with complete := t.current.reverse :: t.complete, current := [] }
  else kept

/-- Whether the byte has all lines laid out: a form feed, or the end of a line with a single cell. -/
def State.flushes (t : State) (b : UInt8) : Bool :=
  !t.verbatim && (b == 12 || b == 10 && t.current.isEmpty)

/-- Takes in one piece of text. When the sink is full the rest of the piece is lost, and what was
kept back stays. -/
def State.take (t : State) (s : Sink) : Text → Except Break (State × Sink)
  | [] => .ok (t, s)
  | b :: rest =>
    if t.flushes b then
      match (t.next b).flush s with
      | .ok s => State.empty.take s rest
      | .error (.full s widths) => .ok ({ t.next b with widths }, s)
      | .error .overrun => .error .overrun
    else (t.next b).take s rest

/-- The pieces of a table: cells, tabs between them and a line feed after each record. -/
def pieces (records : List (List Text)) : List Text :=
  records.flatMap fun r => r.intersperse (Text.ofString "\t") ++ [Text.ofString "\n"]

/-- Writes a table; a table is complete when the last layout was written. -/
def write (s : Sink) (records : List (List Text)) : Except Break Sink := do
  let (t, s) ← (pieces records).foldlM (fun (t, s) p => State.take t s p) (State.empty, s)
  t.flush s

end Regatta.Table
