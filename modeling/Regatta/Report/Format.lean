import Regatta.Report.Csv
import Regatta.Report.Row
import Regatta.Report.Table

/-! Reports of many rows in the formats that can be asked for. -/
namespace Regatta

/-- The name of a report format. Any text can be carried; only some are written. -/
structure ReportFormat where
  name : Text
deriving DecidableEq, Repr, Inhabited

namespace ReportFormat

def csv : ReportFormat := ⟨"csv"⟩
def json : ReportFormat := ⟨"json"⟩
def text : ReportFormat := ⟨"text"⟩

inductive ParseError where
  | unknown (name : Text)

def ParseError.message : ParseError → Text
  | .unknown n => "unknown report format " ++ Text.quoted n ++ ": must be csv, json or text"

/-- No name at all asks for comma separated values. -/
def parse (name : Text) : Except ParseError ReportFormat :=
  if name.isEmpty then .ok csv
  else if [csv, json, text].contains ⟨name⟩ then .ok ⟨name⟩
  else .error (.unknown name)

end ReportFormat

namespace Report

/-- The file a batch report is written to. -/
def defaultName : Text := "dataset_results.csv"

inductive Fault where
  | unknownFormat (name : Text)
  | csvRow
  | csvFlush
  | json
  | text
  /-- The table broke down while it was laid out once more. -/
  | breakdown

/-- The message; `cause` says why the sink refused a write. -/
def Fault.message (cause : Text) : Fault → Text
  | .unknownFormat n => "unknown report format " ++ Text.quoted n
  | .csvRow => "write csv row: " ++ cause
  | .csvFlush => "flush csv: " ++ cause
  | .json => "encode json report: " ++ cause
  | .text => "write text report: " ++ cause
  | .breakdown => "table layout"

/-- Size of the chunks in which comma separated values are written. -/
def chunkSize : Nat := 4096

/-- Writes a text in full chunks and a last one that may be shorter. -/
def writeBuffered (s : Sink) (t : Text) : Except Fault Sink :=
  if _h : chunkSize < t.length then
    match s.write (t.take chunkSize) with
    | .error _ => .error .csvRow
    | .ok s => writeBuffered s (t.drop chunkSize)
  else
    match s.write t with
    | .error _ => .error .csvFlush
    | .ok s => .ok s
termination_by t.length
decreasing_by simp [chunkSize] at _h ⊢; omega

def toJson (rows : List Row) : Json := .array (rows.map Row.toJson)

def writeCsv (s : Sink) (rows : List Row) : Except Fault Sink :=
  writeBuffered s (Csv.render (Row.header :: rows.map Row.cells))

def writeJson (s : Sink) (rows : List Row) : Except Fault Sink :=
  match s.write ((toJson rows).renderIndented 0 ++ "\n") with
  | .error _ => .error .json
  | .ok s => .ok s

def writeText (s : Sink) (rows : List Row) : Except Fault Sink :=
  match Table.write s (Row.header :: rows.map Row.cells) with
  | .ok s => .ok s
  | .error (.full ..) => .error .text
  | .error .overrun => .error .breakdown

/-- Writes a report; no format at all means comma separated values. -/
def write (s : Sink) (format : ReportFormat) (rows : List Row) : Except Fault Sink :=
  if format == .csv || format.name.isEmpty then writeCsv s rows
  else if format == .json then writeJson s rows
  else if format == .text then writeText s rows
  else .error (.unknownFormat format.name)

end Report
end Regatta
