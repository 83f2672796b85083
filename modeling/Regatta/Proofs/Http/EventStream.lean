import Regatta.Http.EventStream
import Regatta.Proofs.Text.Split

/-! What a client reads in an event stream.

A client takes a stream byte by byte (`Reader.step`): a line ends at a line feed, at a carriage
return or at both together, a line is a field of the event under way, and an empty line ends the
event. A log line is written with a field for each of its own lines, but only line feeds divide
these. So a line without carriage returns is read as it was written (`read_data`); one with a
carriage return never is, since nothing that a client reads has one in it (`Reader.Clean`). Either
way the next log line finds the client between two events (`run_data`). -/
namespace Regatta.Http.EventStream

/-! ### Reading -/

/-- An event as a client sees it. One that was given no name has the empty one. -/
structure Event where
  name : Text
  data : Text
deriving DecidableEq, Repr

structure Reader where
  /-- Whether the last byte was a carriage return, to which a line feed belongs. -/
  returned : Bool := false
  line : Text := []
  /-- The name and the data fields that the event under way has so far. -/
  name : Text := []
  fields : List Text := []
deriving DecidableEq, Repr

namespace Reader

/-- The name and the value of a field; a blank behind the colon does not count. -/
def split (line : Text) : Text × Text :=
  match Text.cut (Text.byte ':') line with
  | none => (line, [])
  | some (name, value) => (name, (Text.stripPrefix? " " value).getD value)

def take (r : Reader) : Text × Text → Reader
  | (name, value) =>
    if name == "data" then { r with fields := r.fields ++ [value] }
    else if name == "event" then { r with name := value }
    else r

/-- The end of a line. An empty line ends the event, which counts if it has data. -/
def endLine (r : Reader) : Reader × List Event :=
  if r.line.isEmpty then
    ({}, if r.fields.isEmpty then [] else [⟨r.name, Text.join "\n" r.fields⟩])
  else ({ r.take (split r.line) with line := [], returned := false }, [])

def step (r : Reader) (b : UInt8) : Reader × List Event :=
  if b == Text.byte '\n' then
    if r.returned then ({ r with returned := false }, []) else r.endLine
  else if b == Text.byte '\r' then
    let (r, events) := r.endLine
    ({ r with returned := true }, events)
  else ({ r with line := r.line ++ [b], returned := false }, [])

def run (r : Reader) : Text → Reader
  | [] => r
  | b :: rest => (r.step b).1.run rest

def events (r : Reader) : Text → List Event
  | [] => []
  | b :: rest => (r.step b).2 ++ (r.step b).1.events rest

end Reader

def field (t : Text) : Text := "data: " ++ t ++ "\n"

theorem data_eq (line : Text) :
    data line = (Text.splitOn (Text.byte '\n') line).flatMap field ++ "\n" := rfl

def read (stream : Text) : List Event := Reader.events {} stream

namespace Reader

theorem run_append (r : Reader) (s t : Text) : r.run (s ++ t) = (r.run s).run t := by
  induction s generalizing r with
  | nil => rfl
  | cons b rest ih => exact ih _

theorem events_append (r : Reader) (s t : Text) :
    r.events (s ++ t) = r.events s ++ (r.run s).events t := by
  induction s generalizing r with
  | nil => rfl
  | cons b rest ih => simp only [List.cons_append, events, run, ih, List.append_assoc]

/-! ### What holds of every client -/

/-- A client keeps nothing that ends a line. -/
structure Clean (r : Reader) : Prop where
  line : Text.byte '\r' ∉ r.line
  fields : ∀ f ∈ r.fields, Text.byte '\r' ∉ f
  returned : r.returned = true → r.line = []

theorem clean_start : Clean {} := ⟨List.not_mem_nil, by simp, fun _ => rfl⟩

theorem mem_split {line : Text} {b : UInt8} (h : b ∈ (split line).2) : b ∈ line := by
  unfold split at h
  split at h
  · cases h
  · rename_i name value hcut
    rw [(Text.cut_eq_some.mp hcut).1]
    refine List.mem_append_right _ (List.mem_cons_of_mem _ ?_)
    cases hstrip : Text.stripPrefix? " " value with
    | none => simpa [hstrip] using h
    | some rest =>
      rw [Text.stripPrefix?_eq_some.mp hstrip]
      exact List.mem_append_right _ (by simpa [hstrip] using h)

variable {r : Reader}

theorem Clean.endLine (h : r.Clean) :
    r.endLine.1.Clean ∧ r.endLine.1.line = [] ∧ ∀ e ∈ r.endLine.2, Text.byte '\r' ∉ e.data := by
  unfold Reader.endLine
  split
  · refine ⟨clean_start, rfl, fun e he => ?_⟩
    split at he
    · cases he
    · cases List.mem_singleton.mp he
      intro hmem
      rcases Text.mem_join hmem with hsep | ⟨f, hf, hmem⟩
      · exact absurd hsep (by decide)
      · exact h.fields f hf hmem
  · refine ⟨⟨List.not_mem_nil, fun f hf => ?_, fun _ => rfl⟩, rfl, by simp⟩
    unfold Reader.take at hf
    dsimp only at hf
    split at hf
    · rcases List.mem_append.mp hf with hf | hf
      · exact h.fields f hf
      · cases List.mem_singleton.mp hf
        exact fun hmem => h.line (mem_split hmem)
    · split at hf <;> exact h.fields f hf

theorem Clean.step (h : r.Clean) (b : UInt8) :
    (r.step b).1.Clean ∧ ∀ e ∈ (r.step b).2, Text.byte '\r' ∉ e.data := by
  obtain ⟨hclean, hline, hdata⟩ := h.endLine
  unfold Reader.step
  split
  · split
    · exact ⟨⟨h.line, h.fields, by simp⟩, by simp⟩
    · exact ⟨hclean, hdata⟩
  · split
    · exact ⟨⟨hclean.line, hclean.fields, fun _ => hline⟩, hdata⟩
    · rename_i hreturn
      refine ⟨⟨fun hmem => ?_, h.fields, by simp⟩, by simp⟩
      rcases List.mem_append.mp hmem with hmem | hmem
      · exact h.line hmem
      · exact hreturn (beq_iff_eq.mpr (List.mem_singleton.mp hmem).symm)

theorem Clean.run (h : r.Clean) (t : Text) : (r.run t).Clean := by
  induction t generalizing r with
  | nil => exact h
  | cons b rest ih => exact ih (h.step b).1

theorem Clean.events (h : r.Clean) (t : Text) :
    ∀ e ∈ r.events t, Text.byte '\r' ∉ e.data := by
  induction t generalizing r with
  | nil => simp [Reader.events]
  | cons b rest ih =>
    intro e he
    rcases List.mem_append.mp he with he | he
    · exact (h.step b).2 e he
    · exact ih (h.step b).1 e he

theorem endLine_of_blank (h : r.line = []) : r.endLine.1 = {} := by
  simp [endLine, h]

theorem step_lineFeed (h : r.returned = false) : r.step (Text.byte '\n') = r.endLine := by
  simp [step, h]

theorem returned_endLine (r : Reader) : r.endLine.1.returned = false := by
  unfold endLine
  split <;> rfl

/-- Two line feeds end whatever was under way. -/
theorem Clean.run_blank (h : r.Clean) : r.run "\n\n" = {} := by
  show ((r.step (Text.byte '\n')).1.step (Text.byte '\n')).1 = {}
  cases hreturned : r.returned with
  | false =>
    rw [step_lineFeed hreturned, step_lineFeed r.returned_endLine]
    exact endLine_of_blank h.endLine.2.1
  | true =>
    have hfirst : (r.step (Text.byte '\n')).1 = { r with returned := false } := by
      simp [Reader.step, hreturned]
    rw [hfirst, step_lineFeed rfl]
    exact endLine_of_blank (h.returned hreturned)

/-! ### Fields -/

theorem step_plain (r : Reader) {b : UInt8} (hfeed : b ≠ Text.byte '\n') (hreturn : b ≠ Text.byte '\r') :
    r.step b = ({ r with line := r.line ++ [b], returned := false }, []) := by
  simp [step, hfeed, hreturn]

theorem run_plain (h : r.returned = false) {t : Text} (hfeed : Text.byte '\n' ∉ t)
    (hreturn : Text.byte '\r' ∉ t) :
    r.run t = { r with line := r.line ++ t } ∧ r.events t = [] := by
  induction t generalizing r with
  | nil => exact ⟨by simp [run], rfl⟩
  | cons b rest ih =>
    rw [List.mem_cons, not_or] at hfeed hreturn
    have hstep := r.step_plain (Ne.symm hfeed.1) (Ne.symm hreturn.1)
    obtain ⟨hrun, hevents⟩ := ih (r := (r.step b).1) (by rw [hstep]) hfeed.2 hreturn.2
    rw [run, events, hrun, hevents, hstep]
    simp [← h]

theorem run_field (hline : r.line = []) (h : r.returned = false) {t : Text}
    (hfeed : Text.byte '\n' ∉ t) (hreturn : Text.byte '\r' ∉ t) :
    r.run (field t) = { r with fields := r.fields ++ [t] } ∧ r.events (field t) = [] := by
  have hname : Text.byte '\n' ∉ Text.ofString "data: " ∧ Text.byte '\r' ∉ Text.ofString "data: " := by
    decide
  have hplain : r.run ("data: " ++ t) = { r with line := "data: " ++ t } ∧
      r.events ("data: " ++ t) = [] := by
    have hrun := run_plain h (fun hmem => (List.mem_append.mp hmem).elim hname.1 hfeed)
      (fun hmem => (List.mem_append.mp hmem).elim hname.2 hreturn)
    rwa [hline, List.nil_append] at hrun
  have hend : ({ r with line := "data: " ++ t } : Reader).step (Text.byte '\n') =
      ({ r with fields := r.fields ++ [t] }, []) := by
    rw [step_lineFeed (r := { r with line := "data: " ++ t }) h]
    show ({ r with fields := r.fields ++ [t], line := [], returned := false }, []) = _
    rw [hline, h]
  unfold field
  rw [run_append, events_append, hplain.1, hplain.2]
  exact ⟨congrArg (·.1) hend, congrArg (·.2 ++ []) hend⟩

theorem run_fields (hline : r.line = []) (h : r.returned = false) (ts : List Text)
    (hts : ∀ t ∈ ts, Text.byte '\n' ∉ t ∧ Text.byte '\r' ∉ t) :
    r.run (ts.flatMap field) = { r with fields := r.fields ++ ts } ∧
      r.events (ts.flatMap field) = [] := by
  induction ts generalizing r with
  | nil => simp [run, events]
  | cons t rest ih =>
    obtain ⟨ht, hrest⟩ := List.forall_mem_cons.mp hts
    obtain ⟨hrun, hevents⟩ := run_field hline h ht.1 ht.2
    obtain ⟨hrun', hevents'⟩ := ih (r := { r with fields := r.fields ++ [t] }) hline h hrest
    rw [List.flatMap_cons, run_append, events_append, hrun, hevents, hrun', hevents']
    simp

end Reader

/-! ### Log lines -/

open Reader

/-- A log line of any kind leaves the client between two events. -/
theorem run_data (line : Text) : ({} : Reader).run (data line) = {} := by
  obtain ⟨before, last, hsplit⟩ := (List.eq_nil_or_concat _).resolve_left
    (Text.splitOn_ne_nil (Text.byte '\n') line)
  have hdata : data line = (before.flatMap field ++ ("data: " ++ last)) ++ "\n\n" := by
    rw [data_eq, hsplit, List.concat_eq_append, List.flatMap_append, List.flatMap_singleton, field]
    simp only [List.append_assoc]
    rfl
  rw [hdata, run_append]
  exact (clean_start.run _).run_blank

theorem read_data {line : Text} (h : Text.byte '\r' ∉ line) : read (data line) = [⟨[], line⟩] := by
  have hpieces : ∀ t ∈ Text.splitOn (Text.byte '\n') line,
      Text.byte '\n' ∉ t ∧ Text.byte '\r' ∉ t := by
    intro t ht
    refine ⟨Text.not_mem_of_splitOn ht, fun hmem => h ?_⟩
    rw [← Text.join_splitOn (Text.byte '\n') line]
    exact Text.mem_join_of_mem ht hmem
  obtain ⟨hrun, hevents⟩ := run_fields (r := {}) rfl rfl _ hpieces
  have hblank : ∀ fields : List Text, fields ≠ [] →
      ({ fields } : Reader).events "\n" = [⟨[], Text.join "\n" fields⟩] := by
    intro fields hne
    show (if fields.isEmpty then [] else _) ++ [] = _
    rw [if_neg (by simpa using hne)]
    rfl
  rw [read, data_eq, events_append, hrun, hevents]
  refine (hblank _ (Text.splitOn_ne_nil _ _)).trans ?_
  exact congrArg (fun t => [Event.mk [] t]) (Text.join_splitOn (Text.byte '\n') line)

variable (lines : List Text) (rest : Text)

/-- What a client reads in a log line is not changed by what comes before it or behind it. -/
theorem read_append_data :
    read (lines.flatMap data ++ rest) = lines.flatMap (fun line => read (data line)) ++ read rest := by
  induction lines with
  | nil => rfl
  | cons line more ih =>
    rw [List.flatMap_cons, List.append_assoc, read, events_append, run_data, List.flatMap_cons,
      List.append_assoc, ← ih]
    rfl

theorem read_done : read done = [⟨"done", "stream complete"⟩] := by decide +kernel

/-- A client reads one event for each log line, with the line as its data, exactly when no line has
a carriage return in it. -/
theorem read_lines_iff :
    read (lines.flatMap data ++ rest) = lines.map (⟨[], ·⟩) ++ read rest ↔
      ∀ line ∈ lines, Text.byte '\r' ∉ line := by
  constructor
  · intro h line hline
    have hmem : (⟨[], line⟩ : Event) ∈ read (lines.flatMap data ++ rest) := by
      rw [h]
      exact List.mem_append_left _ (List.mem_map_of_mem hline)
    exact clean_start.events _ _ hmem
  · intro h
    rw [read_append_data]
    refine congrArg (· ++ read rest) ?_
    induction lines with
    | nil => rfl
    | cons line more ih =>
      obtain ⟨hline, hmore⟩ := List.forall_mem_cons.mp h
      rw [List.flatMap_cons, read_data hline, ih hmore]
      rfl

end Regatta.Http.EventStream
