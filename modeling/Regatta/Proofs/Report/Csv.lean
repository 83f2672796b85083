import Regatta.Report.Format

/-! A report of comma separated values is read as the cells it was written from.

A document is made of records that end in a line feed, and a record of fields with commas between
them (`IsDocument`). A field stands between quotes, inside of which a quote is written twice and every
other byte stands for itself, or it has no quotes and none of the bytes that need them. A reader takes
the bytes one by one (`Reader.step`) and accepts what the grammar derives, with the records that the
grammar gives it (`parse_of_isDocument`). So a text of the grammar has one meaning, and what is written
has the meaning it was written with, whatever bytes the fields hold (`isDocument_render`). -/
namespace Regatta.Csv

/-! ### The grammar -/

/-- What stands between the quotes of a field, and the value of the field. -/
inductive IsQuoted : Text → Text → Prop
  | nil : IsQuoted [] []
  | byte {b : UInt8} {t v : Text} (hb : b ≠ quoteMark) (h : IsQuoted t v) :
    IsQuoted (b :: t) (b :: v)
  | mark {t v : Text} (h : IsQuoted t v) : IsQuoted (quoteMark :: quoteMark :: t) (quoteMark :: v)

inductive IsField : Text → Text → Prop
  | bare {t : Text} (h : ∀ b ∈ t, special b = false) : IsField t t
  | quoted {t v : Text} (h : IsQuoted t v) : IsField (quoteMark :: t ++ [quoteMark]) v

/-- One field or more, with commas between them. -/
inductive IsRecord : Text → List Text → Prop
  | single {t v : Text} (h : IsField t v) : IsRecord t [v]
  | cons {t v u : Text} {vs : List Text} (h : IsField t v) (hrest : IsRecord u vs) :
    IsRecord (t ++ comma :: u) (v :: vs)

/-- Records, each with a line feed behind it. -/
inductive IsDocument : Text → List (List Text) → Prop
  | nil : IsDocument [] []
  | cons {t u : Text} {r : List Text} {rs : List (List Text)} (h : IsRecord t r)
    (hrest : IsDocument u rs) : IsDocument (t ++ lineFeed :: u) (r :: rs)

/-! ### The reader -/

/-- Where in a field a reader is. -/
inductive Mode where
  | start
  | bare
  | quoted
  /-- After a quote that ends the field, unless another one follows. -/
  | closing
deriving DecidableEq, Repr

structure Reader where
  mode : Mode := .start
  /-- What has come of the field, of the record and of the document. -/
  field : Text := []
  record : List Text := []
  records : List (List Text) := []
deriving DecidableEq, Repr

namespace Reader

/-- A byte behind a field, which has to end it. -/
def divide (r : Reader) (b : UInt8) : Option Reader :=
  if b == comma then some { r with mode := .start, field := [], record := r.record ++ [r.field] }
  else if b == lineFeed then
    some { records := r.records ++ [r.record ++ [r.field]] }
  else none

def plain (r : Reader) (b : UInt8) : Option Reader :=
  if special b then r.divide b else some { r with mode := .bare, field := r.field ++ [b] }

def step (r : Reader) (b : UInt8) : Option Reader :=
  match r.mode with
  | .start => if b == quoteMark then some { r with mode := .quoted } else r.plain b
  | .bare => r.plain b
  | .quoted =>
    if b == quoteMark then some { r with mode := .closing }
    else some { r with field := r.field ++ [b] }
  | .closing =>
    if b == quoteMark then some { r with mode := .quoted, field := r.field ++ [b] } else r.divide b

def run (r : Reader) : Text → Option Reader
  | [] => some r
  | b :: rest => (r.step b).bind fun r => r.run rest

def finish (r : Reader) : Option (List (List Text)) :=
  if r.mode = .start ∧ r.record = [] then some r.records else none

end Reader

/-- The records of a text; `none` if it is not one of the grammar. -/
def parse (t : Text) : Option (List (List Text)) := (Reader.run {} t).bind Reader.finish

namespace Reader

theorem run_append (r : Reader) (s t : Text) : r.run (s ++ t) = (r.run s).bind fun r => r.run t := by
  induction s generalizing r with
  | nil => rfl
  | cons b rest ih =>
    show (r.step b).bind _ = ((r.step b).bind _).bind _
    rw [Option.bind_assoc]
    exact congrArg _ (funext fun r' => ih r')

variable {r : Reader} {t v : Text}

/-- Bytes that need no quotes are taken in as they are. -/
theorem run_bare (h : ∀ b ∈ t, special b = false) (hmode : r.mode = .start ∨ r.mode = .bare) :
    ∃ mode, (mode = .start ∨ mode = .bare) ∧
      r.run t = some { r with mode, field := r.field ++ t } := by
  induction t generalizing r with
  | nil => exact ⟨r.mode, hmode, by simp [run]⟩
  | cons b rest ih =>
    have hb : special b = false := h b (List.mem_cons_self ..)
    have hquote : (b == quoteMark) = false := by
      simp only [special, Bool.or_eq_false_iff] at hb
      exact hb.1.1.2
    have hstep : r.step b = some { r with mode := .bare, field := r.field ++ [b] } := by
      rcases hmode with hmode | hmode <;> simp [step, plain, hmode, hb, hquote]
    obtain ⟨mode, hmode', hrun⟩ := ih (r := { r with mode := .bare, field := r.field ++ [b] })
      (fun x hx => h x (List.mem_cons_of_mem _ hx)) (.inr rfl)
    refine ⟨mode, hmode', ?_⟩
    rw [run, hstep, Option.bind_some, hrun]
    simp

/-- Between quotes two quotes are one, and everything else is taken in as it is. -/
theorem run_quoted (h : IsQuoted t v) (hmode : r.mode = .quoted) :
    r.run t = some { r with field := r.field ++ v } := by
  induction h generalizing r with
  | nil => simp [run]
  | @byte b t v hb _ ih =>
    have hstep : r.step b = some { r with field := r.field ++ [b] } := by
      simp [step, hmode, hb]
    rw [run, hstep, Option.bind_some, ih (r := { r with field := r.field ++ [b] }) hmode]
    simp
  | @mark t v _ ih =>
    have hstep : r.step quoteMark = some { r with mode := .closing } := by
      simp [step, hmode]
    have hagain : ({ r with mode := .closing } : Reader).step quoteMark =
        some { r with field := r.field ++ [quoteMark] } := by
      simp [step, hmode]
    rw [run, hstep, Option.bind_some, run, hagain, Option.bind_some,
      ih (r := { r with field := r.field ++ [quoteMark] }) hmode]
    simp

/-- The reader has just taken in all of a field, and the next byte ends it. -/
def Ends (r r' : Reader) (v : Text) : Prop :=
  r'.field = v ∧ r'.record = r.record ∧ r'.records = r.records ∧
    ∀ b, b = comma ∨ b = lineFeed → r'.step b = r'.divide b

theorem run_field (h : IsField t v) (hmode : r.mode = .start)
    (hfield : r.field = []) : ∃ r', r.run t = some r' ∧ Ends r r' v := by
  cases h with
  | bare h =>
    obtain ⟨mode, hmode', hrun⟩ := run_bare h (.inl hmode)
    refine ⟨_, hrun, by simp [hfield], rfl, rfl, ?_⟩
    rintro b (rfl | rfl) <;> rcases hmode' with rfl | rfl <;> rfl
  | @quoted t _ h =>
    refine ⟨{ r with mode := .closing, field := v }, ?_, rfl, rfl, rfl, ?_⟩
    · have hopen : r.step quoteMark = some { r with mode := .quoted } := by
        simp [step, hmode]
      rw [List.cons_append, run, hopen, Option.bind_some, run_append, run_quoted h rfl]
      simp [run, step, hfield]
    · rintro b (rfl | rfl) <;> rfl

/-- A record and the line feed behind it are taken in, and the reader is ready for the next one. -/
theorem run_record {vs : List Text} (h : IsRecord t vs)
    (hmode : r.mode = .start) (hfield : r.field = []) :
    r.run (t ++ [lineFeed]) = some { records := r.records ++ [r.record ++ vs] } := by
  induction h generalizing r with
  | single h =>
    obtain ⟨r', hrun, rfl, hrecord, hrecords, hend⟩ := run_field h hmode hfield
    rw [run_append, hrun, Option.bind_some, run, hend _ (.inr rfl), ← hrecord, ← hrecords]
    rfl
  | @cons t v u vs h _ ih =>
    obtain ⟨r', hrun, rfl, hrecord, hrecords, hend⟩ := run_field h hmode hfield
    have hcomma : r'.step comma =
        some { r' with mode := .start, field := [], record := r'.record ++ [r'.field] } := by
      rw [hend _ (.inl rfl)]
      rfl
    rw [List.append_assoc, List.cons_append, run_append, hrun, Option.bind_some, run, hcomma,
      Option.bind_some, ih rfl rfl, ← hrecord, ← hrecords]
    simp

theorem run_document {rs : List (List Text)} (h : IsDocument t rs) (before : List (List Text)) :
    run { records := before } t = some { records := before ++ rs } := by
  induction h generalizing before with
  | nil => simp [run]
  | @cons t u r rs h _ ih =>
    have hrecord := run_record h (r := { records := before }) rfl rfl
    rw [List.append_cons, run_append, hrecord, Option.bind_some, ih]
    simp

end Reader

/-- The reader accepts what the grammar derives. -/
theorem parse_of_isDocument {t : Text} {rs : List (List Text)} (h : IsDocument t rs) :
    parse t = some rs := by
  unfold parse
  rw [Reader.run_document h []]
  rfl

/-- A text has no more than one meaning. -/
theorem IsDocument.unique {t : Text} {rs rs' : List (List Text)} (h : IsDocument t rs)
    (h' : IsDocument t rs') : rs = rs' :=
  Option.some.inj ((parse_of_isDocument h).symm.trans (parse_of_isDocument h'))

/-! ### What is written -/

theorem isQuoted_doubled (t : Text) : IsQuoted (doubled t) t := by
  induction t with
  | nil => exact .nil
  | cons b rest ih =>
    rw [doubled]
    split
    · rename_i hb
      rw [beq_iff_eq.mp hb]
      exact .mark ih
    · rename_i hb
      exact .byte (fun heq => hb (beq_iff_eq.mpr heq)) ih

theorem isField_field (t : Text) : IsField (field t) t := by
  unfold field
  split
  · exact .quoted (isQuoted_doubled t)
  · rename_i hplain
    refine .bare fun b hb => ?_
    -- a byte that needs quotes would have brought them
    cases hspecial : special b with
    | false => rfl
    | true =>
      have hany : t.any special = true := List.any_eq_true.mpr ⟨b, hb, hspecial⟩
      simp [needsQuotes, hany] at hplain

theorem isRecord_join {fields : List Text} (h : fields ≠ []) :
    IsRecord (Text.join [comma] (fields.map field)) fields := by
  induction fields with
  | nil => exact absurd rfl h
  | cons t rest ih =>
    cases rest with
    | nil => exact .single (isField_field t)
    | cons u rest =>
      have hrest := IsRecord.cons (isField_field t) (ih (by simp))
      simpa [Text.join] using hrest

/-- **What is written has the meaning it was written with.** -/
theorem isDocument_render {records : List (List Text)} (h : ∀ r ∈ records, r ≠ []) :
    IsDocument (render records) records := by
  induction records with
  | nil => exact .nil
  | cons r rest ih =>
    have hrest := ih fun x hx => h x (List.mem_cons_of_mem _ hx)
    have hrecord := isRecord_join (h r (List.mem_cons_self ..))
    rw [render, List.flatMap_cons, record, List.append_assoc, List.singleton_append]
    exact .cons hrecord hrest

end Regatta.Csv

namespace Regatta

/-! ### Reports -/

theorem Sink.received_write {s s' : Sink} {chunk : Text} (h : s.write chunk = .ok s') :
    s'.received = s.received ++ chunk := by
  unfold write at h
  split at h
  · cases h
    simp [received]
  · split at h
    · cases h
      simp [received]
    · cases h

namespace Report

/-- A sink that took a text has taken all of it, whatever the chunks. -/
theorem received_writeBuffered {s s' : Sink} {t : Text} (h : writeBuffered s t = .ok s') :
    s'.received = s.received ++ t := by
  fun_induction writeBuffered s t with
  | case1 s t => cases h
  | case2 s t hlong s₁ hwrite ih =>
    rw [ih h, Sink.received_write hwrite, List.append_assoc, List.take_append_drop]
  | case3 s t => cases h
  | case4 s t hshort s₁ hwrite =>
    cases h
    exact Sink.received_write hwrite

theorem writeBuffered_unlimited {s : Sink} (hroom : s.room = none) (t : Text) :
    ∃ s', writeBuffered s t = .ok s' := by
  have hwrite : ∀ (s : Sink) (chunk : Text), s.room = none →
      s.write chunk = .ok { s with chunks := chunk :: s.chunks } := by
    intro s chunk h
    unfold Sink.write
    rw [h]
  fun_induction writeBuffered s t with
  | case1 s t hlong s₁ hfull | case3 s t hshort s₁ hfull =>
    rw [hwrite s _ hroom] at hfull
    cases hfull
  | case2 s t hlong s₁ hs₁ ih =>
    rw [hwrite s _ hroom] at hs₁
    cases hs₁
    exact ih hroom
  | case4 s t hshort s₁ => exact ⟨s₁, rfl⟩

/-- What a report of these rows says: the header, and the cells of each row. -/
def table (rows : List Row) : List (List Text) := Row.header :: rows.map Row.cells

theorem length_of_mem_table {rows : List Row} {record : List Text} (h : record ∈ table rows) :
    record.length = 7 := by
  rcases List.mem_cons.mp h with rfl | h
  · rfl
  · obtain ⟨row, -, rfl⟩ := List.mem_map.mp h
    rfl

/-- **A report in comma separated values is read as it was meant.** Where there is room it is
written; and what a sink has then taken is a text of the grammar that stands for the header and the
cells of every row, in order, and for nothing else. -/
theorem writeCsv_read_back (rows : List Row) :
    (∀ sink : Sink, sink.room = none → ∃ out, writeCsv sink rows = .ok out) ∧
    ∀ sink out, writeCsv sink rows = .ok out → ∃ text, out.received = sink.received ++ text ∧
      Csv.parse text = some (table rows) ∧
      (∀ records, Csv.IsDocument text records ↔ records = table rows) ∧
      ∀ record ∈ table rows, record.length = 7 := by
  have hdocument : Csv.IsDocument (Csv.render (table rows)) (table rows) := by
    refine Csv.isDocument_render fun record hrecord hnil => ?_
    have hlength := length_of_mem_table hrecord
    rw [hnil] at hlength
    cases hlength
  refine ⟨fun sink hroom => writeBuffered_unlimited hroom _, fun sink out hout => ?_⟩
  refine ⟨Csv.render (table rows), received_writeBuffered hout, Csv.parse_of_isDocument hdocument,
    fun records => ⟨fun h => h.unique hdocument, ?_⟩, fun record => length_of_mem_table⟩
  rintro rfl
  exact hdocument

def awkwardRow : Row := ⟨[32, 34, 44, 13, 10, 255], some 3, none, some (-1), "a,b", [], none⟩

theorem writeCsv_read_back_awkward :
    ∃ out, writeCsv (.limited 200) [awkwardRow] = .ok out ∧
      Csv.parse out.received = some [Row.header,
        [[32, 34, 44, 13, 10, 255], "3", "", "-1", "a,b", "-", "-"]] := by
  have hwrite : ∃ out, writeCsv (.limited 200) [awkwardRow] = .ok out := by
    unfold writeCsv
    rw [writeBuffered, dif_neg (by decide)]
    exact ⟨_, rfl⟩
  obtain ⟨out, hout⟩ := hwrite
  obtain ⟨text, hreceived, hparse, -⟩ := (writeCsv_read_back [awkwardRow]).2 _ _ hout
  refine ⟨out, hout, ?_⟩
  rw [hreceived]
  exact hparse

end Report
end Regatta
