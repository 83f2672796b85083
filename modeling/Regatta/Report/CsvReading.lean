import Regatta.Report.Csv

/-! Reading one record of comma separated values. -/
namespace Regatta.Csv

/-- Why a record cannot be read; lines and columns count from one. -/
inductive ReadFault where
  /-- A quote in a field without quotes. -/
  | bareQuote (line column : Nat)
  /-- A quote that ends no field, or a field that does not end. The record began in line `start`. -/
  | quote (start line column : Nat)
  | missing
deriving DecidableEq, Repr

def ReadFault.message : ReadFault → Text
  | .bareQuote line column =>
    place line column ++ "bare \" in non-quoted-field"
  | .quote start line column =>
    let record : Text := if start == line then "" else "record on line " ++ Text.ofNat start ++ "; "
    record ++ place line column ++ "extraneous or missing \" in quoted-field"
  | .missing => "EOF"
where
  place (line column : Nat) : Text :=
    "parse error on line " ++ Text.ofNat line ++ ", column " ++ Text.ofNat column ++ ": "

/-- The lines of a text, each with its line feed; a carriage return before it is dropped, and so is
one at the end of the text. -/
def sourceLines (t : Text) : List Text :=
  let dropReturn (l : Text) : Text := if l.getLast? == some carriageReturn then l.dropLast else l
  let parts := Text.splitOn lineFeed t
  let last := dropReturn (parts.getLast?.getD [])
  parts.dropLast.map (fun l => dropReturn l ++ [lineFeed]) ++ (if last.isEmpty then [] else [last])

/-- Whether nothing but the end of the line is left. -/
def atEnd (line : Text) : Bool := line.isEmpty || line == [lineFeed]

/-- Where reading stands: the rest of the line, its number and the column, and the lines after it. -/
structure Place where
  rest : Text
  line : Nat
  column : Nat
  more : List Text

def Place.skip (p : Place) (n : Nat) : Place :=
  { p with rest := p.rest.drop n, column := p.column + n }

/-- The rest of a quoted field, and where it ends. -/
def quotedField (start : Nat) : (fuel : Nat) → Text → Place → Except ReadFault (Text × Place)
  | 0, _, p => .error (.quote start p.line p.column)
  | fuel + 1, acc, p =>
    let front := p.rest.takeWhile (· != quoteMark)
    if front.length < p.rest.length then
      let q := p.skip (front.length + 1)
      match q.rest with
      | b :: _ =>
        if b == quoteMark then quotedField start fuel (acc ++ front ++ [quoteMark]) (q.skip 1)
        else if b == comma || atEnd q.rest then .ok (acc ++ front, q)
        else .error (.quote start q.line (q.column - 1))
      | [] => .ok (acc ++ front, q)
    else if p.rest.isEmpty then .error (.quote start p.line p.column)
    else
      match p.more with
      | [] => .error (.quote start p.line (p.column + p.rest.length))
      | l :: more => quotedField start fuel (acc ++ p.rest) ⟨l, p.line + 1, 1, more⟩

def fieldsFrom (start : Nat) : (fuel : Nat) → Place → Except ReadFault (List Text)
  | 0, _ => .ok []
  | fuel + 1, p => do
    let (field, p) ←
      if p.rest.head? == some quoteMark then
        quotedField start (fuel + 1) [] (p.skip 1)
      else
        let front := p.rest.takeWhile (· != comma)
        let field := front.filter (· != lineFeed)
        let before := field.takeWhile (· != quoteMark)
        if before.length < field.length then
          .error (.bareQuote p.line (p.column + before.length))
        else .ok (field, p.skip front.length)
    if p.rest.head? == some comma then
      return field :: (← fieldsFrom start fuel (p.skip 1))
    return [field]

/-- The fields of the first record; empty lines before it are passed over. -/
def readRecord (t : Text) : Except ReadFault (List Text) :=
  let lines := sourceLines t
  let empty := lines.takeWhile (· == [lineFeed])
  match lines.drop empty.length with
  | [] => .error .missing
  | l :: more =>
    let number := empty.length + 1
    fieldsFrom number (t.length + 1) ⟨l, number, 1, more⟩

end Regatta.Csv
