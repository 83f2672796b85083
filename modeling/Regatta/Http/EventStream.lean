import Regatta.Text.Basic

/-! Server-sent events: log lines as they are written to an event stream. -/
namespace Regatta.Http.EventStream

/-- A log line as one unnamed event; each of its own lines is a data field. -/
def data (line : Text) : Text :=
  ((Text.splitOn (Text.byte '\n') line).flatMap fun s =>
    Text.ofString "data: " ++ s ++ Text.ofString "\n") ++ Text.ofString "\n"

def event (name content : Text) : Text :=
  "event: " ++ name ++ "\ndata: " ++ content ++ "\n\n"

def done : Text := event "done" "stream complete"

end Regatta.Http.EventStream
