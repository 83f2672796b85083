import Regatta.Store.Stats

/-! A store some of whose operations may refuse to work. -/
namespace Regatta

structure Ledger where
  store : Store
  /-- Operations that refuse, by name, with the reason they give. -/
  refusals : List (Text × Text)
deriving Inhabited

namespace Ledger

/-- Does what the store does, unless the operation refuses. -/
def attempt (l : Ledger) (operation : String) (f : Store → Except StoreError α) :
    Except StoreError α :=
  match l.refusals.lookup (Text.ofString operation) with
  | some reason => .error (.refused reason)
  | none => f l.store

/-- Like `attempt`, for an operation that changes the store. -/
def change (l : Ledger) (operation : String) (f : Store → Except StoreError Store) :
    Except StoreError Ledger :=
  (l.attempt operation f).map fun store => { l with store }

/-- Creates a run; `interrupted` says that the caller has given up by now. -/
def createRun (l : Ledger) (interrupted : Bool) (r : Run) : Except StoreError Ledger :=
  l.change "CreateRun" fun s => do
    s.need "insert run"
    if interrupted then throw (.interrupted "insert run")
    s.createRun r

def getRun (l : Ledger) (id : Text) : Except StoreError Run := l.attempt "GetRun" (·.getRun id)

def listRuns (l : Ledger) (limit offset : Int) : Except StoreError (Nat × List Run) :=
  l.attempt "ListRuns" (·.listRuns limit offset)

def updateStatus (l : Ledger) (now : Instant) (id : Text) (target : Status) :
    Except StoreError Ledger :=
  l.change "UpdateRunStatus" (·.updateStatus now id target)

def updateRun (l : Ledger) (r : Run) : Except StoreError Ledger :=
  l.change "UpdateRun" (·.updateRun r)

def stats (l : Ledger) : Except StoreError RunStats := l.attempt "GetRunStats" (·.stats)

def insertResult (l : Ledger) (now : Instant) (run : Text) (seq : Int) (r : EngineResult) :
    Except StoreError Ledger :=
  l.change "InsertEngineResult" (·.insertResult now run seq r)

def getResults (l : Ledger) (run : Text) : Except StoreError (List ResultRecord) :=
  l.attempt "GetEngineResults" (·.getResults run)

def insertLine (l : Ledger) (now : Instant) (run : Text) (seq : Int) (line : Text) :
    Except StoreError Ledger :=
  l.change "InsertLogLine" (·.insertLine now run seq line)

def getLines (l : Ledger) (run : Text) : Except StoreError (List LogLine) :=
  l.attempt "GetLogLines" (·.getLines run)

def close (l : Ledger) : Ledger := { l with store := l.store.close }

end Ledger
end Regatta
