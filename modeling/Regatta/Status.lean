import Regatta.Text.Basic

/-! The life of a run: pending, then perhaps running, then one of three ends. -/
namespace Regatta

structure Status where
  text : Text
deriving DecidableEq, Repr, Inhabited

namespace Status

def pending : Status := ⟨"pending"⟩
def running : Status := ⟨"running"⟩
def completed : Status := ⟨"completed"⟩
def failed : Status := ⟨"failed"⟩
def cancelled : Status := ⟨"cancelled"⟩

def allows (source target : Status) : Bool :=
  (source = pending && (target = running || target = failed || target = cancelled)) ||
  (source = running && (target = completed || target = failed || target = cancelled))

def terminal (s : Status) : Bool := s = completed || s = failed || s = cancelled

end Status
end Regatta
