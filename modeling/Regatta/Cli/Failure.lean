import Regatta.Text.Basic

/-! How a command fails: the message it leaves and the code it exits with. -/
namespace Regatta.Cli

inductive Failure where
  | plain (message : Text)
  /-- A failure with an exit code of its own, perhaps with a cause. -/
  | exit (code : Int) (message : Text) (cause : Option Failure)
  /-- A failure seen in a wider context. -/
  | within (message : Text) (cause : Failure)

namespace Failure

/-- The exit code of a failure that names none. -/
def general : Int := 1

/-- The exit code of a command that could not be understood or started. -/
def usage : Int := 2

def message : Failure → Text
  | .plain m => m
  | .exit _ m none => m
  | .exit _ m (some c) => m ++ ": " ++ c.message
  | .within m c => m ++ ": " ++ c.message

/-- The code of the outermost failure that has one. -/
def code : Failure → Int
  | .plain _ => general
  | .exit c _ _ => c
  | .within _ cause => cause.code

def cause? : Failure → Option Failure
  | .plain _ => none
  | .exit _ _ c => c
  | .within _ c => some c

end Failure

def exitCode : Option Failure → Int
  | none => 0
  | some f => f.code

end Regatta.Cli
