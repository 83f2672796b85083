import Regatta.Cli.Command

/-! Help texts. -/
namespace Regatta.Cli

/-- The flag by which every command shows its help. -/
def helpFlag (c : Command) : Flag := ⟨"help", some 'h', .toggle false, "help for " ++ c.name⟩

def padded (width : Nat) (t : Text) : Text := t ++ List.replicate (width - t.length) 32

def Flag.left (f : Flag) : Text :=
  let names : Text := match f.short with
    | some c => "  -" ++ [Text.byte c] ++ ", --" ++ f.name
    | none => "      --" ++ f.name
  if f.value.placeholder.isEmpty then names else names ++ " " ++ f.value.placeholder

def Flag.right (f : Flag) : Text :=
  if f.value.isBlank then f.usage else f.usage ++ " (default " ++ f.value.render ++ ")"

/-- Flags in the order of their names, one a line. -/
def flagLines (flags : List Flag) : Text :=
  let sorted := flags.mergeSort fun a b => Text.le a.name b.name
  let width := (sorted.map (·.left.length)).foldl max 0
  Text.join "\n" (sorted.map fun f => padded width f.left ++ "   " ++ f.right)

/-- Narrowest column for the names of subcommands. -/
def nameWidth : Nat := 11

def Lineage.useLine (l : Lineage) : Text :=
  let outer : Text := match l.around with
    | [] => l.command.form
    | c :: rest => Lineage.path ⟨c, rest⟩ ++ " " ++ l.command.form
  if l.command.mentionsFlags && !Text.contains "[flags]" outer then outer ++ " [flags]" else outer

def Lineage.subcommandLines (l : Lineage) : Text :=
  let sorted := l.command.subcommands.mergeSort fun a b => Text.le a.name b.name
  let width := (sorted.map (·.name.length)).foldl max nameWidth
  let lines : List Text := (sorted.filter fun c => c.isAvailable || c.action == some .help).map
    fun c => "\n  " ++ padded width c.name ++ " " ++ c.short
  lines.flatten

/-- How a command is used; with `helped` its flags include the one for help. -/
def Lineage.usage (l : Lineage) (helped : Bool) : Text :=
  let section_ (present : Bool) (t : Text) : Text := if present then t else []
  let c := l.command
  let nested := c.subcommands.any Command.isAvailable
  let flags := l.ownFlags ++ (if helped then [helpFlag c] else [])
  let inherited := l.inheritedFlags
  "Usage:"
    ++ section_ c.action.isSome ("\n  " ++ l.useLine)
    ++ section_ nested ("\n  " ++ l.path ++ " [command]")
    ++ section_ nested ("\n\nAvailable Commands:" ++ l.subcommandLines)
    ++ section_ (!flags.isEmpty) ("\n\nFlags:\n" ++ flagLines flags)
    ++ section_ (!inherited.isEmpty) ("\n\nGlobal Flags:\n" ++ flagLines inherited)
    ++ section_ nested ("\n\nUse \"" ++ l.path ++
        " [command] --help\" for more information about a command.")
    ++ "\n"

def Lineage.help (l : Lineage) : Text :=
  let about := if l.command.long.isEmpty then l.command.short else l.command.long
  Text.trimRight about ++ "\n\n" ++ l.usage true

end Regatta.Cli
