import Regatta.Cli.Program

/-! The command line.

What the arguments and the manifest name is read from disk before the program runs, and what the
program changed is written afterwards. This layer starts no processes and opens no sockets: a
program file is found, but the process does nothing. -/
namespace Regatta.Cli

/-- The variables that are looked at. -/
def variableNames : List String :=
  ["AIGRACE_LISTEN_ADDR", "AIGRACE_DB_PATH", "AIGRACE_LOG_LEVEL", "AIGRACE_LOG_FORMAT",
    "AIGRACE_WORK_DIR", "AIGRACE_TIMEOUT", "AIGRACE_ENGINES", "AIGRACE_STATS_SOURCE",
    "AIGRACE_PARALLEL", "AIGRACE_TRANSFORM_TIMEOUT", "AIGRACE_ABC_BIN", "AIGRACE_ABC_WORK_DIR",
    "AIGRACE_HISTORY_FILE", "AIGRACE_KILL_GRACE", "TMPDIR"]

def readEnvironment : IO Environment :=
  variableNames.filterMapM fun name => do
    return (← IO.getEnv name).map fun v => (Text.ofString name, Text.ofString v)

/-- The location of a path as its parts say, whether or not anything is there. -/
def locationOf (current : Location) (path : Text) : Location :=
  (Path.parts path).foldl (fun l (c : Text) => if c == ".." then l.dropLast else l ++ [c])
    (if Path.isAbsolute path then [] else current)

def pathOf (l : Location) : String := Text.toString ("/" ++ Text.join "/" l)

/-- Put an entry into a tree with the directories that lead to it. -/
def withParents (t : FileTree) (l : Location) (e : FileEntry) : FileTree :=
  let t := (List.range l.length).foldl (fun t n => t.insert (l.take n) .directory) t
  t.insert l e

def namesIn (l : Location) : IO (List Text) := do
  let entries ← ((← IO.currentDir) / pathOf l).readDir
  return entries.toList.map fun d => Text.ofString d.fileName

/-- Read a file, or a directory with what is in it. Nothing is read where nothing is. -/
partial def readEntry (t : FileTree) (l : Location) : IO FileTree := do
  try
    (← namesIn l).foldlM (fun t name => readEntry t (l ++ [name])) (withParents t l .directory)
  catch _ =>
    try
      let content ← IO.FS.readBinFile (pathOf l)
      return withParents t l (.file content.toList false)
    catch _ => return t

/-- The directory of a location, if it is there. -/
def readParent (t : FileTree) (l : Location) : IO FileTree := do
  try
    let _ ← namesIn l.dropLast
    return withParents t l.dropLast .directory
  catch _ => return t

/-- The paths that an argument may mean: itself, or what stands behind an equals sign. -/
def pathsOf (argument : Text) : List Text :=
  let value := (argument.dropWhile (· != Text.byte '=')).drop 1
  [argument, value].filter fun p => !p.isEmpty && p.head? != some (Text.byte '-')

def manifestPaths (t : FileTree) (path : Text) : List Text :=
  match Manifest.load t path with
  | .ok m => m.datasets.getD [] ++ [m.workDirectory, m.output].filter (!·.isEmpty)
  | .error _ => []

def readPaths (t : FileTree) (paths : List Text) : IO FileTree :=
  paths.foldlM (fun t p => do
    let l := locationOf t.current p
    if l.isPrefixOf t.current then return t else readEntry (← readParent t l) l) t

def readTree (s : Settings) (args : List Text) : IO FileTree := do
  let current := locationOf [] (Text.ofString (← IO.currentDir).toString)
  let t := withParents ⟨current, []⟩ current .directory
  let named := s.workDirectory :: args.flatMap pathsOf
  let t ← readPaths t named
  readPaths t (named.flatMap (manifestPaths t))

/-- Make the disk agree with the tree that the program left. -/
def writeChanges (start finish : FileTree) : IO Unit := do
  for (l, e) in start.entries do
    if (finish.lookup l).isNone then
      try
        match e with
        | .directory => IO.FS.removeDirAll (pathOf l)
        | .file _ _ => IO.FS.removeFile (pathOf l)
      catch _ => pure ()
  for (l, e) in finish.entries.reverse do
    match e with
    | .directory => if start.lookup l != some e then IO.FS.createDirAll (pathOf l)
    | .file content _ =>
      if start.lookup l != some e then IO.FS.writeBinFile (pathOf l) ⟨content.toArray⟩

def now : IO Instant := do
  return Instant.epoch2000 + Duration.ofMillis (← IO.monoMsNow)

def readStation (args : List Text) : IO Station := do
  let environment ← readEnvironment
  let names := Text.splitOn (Text.byte ':') (Text.ofString ((← IO.getEnv "PATH").getD ""))
  return {
    environment
    files := ← readTree (.load environment) args
    machine := ⟨names, [], fun _ _ _ _ => {}⟩
    now := ← now
    cancelled := false
    randomEnding := Text.ofNat
    newId := Text.padded Run.idLength }

def runProgram (args : List Text) : IO UInt32 := do
  let s ← readStation args
  match s.run args with
  | none => return Failure.usage.toNat.toUInt32
  | some o =>
    (← IO.getStdout).write ⟨o.stdout.toArray⟩
    writeChanges s.files o.files
    match o.failure with
    | none => return 0
    | some f =>
      (← IO.getStderr).write ⟨(Failure.shown f ++ Text.ofString "\n").toArray⟩
      return f.code.toNat.toUInt32

end Regatta.Cli

def main (args : List String) : IO UInt32 := Regatta.Cli.runProgram (args.map Regatta.Text.ofString)
