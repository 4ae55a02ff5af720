import MigrationAudit.Program

namespace MigrationAudit.Disk

/-- What is known of the file system. `read` holds the directories that are known with all that is
below them, and `linked` those that links were seen to lead to. -/
structure Snapshot where
  root : Node
  read : List (List String)
  linked : List Path

abbrev Reading := StateT Snapshot IO

/-- Only these files can matter by what they contain. -/
def isWanted (name : String) : Bool :=
  InputFile.isAcceptedName name || (Settings.configNames.lookup name).isSome

def contentOf (p : Path) : IO (Option ByteArray) := do
  if isWanted (p.fileName?.getD "") then return (← (IO.FS.readBinFile p.text).toBaseIO).toOption
  else return none

def typeAt? (p : Path) : IO (Option IO.FS.FileType) := do
  let place := (← IO.currentDir) / p.text
  return (← place.metadata.toBaseIO).toOption.map (·.type)

def isLink (p : Path) : IO Bool := do
  let place := (← IO.currentDir) / p.text
  return (← place.symlinkMetadata.toBaseIO).toOption.any (·.type == .symlink)

/-- The path of an existing file without links. -/
def real (p : Path) : IO Path := return ⟨(← IO.FS.realPath p.text).toString⟩

def namesOf (p : Path) : List String := p.steps.tail.map PathStep.text

def entryNames (p : Path) : IO (List String) := do
  let place := (← IO.currentDir) / p.text
  return ((← place.readDir.toBaseIO).toOption.getD #[]).toList.map (·.fileName)

/-- The node at a path with all that is below it. -/
partial def node? (p : Path) : Reading (Option Node) := do
  match ← typeAt? p with
  | some .file => return some (.file (← contentOf p))
  | some .dir =>
    if ← isLink p then
      let target ← real p
      modify fun s => { s with linked := target :: s.linked }
      return some (.link target)
    let entries ← (← entryNames p).filterMapM fun name => do
      return (← node? (p.join ⟨name⟩)).map (name, ·)
    return some (.directory entries)
  | _ => return none

def put (node : Node) (names : List String) : Reading Unit :=
  modify fun s => { s with root := s.root.insert node names }

/-- Adds the links among the steps from a directory without links. -/
def addLinks (above : Path) : List PathStep → Reading Unit
  | [] => return
  | step :: rest => do
    let p := above.join ⟨step.text⟩
    if (← typeAt? p).isNone then return
    let target ← real p
    if ← isLink p then
      match ← typeAt? p with
      | some .dir => put (.link target) (namesOf p)
      | some .file => put (.file (← contentOf p)) (namesOf p)
      | _ => pure ()
    addLinks target rest

/-- Adds a mark that may stand in a directory. -/
def addMark (name : String) (directory : Path) : Reading Unit := do
  let p := directory.join ⟨name⟩
  match ← typeAt? p with
  | some .file => put (.file (← contentOf p)) (namesOf (← real directory) ++ [name])
  | some .dir => put (.directory []) (namesOf (← real directory) ++ [name])
  | _ => pure ()

/-- Adds what is at a path without links and below it, unless it is there already. -/
def addAll (p : Path) : Reading Unit := do
  let names := namesOf p
  if (← get).read.any (·.isPrefixOf names) then return
  if let some node ← node? p then
    put node names
    modify fun s => { s with read := names :: s.read }

partial def addLinked : Reading Unit := do
  match (← get).linked with
  | [] => return
  | p :: rest =>
    modify fun s => { s with linked := rest }
    addAll p
    addLinked

/-- The part of the file system that a command can reach. -/
def around (c : Command) : IO FileTree := do
  let here : Path := ⟨(← IO.currentDir).toString⟩
  let treeOf := fun (s : Snapshot) => (⟨s.root, here⟩ : FileTree)
  let look : Reading Unit := do
    put (.directory []) (namesOf here)
    if let .scan paths o := c.action then
      let start := o.root.getD ⟨"."⟩
      for p in start :: start.ancestors do
        addLinks ⟨"/"⟩ (here.join p).steps.tail
        for name in Settings.rootMarks do addMark name p
      let root := Settings.detectRoot (treeOf (← get)) start
      for p in Discovery.targets root paths do
        addLinks ⟨"/"⟩ (here.join p).steps.tail
        if (← typeAt? p).isSome then addAll (← real p)
      addLinked
  return treeOf (← look.run ⟨.directory [], [], []⟩).2

end MigrationAudit.Disk

/-- What is printed instead of an answer when the arguments are no command. -/
def MigrationAudit.Program.usage : String :=
  "Usage: droidmig [-v] scan [PATH]... [--root DIR] [--output human|json] [--filter SEVERITY] [--fail-on SEVERITY]\n" ++
  "       droidmig [-v] rules [--output human|json]\n" ++
  "       droidmig [-v] version\n"

open MigrationAudit in
def main (args : List String) : IO UInt32 := do
  match Command.parse args with
  | .error .versionWanted =>
    IO.print Program.versionLine
    return 0
  | .error e =>
    if e.exitCode = 0 then IO.print Program.usage else IO.eprint Program.usage
    return e.exitCode.toUInt32
  | .ok c =>
    let colour := (← IO.getEnv "NO_COLOR").isNone
    let shown := Program.streams (← Disk.around c) colour none c
    IO.eprint shown.errors
    IO.print shown.output
    return shown.exitCode.toUInt32
