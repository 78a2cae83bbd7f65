import JsonCleave.CommandLine
/-!
# The command

Splits a file of the real file system. What the paths of the command line lead to is looked up
first, the command is run on that, and then the directories and documents it made
are written out and its log is shown.
-/

namespace JsonCleave.Main

def progressInterval : Int := 100000

def randomName : IO String := do
  let part (digits : Nat) : IO String := do
    let n ← IO.rand 0 (Nat.pow 16 digits - 1)
    pure (String.ofList (hexDigits digits n))
  let variant ← IO.rand 8 11
  let ends := String.ofList (hexDigits 1 variant)
  pure s!"{← part 8}-{← part 4}-4{← part 3}-{ends}{← part 3}-{← part 12}.json"

def placeText (place : Location) : String :=
  if place.head? = some "/" then "/" ++ "/".intercalate place.tail
  else if place.isEmpty then "." else "/".intercalate place

def lookUp (s : Storage) (place : Location) : IO Storage := do
  let target := (← IO.currentDir) / placeText place
  if ← target.isDir then pure (s.put place .directory)
  else if ← target.pathExists then
    pure (s.put place (.file (← IO.FS.readBinFile target).toList))
  else pure s

def lookUpPath (s : Storage) (p : Path) : IO Storage := do
  let start := if p.isAbsolute then Location.root else []
  let mut s := s
  for n in [1 : p.parts.length + 1] do
    match s.follow start (p.parts.take n) with
    | .ok place => s ← lookUp s place
    | .error _ => pure ()
  pure s

def writeOut (before after : Storage) : IO Unit := do
  let base ← IO.currentDir
  for (place, node) in after.nodes.reverse do
    if node = .directory ∧ before.node? place = none then
      IO.FS.createDir (base / placeText place)
  for document in after.documents.reverse do
    let name ←
      match document.address with
      | .fresh _ => randomName
      | .named text => pure text
    IO.FS.writeFile (base / placeText document.directory / name) document.text

def run (argv : List String) : IO UInt32 := do
  let started ← IO.monoMsNow
  let mut storage : Storage := {}
  if let .ok (file, a) := Arguments.read argv then
    storage ← lookUpPath storage (.ofText file)
    if let some output := a.destination.path? then
      storage ← lookUpPath storage output
  let command :=
    runCommand argv (← IO.getEnv "LOG_LEVEL") progressInterval storage
      (← IO.getEnv "JSON_SPLIT_BACKEND")
  writeOut storage command.storage
  let elapsed := (← IO.monoMsNow) - started
  let seconds := String.ofList (Decimal.pointed (decimalDigits (elapsed / 10)) 2)
  for entry in command.log do
    IO.eprintln (entry.line seconds)
  match command.ending with
  | .done _ => pure 0
  | .failed fault =>
    IO.eprintln (fault.message.getD Entry.malformedText)
    pure 1
  | .refused .help =>
    IO.println "usage: json-split [-h] [--output-dir OUTPUT_DIR] [--workers WORKERS] [--dry-run] file"
    pure 0
  | .refused (.wrong message) =>
    IO.eprintln ("json-split: error: " ++ message)
    pure 2

end JsonCleave.Main

def main (argv : List String) : IO UInt32 := JsonCleave.Main.run argv
