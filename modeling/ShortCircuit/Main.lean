import ShortCircuit.CommandLine.Run

/-!
# The program

Loads what the inputs name, performs the run, and prints its output.
-/

namespace ShortCircuit

/-- Reads a file. -/
def loadFile (path : String) : IO (Except Unreadable (List UInt8)) := do
  try
    let bytes ← IO.FS.readBinFile path
    return .ok bytes.toList
  catch e =>
    match e with
    | .noFileOrDirectory .. => return .error .missing
    | e => return .error (.other (toString e))

/-- Reads the chunks anywhere below a directory. -/
partial def loadDirectory (path : String) (names : List String) :
    IO (List (List String × Except Unreadable (List UInt8))) := do
  let directory := (← IO.currentDir) / path
  let mut files := []
  for entry in ← directory.readDir do
    let names := names ++ [entry.fileName]
    if ← entry.path.isDir then
      files := files ++ (← loadDirectory entry.path.toString names)
    else if isChunkName entry.fileName then
      files := files ++ [(names, ← loadFile entry.path.toString)]
  return files

/-- Loads what a path leads to. -/
def loadEntry (path : String) : IO (Except Unreadable Entry) := do
  if ← ((← IO.currentDir) / path).isDir then
    return .ok (.directory (← loadDirectory path []))
  return (← loadFile path).map .file

end ShortCircuit

open ShortCircuit in
/-- Runs the program with its arguments. -/
def main (args : List String) : IO UInt32 := do
  let inputs := match Options.parse args with
    | .ok options => options.inputs
    | .error _ => []
  let mut loaded := []
  for input in inputs do
    loaded := (input, ← loadEntry input) :: loaded
  let find (path : String) : Except Unreadable Entry :=
    match loaded.lookup path with
    | some entry => entry
    | none => .error .missing
  let transcript ← Session.run IO.monoNanosNow find args
  IO.print transcript.listing
  for message in transcript.failures do
    IO.eprintln message
  IO.eprint transcript.timings
  for message in transcript.verdict do
    IO.eprintln message
  return UInt32.ofNat transcript.exitCode
