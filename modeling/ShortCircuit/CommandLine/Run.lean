import ShortCircuit.Chunk.Basic
import ShortCircuit.CommandLine.Arguments
import ShortCircuit.CommandLine.FileTree
import ShortCircuit.Recovery.Region
import ShortCircuit.Report.Basic

/-!
# A run of the program

The inputs are expanded to files, the files are sorted, and the regions of their functions are
listed. A file that cannot be read does not stop the run. Times are taken from a clock that the
caller provides.

* `Session.run` performs a run and gives all of its output.
-/

namespace ShortCircuit

/-- What a run leaves: its exit code, the listing, the messages about files that failed, the timing
report, and the closing message of a failed run. -/
structure Transcript where
  exitCode : Nat
  listing : String := ""
  failures : List String := []
  timings : String := ""
  verdict : Option String := none
deriving DecidableEq, Repr

/-- All messages in order. -/
def Transcript.messages (t : Transcript) : List String := t.failures ++ t.verdict.toList

/-- A file to be read: the path it is shown with, and its bytes. -/
structure SourceFile where
  path : String
  bytes : Except Unreadable (List UInt8)

/-- Appends names to the path of a directory. -/
def joinPath (directory : String) (names : List String) : String :=
  directory ++ (if directory.endsWith "/" then "" else "/") ++ String.intercalate "/" names

/-- The files that an input stands for: itself, or the chunks anywhere below a directory. -/
def SourceFile.ofInput (find : String → Except Unreadable Entry) (input : String) :
    List SourceFile :=
  match find input with
  | .error reason => [⟨input, .error reason⟩]
  | .ok (.file bytes) => [⟨input, .ok bytes⟩]
  | .ok (.directory files) =>
    (files.filter fun file => file.1.getLast?.any isChunkName).map fun (names, bytes) =>
      ⟨joinPath input names, bytes⟩

/-- The files of all inputs in the order of their paths; equal paths stay in the order given. -/
def SourceFile.ofInputs (find : String → Except Unreadable Entry) (inputs : List String) :
    List SourceFile :=
  (inputs.flatMap (ofInput find)).mergeSort fun x y =>
    PathPart.le (PathPart.ofPath x.path) (PathPart.ofPath y.path)

/-- The lines for one function. -/
def functionListing (index : Nat) (function : Prototype) (regions : List Region) : String :=
  "function " ++ toString index ++ " (line " ++ toString function.lineDefined ++ "):\n"
    ++ String.join (regions.map fun region => "  " ++ region.text ++ "\n")

/-- The name of a function in the timing report. -/
def functionName (index : Nat) (function : Prototype) : String :=
  if index = 0 then "main"
  else "fn#" ++ toString index ++ " (line " ++ toString function.lineDefined ++ ")"

namespace Session

variable {m : Type → Type} [Monad m]

/-- A result with the time it took by a clock. -/
def timed {α : Type} (clock : m Nat) (work : Unit → α) : m (α × Duration) := do
  let before ← clock
  let result := work ()
  let after ← clock
  return (result, ⟨after - before⟩)

/-- The listing and the report of the functions of a chunk; only one of them may be asked for. -/
def processFunctions (clock : m Nat) (only : Option Nat) (index : Nat) :
    List Prototype → m (String × List FunctionReport)
  | [] => return ("", [])
  | function :: rest => do
    let (regions, time) ← timed clock fun _ => Region.recover function
    let shown := match only with
      | none => true
      | some n => n = index
    let listing := if shown then functionListing index function regions else ""
    let report : FunctionReport :=
      { name := functionName index function
        phases := [(recoverPhase, time)]
        recovered := regions.countP (·.isCondition)
        leftAsJumps := regions.countP fun region => !region.isCondition }
    let (listings, reports) ← processFunctions clock only (index + 1) rest
    return (listing ++ listings, report :: reports)

/-- The listing and the report of a file, or the message about it. -/
def processFile (clock : m Nat) (only : Option Nat) (file : SourceFile) :
    m (Except String (String × FileReport)) := do
  match file.bytes with
  | .error reason => return .error ("reading " ++ file.path ++ ": " ++ reason.message)
  | .ok bytes =>
    let (result, parseTime) ← timed clock fun _ => Chunk.read bytes
    match result with
    | .error e => return .error ("parsing " ++ file.path ++ ": " ++ e.message)
    | .ok chunk =>
      let (listing, functions) ← processFunctions clock only 0 chunk.functions
      return .ok (listing, { name := file.path, parseTime, functions })

/-- Processes files in order: listing, reports, and the messages about the files that failed. -/
def processFiles (clock : m Nat) (only : Option Nat) :
    List SourceFile → m (String × List FileReport × List String)
  | [] => return ("", [], [])
  | file :: rest => do
    let result ← processFile clock only file
    let (listing, reports, messages) ← processFiles clock only rest
    match result with
    | .ok (text, report) => return (text ++ listing, report :: reports, messages)
    | .error message => return (listing, reports, ("ERROR: " ++ message) :: messages)

/-- Runs with arguments on files found by `find`. -/
def run (clock : m Nat) (find : String → Except Unreadable Entry) (args : List String) :
    m Transcript := do
  match Options.parse args with
  | .error refusal => return { exitCode := refusal.exitCode }
  | .ok options =>
    let files := SourceFile.ofInputs find options.inputs
    let (listing, reports, failures) ← processFiles clock options.only files
    let report : Report := { files := reports }
    let timings := if options.timings then report.summary ++ report.jumpListing 15 else ""
    if failures.isEmpty then return { exitCode := 0, listing, timings }
    else
      let verdict := "Error: " ++ toString failures.length ++ " of " ++ toString files.length
        ++ " files could not be read"
      return { exitCode := 1, listing, failures, timings, verdict := some verdict }

end Session

end ShortCircuit
