import ShortCircuit.Report.Duration

/-!
# Reports

How long reading and recovery took, function by function, and how many conditions were recovered or
left as jumps.

* `Report.summary` is the table of phases.
* `Report.worst` lists the functions with the most conditions left as jumps.
-/

namespace ShortCircuit

/-- Times and counts of one function. -/
structure FunctionReport where
  name : String
  phases : List (String × Duration) := []
  recovered : Nat := 0
  leftAsJumps : Nat := 0
deriving DecidableEq, Repr

/-- The time spent on a function. -/
def FunctionReport.total (f : FunctionReport) : Duration := .sum (f.phases.map (·.2))

/-- Times and counts of one file. -/
structure FileReport where
  name : String
  parseTime : Duration := .zero
  functions : List FunctionReport := []
deriving DecidableEq, Repr

/-- Times and counts of all files. -/
structure Report where
  files : List FileReport := []
deriving DecidableEq, Repr

/-- Texts padded to a width. -/
def padRight (width : Nat) (s : String) : String := String.ofList (s.toList.rightpad width ' ')

/-- Texts moved to the right end of a width. -/
def padLeft (width : Nat) (s : String) : String := String.ofList (s.toList.leftpad width ' ')

/-- The phase in which files are read. -/
def parsePhase : String := "parse"

/-- The phase in which conditions are recovered. -/
def recoverPhase : String := "recover"

namespace FileReport

/-- The time spent on recovery in a file. -/
def recoverTime (f : FileReport) : Duration :=
  .sum ((f.functions.flatMap (·.phases)).filterMap fun (phase, d) =>
    if phase = recoverPhase then some d else none)

/-- The time spent on a file. -/
def total (f : FileReport) : Duration :=
  .sum (f.parseTime :: f.functions.map (·.total))

end FileReport

namespace Report

/-- All functions. -/
def functions (r : Report) : List FunctionReport := r.files.flatMap (·.functions)

/-- Conditions recovered in all functions. -/
def recovered (r : Report) : Nat := (r.functions.map (·.recovered)).foldr Nat.add 0

/-- Conditions left as jumps in all functions. -/
def leftAsJumps (r : Report) : Nat := (r.functions.map (·.leftAsJumps)).foldr Nat.add 0

/-- Every phase with its time, in order of occurrence; reading files comes first. -/
def phases (r : Report) : List (String × Duration) :=
  (parsePhase, .sum (r.files.map (·.parseTime))) :: r.functions.flatMap (·.phases)

/-- The time of a phase over all files; `none` for a phase that does not occur. -/
def phaseTime? (r : Report) (phase : String) : Option Duration :=
  let times := r.phases.filterMap fun (name, d) => if name = phase then some d else none
  if times.isEmpty then none else some (.sum times)

/-- The phases that occur, in the order of their names, with their times. -/
def timeByPhase (r : Report) : List (String × Duration) :=
  let names := (r.phases.map (·.1)).eraseDups.mergeSort fun a b => !decide (b < a)
  names.filterMap fun name => (r.phaseTime? name).map fun d => (name, d)

/-- The time spent on all files. -/
def totalTime (r : Report) : Duration := .sum (r.files.map (·.total))

/-- One line of the table of phases. -/
def phaseLine (r : Report) (phase : String) : String :=
  match r.phaseTime? phase with
  | none => ""
  | some d =>
    "  " ++ padRight 12 phase ++ " " ++ padLeft 10 d.text ++ "  ("
      ++ fixedText 1 (d.permille r.totalTime) ++ "%)\n"

/-- The table of phases with totals and the average per function. -/
def summary (r : Report) : String :=
  let count := r.functions.length
  let average :=
    if count = 0 then "" else "\n  avg/function: " ++ (r.totalTime.divide count).text ++ "\n"
  "\n--- Performance Summary ---\n"
    ++ toString r.files.length ++ " files, " ++ toString count ++ " functions in "
    ++ r.totalTime.text ++ "\n"
    ++ toString r.recovered ++ " conditions recovered, " ++ toString r.leftAsJumps
    ++ " left as jumps\n\n"
    ++ r.phaseLine parsePhase ++ r.phaseLine recoverPhase ++ average

/-- Whether `f` is listed before `g`: more jumps first, then more time. -/
def worse (f g : FunctionReport) : Bool :=
  g.leftAsJumps < f.leftAsJumps
    || (f.leftAsJumps == g.leftAsJumps && g.total.nanoseconds ≤ f.total.nanoseconds)

/-- At most `limit` functions with conditions left as jumps, each with the name of its file; equals
stay in the order of the files. -/
def worst (r : Report) (limit : Nat) : List (String × FunctionReport) :=
  let all := r.files.flatMap fun file =>
    (file.functions.filter (0 < ·.leftAsJumps)).map fun f => (file.name, f)
  (all.mergeSort fun x y => worse x.2 y.2).take limit

/-- The functions with the most conditions left as jumps, as text; empty when there are none. -/
def jumpListing (r : Report) (limit : Nat) : String :=
  let worst := r.worst limit
  if worst.isEmpty then ""
  else
    "\n--- Unrecovered conditions ---\n" ++ String.join (worst.map fun (file, f) =>
      "  " ++ padLeft 4 (toString f.leftAsJumps) ++ " of "
        ++ padLeft 4 (toString (f.recovered + f.leftAsJumps)) ++ "  " ++ file ++ ": " ++ f.name
        ++ "\n")

end Report

end ShortCircuit
