/-!
# Command-line arguments

Options may stand anywhere, short options may be joined, and everything after `--` is an input.
Arguments are taken from left to right and the first fault, or the first request for help, decides.
-/

namespace ShortCircuit

/-- What a run is asked to do. -/
structure Options where
  inputs : List String := []
  only : Option Nat := none
  timings : Bool := false
  verbosity : Nat := 0
deriving DecidableEq, Repr

/-- Why arguments lead to no run. -/
inductive Refusal where
  | help
  | misuse
deriving DecidableEq, Repr

/-- The exit code of a refusal. -/
def Refusal.exitCode : Refusal → Nat
  | .help => 0
  | .misuse => 2

namespace Options

/-- Reads a number of at most 64 bits in decimal digits, with an optional plus sign. -/
def number? (text : String) : Option Nat :=
  let digits := match text.toList with
    | '+' :: rest => rest
    | cs => cs
  if digits.isEmpty || !digits.all Char.isDigit then none
  else
    let n := digits.foldl (fun n d => 10 * n + (d.toNat - 48)) 0
    if n < Nat.pow 2 64 then some n else none

/-- Selects one function; this may be done once, with a number. -/
def selectFunction (o : Options) (value : String) : Except Refusal Options :=
  match o.only, number? value with
  | none, some n => .ok { o with only := some n }
  | _, _ => .error .misuse

/-- Asks for times; this may be done once. -/
def askTimings (o : Options) : Except Refusal Options :=
  if o.timings then .error .misuse else .ok { o with timings := true }

/-- Adds an input; an empty path is none. -/
def addInput (o : Options) (path : String) : Except Refusal Options :=
  if path.isEmpty then .error .misuse else .ok { o with inputs := o.inputs ++ [path] }

/-- An option that may still wait for its value. -/
inductive Step where
  | done (options : Options)
  | needsValue (options : Options)

/-- Takes joined short options. -/
def short (o : Options) : List Char → Except Refusal Step
  | [] => .ok (.done o)
  | 'f' :: [] => .ok (.needsValue o)
  | 'f' :: '=' :: value => (o.selectFunction (String.ofList value)).map .done
  | 'f' :: value => (o.selectFunction (String.ofList value)).map .done
  | 't' :: rest => (o.askTimings).bind fun o => o.short rest
  | 'v' :: rest => { o with verbosity := o.verbosity + 1 }.short rest
  | 'h' :: _ | 'V' :: _ => .error .help
  | _ => .error .misuse

/-- Takes a long option, given without its two dashes. -/
def long (o : Options) (cs : List Char) : Except Refusal Step :=
  let name := String.ofList (cs.takeWhile (· != '='))
  match cs.dropWhile (· != '=') with
  | [] =>
    if name = "function" then .ok (.needsValue o)
    else if name = "timings" then (o.askTimings).map .done
    else if name = "verbose" then .ok (.done { o with verbosity := o.verbosity + 1 })
    else if name = "help" || name = "version" then .error .help
    else .error .misuse
  | _ :: value =>
    if name = "function" then (o.selectFunction (String.ofList value)).map .done
    else .error .misuse

/-- Takes one argument. -/
def argument (o : Options) (arg : String) : Except Refusal Step :=
  match arg.toList with
  | '-' :: '-' :: name => o.long name
  | '-' :: c :: rest => o.short (c :: rest)
  | _ => (o.addInput arg).map .done

/-- Takes arguments in order; `--` makes all that follow inputs. -/
def take (o : Options) : List String → Except Refusal Options
  | [] => .ok o
  | arg :: rest =>
    if arg = "--" then rest.foldlM addInput o
    else
      match o.argument arg with
      | .error refusal => .error refusal
      | .ok (.done o) => o.take rest
      | .ok (.needsValue o) =>
        match rest with
        | [] => .error .misuse
        | value :: rest =>
          match o.selectFunction value with
          | .error refusal => .error refusal
          | .ok o => o.take rest

/-- Reads the arguments of a run; at least one input is required. -/
def parse (args : List String) : Except Refusal Options := do
  let o ← ({} : Options).take args
  if o.inputs.isEmpty then throw .misuse
  return o

end Options

end ShortCircuit
