import Stepwise.Config
import Stepwise.Host
import Stepwise.Snapshot

/-!
# The command line

One argument, the path of a configuration, says what to do (`CommandLine.run`): the file for the trace is opened, and
so emptied, before the program is read; then the program is run and its states are printed; then the trace is written;
and only then does an error in the program make the command fail.
-/

namespace Stepwise.CommandLine

/-! ## Errors -/

/-- Why the command fails. -/
inductive Error where
  | noArgument
  | configNotOpened (e : FileError)
  | configNotRead (e : FileError)
  | configDefect (d : Json.Defect)
  | configConflict (c : Config.Conflict)
  | destinationNotOpened (e : FileError)
  | inputNotOpened (e : FileError)
  | inputNotRead (e : FileError)
  /-- The program is not UTF-8. -/
  | inputNotText
  | noInput
  | noStates
  | fault (f : Fault)
  /-- The run stopped with an error in the step of the given number. -/
  | stepFailed (step : Nat) (message : String)
  deriving DecidableEq, Repr, Inhabited

def defectMessage : Json.Defect → String
  | .ended => "the configuration file ends too early"
  | .malformed => "the configuration file is not valid JSON"
  | .mistyped => "the configuration file does not hold a configuration"

def faultMessage : Fault → String
  | .addressOverflow pc => "program counter " ++ pc.text ++ " cannot advance"
  | .spanOutOfRange program =>
    "no declaration spans " ++ toString program.first ++ "..=" ++ toString program.last

def Error.message : Error → String
  | noArgument => "This program expects a path to a configuration file."
  | configNotOpened e => "failed to open configuration file: " ++ e.details
  | configNotRead e => e.summary
  | configDefect d => defectMessage d
  | configConflict c => c.message
  | destinationNotOpened e => "Failed to open trace destination file: " ++ e.details
  | inputNotOpened e => "Failed to open input file: " ++ e.details
  | inputNotRead e => e.summary
  | inputNotText => "stream did not contain valid UTF-8"
  | noInput => "Configuration file must specify an input file path or \"use_stdin\": true"
  | noStates => "the run produced no states"
  | fault f => faultMessage f
  | stepFailed step message => "step " ++ toString step ++ " failed: " ++ message

/-! ## Steps of the command -/

variable {m : Type → Type} [Monad m] [Host m]

/-- Reads a configuration and checks it. -/
def loadConfig (path : String) : ExceptT Error m Config := do
  match ← liftM (Host.readFile path : m _) with
  | .error (.opening e) => throw (.configNotOpened e)
  | .error (.reading e) => throw (.configNotRead e)
  | .ok bytes =>
    match Config.ofBytes bytes.toList with
    | .error d => throw (.configDefect d)
    | .ok config =>
      match config.check with
      | .error c => throw (.configConflict c)
      | .ok () => return config

/-- Where the trace goes. -/
inductive Destination where
  | file (path : String)
  | stdout
  deriving DecidableEq, Repr, Inhabited

/-- Opens the destination of the trace, so that one that cannot be written makes the command fail at once. A file is
emptied. -/
def openDestination (config : Config) : ExceptT Error m (Option Destination) := do
  match config.traceOutputPath with
  | some path =>
    match ← liftM (Host.emptyFile path : m _) with
    | .error e => throw (.destinationNotOpened e)
    | .ok () => return some (.file path)
  | none => return if config.traceToStdout then some .stdout else none

/-- The text of the program. -/
def readProgram (config : Config) : ExceptT Error m String := do
  let bytes ←
    match config.inputPath with
    | some path => do
      match ← liftM (Host.readFile path : m _) with
      | .error (.opening e) => throw (.inputNotOpened e)
      | .error (.reading e) => throw (.inputNotRead e)
      | .ok bytes => pure bytes
    | none => if config.useStdin then liftM (Host.readStdin : m _) else throw .noInput
  match String.fromUTF8? bytes with
  | some text => return text
  | none => throw .inputNotText

def print (text : String) : ExceptT Error m Unit := liftM (Host.print text : m Unit)

/-- The states that are to be shown. -/
def shownStates (config : Config) (states : Trace) (last : State) : String :=
  if config.printTrace then
    String.join (states.mapIdx fun i s => "=== time: " ++ toString i ++ "\n" ++ config.spelling.state s ++ "\n")
  else if config.printFinalState then config.spelling.state last ++ "\n"
  else ""

def deliver (states : Trace) : Option Destination → ExceptT Error m Unit
  | none => pure ()
  | some .stdout => print (Trace.toText states)
  | some (.file path) => liftM (Host.writeFile path (Trace.toText states) : m Unit)

/-- Runs a program and reports on it. -/
def execute (config : Config) (destination : Option Destination) (text : String) : ExceptT Error m Unit := do
  match runText text config.maxSteps with
  | .error f => throw (.fault f)
  | .ok states =>
    match states.getLast? with
    | none => throw .noStates
    | some last =>
      print (shownStates config states last)
      deliver states destination
      match last.error with
      | some e => throw (.stepFailed (states.length - 1) e)
      | none =>
        if config.printSuccessMessage then
          print ("Ran " ++ toString states.length ++ " steps, defining " ++ toString last.signature.length ++
            " signature entries\n")

/-- Does what the configuration at a path says. -/
def obey (path : String) : ExceptT Error m Unit := do
  let config ← loadConfig path
  let destination ← openDestination config
  let text ← readProgram config
  execute config destination text

def help : String :=
  "forth_elf_bin 0.1.0\n\n" ++
  "A single-stepping elaborator for a small dependently-typed signature language, producing a full state trace for " ++
  "time-travel debugging\n\n" ++
  "usage: forth_elf_bin <config.json>\n\n" ++
  "The configuration file is JSON. Keys:\n" ++
  "  input_path          path to the program to run\n" ++
  "  use_stdin           read the program from stdin instead (default false)\n" ++
  "  max_steps           most states a run may produce (default 1000)\n" ++
  "  print_final_state   print the last state (default true)\n" ++
  "  print_trace         print every state (default false)\n" ++
  "  trace_output_path   write the whole trace as JSON to this path\n" ++
  "  trace_to_stdout     write the JSON trace to stdout instead (default false)\n" ++
  "  print_success_message\n" ++
  "  pp_options          \x7b\"unicode\": bool\x7d\n\n" ++
  "Set RUST_LOG=debug (or trace) for a log of every definition (or instruction).\n"

/-- The command with its arguments; all but the first are ignored. -/
def run (args : List String) : ExceptT Error m Unit :=
  match args with
  | [] => throw .noArgument
  | arg :: _ => if arg = "-h" ∨ arg = "--help" then print help else obey arg

/-- The exit code of the command, and what it writes to standard error. -/
def report : Except Error Unit → UInt32 × String
  | .ok () => (0, "")
  | .error e => (1, "Error: " ++ e.message ++ "\n\nrun with `-h` or `--help` for help\n")

end Stepwise.CommandLine
