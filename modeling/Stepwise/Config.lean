import Stepwise.Display
import Stepwise.Json.Record
import Stepwise.Trace

/-!
# Configurations

What a run of the command line is asked to do. A configuration is written in JSON (`Config.ofBytes`), and is accepted
only if it names exactly one place to read the program from and allows at least one state (`Config.check_eq_ok_iff`).
-/

namespace Stepwise

structure Config where
  /-- The file that holds the program. -/
  inputPath : Option String := none
  /-- Whether the program is read from standard input. -/
  useStdin : Bool := false
  /-- The most states that the trace may hold. -/
  maxSteps : Nat := defaultMaxStates
  /-- Whether the last state is printed. -/
  printFinalState : Bool := true
  /-- Whether every state is printed; then the last one is not printed once more. -/
  printTrace : Bool := false
  /-- The file to which the trace is written. -/
  traceOutputPath : Option String := none
  /-- Whether the trace is written to standard output; a file takes precedence. -/
  traceToStdout : Bool := false
  printSuccessMessage : Bool := false
  spelling : Spelling := .ascii
  deriving DecidableEq, Repr, Inhabited

namespace Config

open Json (Reader Defect)

/-- How states are printed. -/
def spellingFields : List (Json.Field Spelling) :=
  [{ key := "unicode", read := fun _ => Reader.flag.map fun b => if b then .unicode else .ascii }]

/-- The fields of a configuration, in the order in which an array gives them. -/
def fields : List (Json.Field Config) :=
  [{ key := "input_path", needed := true, read := fun c => Reader.optionalText.map fun v => { c with inputPath := v } },
    { key := "use_stdin", read := fun c => Reader.flag.map fun v => { c with useStdin := v } },
    { key := "max_steps", read := fun c => Reader.natural.map fun v => { c with maxSteps := v } },
    { key := "print_final_state", read := fun c => Reader.flag.map fun v => { c with printFinalState := v } },
    { key := "print_trace", read := fun c => Reader.flag.map fun v => { c with printTrace := v } },
    { key := "trace_output_path", needed := true,
      read := fun c => Reader.optionalText.map fun v => { c with traceOutputPath := v } },
    { key := "trace_to_stdout", read := fun c => Reader.flag.map fun v => { c with traceToStdout := v } },
    { key := "print_success_message", read := fun c => Reader.flag.map fun v => { c with printSuccessMessage := v } },
    { key := "pp_options",
      read := fun c => (Reader.record spellingFields .ascii).map fun v => { c with spelling := v } }]

/-- Reads a configuration; what it makes no mention of has its default. -/
def ofBytes (bytes : List UInt8) : Except Defect Config := (Reader.record fields {}).all bytes

/-- Why a configuration makes no sense. -/
inductive Conflict where
  | noInput
  | twoInputs
  | noStates
  deriving DecidableEq, Repr, Inhabited

def Conflict.message : Conflict → String
  | noInput =>
    "incompatible config options: must specify a path to an input file OR set `use_stdin: true`"
  | twoInputs =>
    "incompatible config options: if an input file path is given, `use_stdin` cannot be `true`"
  | noStates => "incompatible config options: `max_steps` must be at least 1"

def check (c : Config) : Except Conflict Unit :=
  if c.inputPath.isNone ∧ c.useStdin = false then .error .noInput
  else if c.inputPath.isSome ∧ c.useStdin = true then .error .twoInputs
  else if c.maxSteps = 0 then .error .noStates
  else .ok ()

theorem check_eq_ok_iff (c : Config) :
    c.check = .ok () ↔ (c.inputPath.isSome = true ↔ c.useStdin = false) ∧ 0 < c.maxSteps := by
  unfold check
  cases c.inputPath <;> cases c.useStdin <;> by_cases h : c.maxSteps = 0 <;> simp [h] <;> omega

end Config

end Stepwise
