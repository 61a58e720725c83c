import Stepwise.CommandLine
import Stepwise.Proofs.Faultless
import Stepwise.Proofs.Paths

/-!
# The program that the command runs

Before it runs a program the command reads the configuration, empties the file for the trace and reads the program, in
this order (`CommandLine.prepare`); from then on only the trace is written (`disk_execute`). In a world these steps can
be followed one by one (`openDestination_eq_ok`, `readProgram_eq_ok`).

The order matters in one case, when the trace is to be written to the file that holds the program
(`Config.Overwrites`). Then the file is emptied before it is read: the command runs the empty program, and leaves its
trace in place of the program. **In all other cases, and in no other, the command runs the program that the file held at
the start, and the file is as it was** (`runs_given_program_iff`).
-/

namespace Stepwise

/-- The trace is to be written to the file from which the program is read. -/
def Config.Overwrites (config : Config) (d : Disk) : Prop :=
  ∃ input trace place, config.inputPath = some input ∧ config.traceOutputPath = some trace ∧
    d.locate input = .ok place ∧ d.locate trace = .ok place

namespace CommandLine

/-! ## Commands in a world -/

section World

variable {α β : Type} {w w' : World}

/-- What a command answers in a world, and the world behind it. -/
def runIn (x : ExceptT Error (StateM World) α) (w : World) : Except Error α × World := x.run.run w

@[simp] theorem runIn_lift (x : StateM World α) (w : World) : runIn (liftM x) w = (.ok (x.run w).1, (x.run w).2) := rfl

theorem runIn_bind (x : ExceptT Error (StateM World) α) (f : α → ExceptT Error (StateM World) β) (w : World) :
    runIn (x >>= f) w =
      match runIn x w with
      | (.ok a, w') => runIn (f a) w'
      | (.error e, w') => (.error e, w') := by
  change (ExceptT.bindCont f (runIn x w).1).run (runIn x w).2 = _
  cases hx : runIn x w with
  | mk answer w' => cases answer <;> rfl

theorem runIn_bind_of_ok {x : ExceptT Error (StateM World) α} {a : α} (h : runIn x w = (.ok a, w'))
    (f : α → ExceptT Error (StateM World) β) : runIn (x >>= f) w = runIn (f a) w' := by
  rw [runIn_bind, h]

/-- A sequence that answers has an answer to its first part. -/
theorem runIn_bind_eq_ok {x : ExceptT Error (StateM World) α} {f : α → ExceptT Error (StateM World) β} {b : β}
    (h : runIn (x >>= f) w = (.ok b, w')) : ∃ a u, runIn x w = (.ok a, u) ∧ runIn (f a) u = (.ok b, w') := by
  rw [runIn_bind] at h
  cases hx : runIn x w with
  | mk answer u =>
    rw [hx] at h
    cases answer with
    | error e => cases h
    | ok a => exact ⟨a, u, rfl, h⟩

end World

/-! ## Before the program is run -/

section Prepare

variable {m : Type → Type} [Monad m] [Host m]

/-- All that the command does before it runs a program. -/
def prepare (path : String) : ExceptT Error m (Config × Option Destination × String) := do
  let config ← loadConfig path
  let destination ← openDestination config
  let text ← readProgram config
  return (config, destination, text)

/-- The command prepares a run, and then executes it. -/
theorem obey_eq [LawfulMonad m] (path : String) :
    (obey path : ExceptT Error m Unit) = prepare path >>= fun run => execute run.1 run.2.1 run.2.2 := by
  simp [obey, prepare]

end Prepare

variable {w w' : World} {config : Config} {destination : Option Destination} {path input trace text : String}
  {place : Place} {states : Trace}

/-- Reading the configuration changes nothing. -/
theorem loadConfig_eq_ok (h : runIn (loadConfig path) w = (.ok config, w')) : w' = w := by
  unfold loadConfig at h
  obtain ⟨answer, u, hread, h⟩ := runIn_bind_eq_ok h
  cases hread
  split at h
  · cases h
  · cases h
  · split at h
    · cases h
    · split at h
      · cases h
      · cases h
        rfl

/-- Opening the destination empties the file for the trace, if there is one. -/
theorem openDestination_eq_ok (h : runIn (openDestination config) w = (.ok destination, w')) :
    (config.traceOutputPath = none ∧ w' = w ∧ ∀ trace, destination ≠ some (.file trace)) ∨
      ∃ trace place, config.traceOutputPath = some trace ∧ destination = some (.file trace) ∧
        w.disk.locate trace = .ok place ∧ w' = { w with disk := w.disk.put place ByteArray.empty } := by
  unfold openDestination at h
  split at h
  · rename_i trace htrace
    obtain ⟨answer, u, hempty, h⟩ := runIn_bind_eq_ok h
    cases hlocate : w.disk.locate trace with
    | error e =>
      simp only [runIn_lift, Host.emptyFile, Disk.empty, hlocate, StateT.run, Except.map] at hempty
      cases hempty
      cases h
    | ok place =>
      simp only [runIn_lift, Host.emptyFile, Disk.empty, hlocate, StateT.run, Except.map] at hempty
      cases hempty
      cases h
      exact .inr ⟨trace, place, htrace, rfl, hlocate, rfl⟩
  · rename_i htrace
    cases h
    exact .inl ⟨htrace, rfl, fun trace => by split <;> simp⟩

/-- Reading the program changes nothing. -/
theorem readProgram_eq_ok (hinput : config.inputPath = some input)
    (h : runIn (readProgram config) w = (.ok text, w')) :
    w' = w ∧ ∃ bytes, w.disk.read input = .ok bytes ∧ String.fromUTF8? bytes = some text := by
  unfold readProgram at h
  rw [hinput] at h
  obtain ⟨answer, u, hread, h⟩ := runIn_bind_eq_ok h
  cases hread
  split at h
  · cases h
  · cases h
  · rename_i bytes hread
    simp only [pure_bind] at h
    split at h
    · rename_i htext
      cases h
      exact ⟨rfl, bytes, hread, htext⟩
    · cases h

theorem prepare_eq_ok (h : runIn (prepare path) w = (.ok (config, destination, text), w'))
    (hinput : config.inputPath = some input) : runIn (openDestination config) w = (.ok destination, w') ∧
      ∃ bytes, w'.disk.read input = .ok bytes ∧ String.fromUTF8? bytes = some text := by
  unfold prepare at h
  obtain ⟨config', u, hload, h⟩ := runIn_bind_eq_ok h
  obtain ⟨destination', v, hopen, h⟩ := runIn_bind_eq_ok h
  obtain ⟨text', x, hread, h⟩ := runIn_bind_eq_ok h
  cases h
  obtain rfl := loadConfig_eq_ok hload
  obtain ⟨rfl, hbytes⟩ := readProgram_eq_ok hinput hread
  exact ⟨hopen, hbytes⟩

/-! ## From then on -/

/-- The disk once a trace is at its destination. -/
def delivered (d : Disk) (states : Trace) : Option Destination → Disk
  | some (.file trace) =>
    match d.locate trace with
    | .ok place => d.put place (Trace.toText states).toUTF8
    | .error _ => d
  | _ => d

theorem runIn_print (text : String) (w : World) :
    runIn (print text) w = (.ok (), { w with stdout := w.stdout ++ text }) := rfl

theorem runIn_deliver (states : Trace) (destination : Option Destination) (w : World) :
    ∃ w', runIn (deliver states destination) w = (.ok (), w') ∧ w'.disk = delivered w.disk states destination := by
  cases destination with
  | none => exact ⟨w, rfl, rfl⟩
  | some destination =>
    cases destination with
    | stdout => exact ⟨_, rfl, rfl⟩
    | file trace =>
      refine ⟨_, rfl, ?_⟩
      simp only [delivered]
      cases w.disk.locate trace <;> rfl

/-- **Running a program leaves the disk as the delivery of its trace does.** -/
theorem disk_execute (h : runText text config.maxSteps = .ok states) (destination : Option Destination) (w : World) :
    (runIn (execute config destination text) w).2.disk = delivered w.disk states destination := by
  obtain ⟨last, hlast⟩ : ∃ last, states.getLast? = some last := by
    have hhead := State.head?_of_trace h
    cases states with
    | nil => cases hhead
    | cons s states => exact ⟨_, List.getLast?_cons⟩
  unfold execute
  simp only [h, hlast]
  rw [runIn_bind_of_ok (runIn_print _ w)]
  obtain ⟨w', hdeliver, hdisk⟩ := runIn_deliver states destination
    { w with stdout := w.stdout ++ shownStates config states last }
  rw [runIn_bind_of_ok hdeliver, ← hdisk]
  cases last.error with
  | some e => rfl
  | none => cases config.printSuccessMessage <;> rfl

theorem disk_execute_of_fault {f : Fault} (h : runText text config.maxSteps = .error f)
    (destination : Option Destination) (w : World) :
    (runIn (execute config destination text) w).2.disk = w.disk := by
  unfold execute
  simp only [h]
  rfl

/-! ## The file of the program -/

/-- Emptying and filling the file for the trace changes no other file. -/
theorem read_delivered_of_ne {d : Disk} {bytes : ByteArray} (htrace : d.locate trace = .ok place)
    (hne : d.locate input ≠ .ok place) (states : Trace) :
    (delivered (d.put place ByteArray.empty) states (some (.file trace))).read input = .ok bytes ↔
      d.read input = .ok bytes := by
  have hdirectory := Disk.isDirectory_of_locate htrace
  have htrace' := (Disk.locate_put hdirectory ByteArray.empty trace).mpr htrace
  have hne' : (d.put place ByteArray.empty).locate input ≠ .ok place :=
    fun hinput => hne ((Disk.locate_put hdirectory ByteArray.empty input).mp hinput)
  simp only [delivered, htrace']
  rw [Disk.read_put_of_ne (Disk.isDirectory_of_locate htrace') hne', Disk.read_put_of_ne hdirectory hne]

/-- Without a common file the program is read as it was at the start, and is still there at the end. -/
theorem reads_given_program (h : runIn (prepare path) w = (.ok (config, destination, text), w'))
    (hinput : config.inputPath = some input) (hnot : ¬config.Overwrites w.disk) :
    ∃ bytes, w.disk.read input = .ok bytes ∧ String.fromUTF8? bytes = some text ∧
      (runIn (execute config destination text) w').2.disk.read input = .ok bytes := by
  obtain ⟨hopen, bytes, hbytes, htext⟩ := prepare_eq_ok h hinput
  rcases openDestination_eq_ok hopen with ⟨_, rfl, hnofile⟩ | ⟨trace, place, htrace, rfl, hplace, rfl⟩
  · refine ⟨bytes, hbytes, htext, ?_⟩
    cases hrun : runText text config.maxSteps with
    | error f => rwa [disk_execute_of_fault hrun]
    | ok states =>
      rw [disk_execute hrun]
      cases destination with
      | none => exact hbytes
      | some destination =>
        cases destination with
        | stdout => exact hbytes
        | file trace => exact absurd rfl (hnofile trace)
  · have hne : w.disk.locate input ≠ .ok place :=
      fun hlocate => hnot ⟨input, trace, place, hinput, htrace, hlocate, hplace⟩
    have hbefore := (Disk.read_put_of_ne (Disk.isDirectory_of_locate hplace) hne).mp hbytes
    refine ⟨bytes, hbefore, htext, ?_⟩
    cases hrun : runText text config.maxSteps with
    | error f => rwa [disk_execute_of_fault hrun]
    | ok states =>
      rw [disk_execute hrun]
      exact (read_delivered_of_ne hplace hne states).mpr hbefore

/-- With a common file the empty program is run, and its trace takes the place of the program. -/
theorem reads_nothing (h : runIn (prepare path) w = (.ok (config, destination, text), w'))
    (hinput : config.inputPath = some input) (hover : config.Overwrites w.disk) :
    text = "" ∧ ∃ states, runText "" config.maxSteps = .ok states ∧
      (runIn (execute config destination text) w').2.disk.read input = .ok (Trace.toText states).toUTF8 := by
  obtain ⟨hopen, bytes, hbytes, htext⟩ := prepare_eq_ok h hinput
  obtain ⟨input', trace, place, hinput', htrace, hlocate, hplace⟩ := hover
  obtain rfl : input = input' := by
    rw [hinput] at hinput'
    exact Option.some.inj hinput'
  rcases openDestination_eq_ok hopen with ⟨hnone, _⟩ | ⟨trace', place', htrace', rfl, hplace', rfl⟩
  · rw [htrace] at hnone
    cases hnone
  · obtain rfl : trace = trace' := by
      rw [htrace] at htrace'
      exact Option.some.inj htrace'
    obtain rfl : place = place' := by
      rw [hplace] at hplace'
      exact Except.ok.inj hplace'
    rw [Disk.read_put_self hlocate, Except.ok.injEq] at hbytes
    subst hbytes
    obtain rfl : text = "" := Option.some.inj (htext.symm.trans (by decide))
    have hfits : (Source.ofText "").Fits := by decide
    obtain ⟨states, hrun⟩ := State.exists_run hfits config.maxSteps
    have hdirectory := Disk.isDirectory_of_locate hplace
    refine ⟨rfl, states, hrun, ?_⟩
    rw [disk_execute hrun]
    simp only [delivered, (Disk.locate_put hdirectory ByteArray.empty trace).mpr hplace]
    exact Disk.read_put_self ((Disk.locate_put hdirectory ByteArray.empty input).mpr hlocate) _

theorem fromUTF8?_toUTF8 (s : String) : String.fromUTF8? s.toUTF8 = some s := dif_pos s.isValidUTF8

theorem toText_ne_empty (states : Trace) : Trace.toText states ≠ "" := by
  intro h
  have hlength := congrArg String.length h
  simp [Trace.toText] at hlength

/-- **The command runs the program that its file held at the start, and leaves the file as it was, exactly if it does
not write the trace to that file.** If it does, it runs the empty program, and the file holds the trace of that in the
end. -/
theorem runs_given_program_iff (h : runIn (prepare path) w = (.ok (config, destination, text), w'))
    (hinput : config.inputPath = some input) :
    runIn (obey path) w = runIn (execute config destination text) w' ∧
    ((∃ bytes, w.disk.read input = .ok bytes ∧ String.fromUTF8? bytes = some text ∧
        (runIn (obey path) w).2.disk.read input = .ok bytes) ↔ ¬config.Overwrites w.disk) ∧
    (config.Overwrites w.disk → text = "" ∧ ∃ states, runText "" config.maxSteps = .ok states ∧
      (runIn (obey path) w).2.disk.read input = .ok (Trace.toText states).toUTF8) := by
  have hobey : runIn (obey path) w = runIn (execute config destination text) w' := by
    rw [obey_eq, runIn_bind_of_ok h]
  rw [hobey]
  refine ⟨rfl, ⟨?_, reads_given_program h hinput⟩, reads_nothing h hinput⟩
  rintro ⟨bytes, _, htext, hafter⟩ hover
  -- The file would hold the empty program and its trace at once.
  obtain ⟨rfl, states, _, hoverwritten⟩ := reads_nothing h hinput hover
  rw [hafter, Except.ok.injEq] at hoverwritten
  rw [hoverwritten, fromUTF8?_toUTF8, Option.some.injEq] at htext
  exact toText_ne_empty states htext

/-! ## Two configurations -/

/-- A world with a program in the file `program` and a configuration that sends the trace to the file `trace`. -/
def worldFor (trace : String) : World where
  disk :=
    { workingDirectory := ["home"]
      files :=
        [(["home", "program"], "type : o .".toUTF8),
          (["home", "config"],
            ("\x7b\"input_path\": \"program\", \"trace_output_path\": \"" ++ trace ++ "\"\x7d").toUTF8)] }

/-- The trace goes to a new file beside the program. -/
theorem runs_given_program_beside_trace : ∃ config destination text w',
    runIn (prepare "config") (worldFor "../home/trace") = (.ok (config, destination, text), w') ∧
    config.inputPath = some "program" ∧ text = "type : o ." ∧
    (runIn (obey "config") (worldFor "../home/trace")).2.disk.read "program" = .ok "type : o .".toUTF8 := by
  let config : Config := { inputPath := some "program", traceOutputPath := some "../home/trace" }
  obtain ⟨hprepare, hread, hinput, htrace⟩ :
      (runIn (prepare "config") (worldFor "../home/trace")).1 =
        .ok (config, some (.file "../home/trace"), "type : o .") ∧
      (worldFor "../home/trace").disk.read "program" = .ok "type : o .".toUTF8 ∧
      (worldFor "../home/trace").disk.locate "program" = .ok ["home", "program"] ∧
      (worldFor "../home/trace").disk.locate "../home/trace" = .ok ["home", "trace"] := by decide +kernel
  have hnot : ¬config.Overwrites (worldFor "../home/trace").disk := by
    rintro ⟨input, trace, place, hconfig, hconfig', hplace, hplace'⟩
    cases hconfig
    cases hconfig'
    rw [hinput] at hplace
    rw [htrace] at hplace'
    cases hplace
    simp at hplace'
  obtain ⟨_, hiff, _⟩ := runs_given_program_iff (Prod.ext hprepare rfl) rfl
  obtain ⟨bytes, hbytes, _, hafter⟩ := hiff.mpr hnot
  rw [hread] at hbytes
  cases hbytes
  exact ⟨config, _, _, _, Prod.ext hprepare rfl, rfl, rfl, hafter⟩

/-- The trace goes to the file of the program, and the program is lost before it is read. -/
theorem overwritten_program_is_lost : ∃ config destination text w',
    runIn (prepare "config") (worldFor "program") = (.ok (config, destination, text), w') ∧
    config.inputPath = some "program" ∧
    (worldFor "program").disk.read "program" = .ok "type : o .".toUTF8 ∧ text ≠ "type : o ." ∧
    (runIn (obey "config") (worldFor "program")).2.disk.read "program" ≠ .ok "type : o .".toUTF8 := by
  let config : Config := { inputPath := some "program", traceOutputPath := some "program" }
  obtain ⟨hprepare, hread, hafter⟩ :
      (runIn (prepare "config") (worldFor "program")).1 = .ok (config, some (.file "program"), "") ∧
      (worldFor "program").disk.read "program" = .ok "type : o .".toUTF8 ∧
      (runIn (obey "config") (worldFor "program")).2.disk.read "program" ≠ .ok "type : o .".toUTF8 := by
    decide +kernel
  exact ⟨config, _, _, _, Prod.ext hprepare rfl, rfl, hread, by decide, hafter⟩

end CommandLine

end Stepwise
