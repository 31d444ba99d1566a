/-
SoundSequencer.Player — the command line player of the demo module.

* `Options.ofArgs` reads the arguments.
* `play` runs a sequence on the recording chip and reports on it.
* `run` does both; what it writes and its exit code are an `Outcome`.
-/
import SoundSequencer.Chip.Recorder
import SoundSequencer.Demo
import SoundSequencer.Engine.Calls
import SoundSequencer.Engine.Tick
import SoundSequencer.Sequencer

namespace SoundSequencer.Player

/-- What a run of the player leaves behind. -/
structure Outcome where
  exitCode : UInt32 := 0
  output : String := ""
  errors : String := ""
  deriving Repr, DecidableEq

/-- A run that ends with one line of complaint. -/
def Outcome.failure (complaint : String) : Outcome :=
  { exitCode := 1, errors := complaint ++ "\n" }

/-! ## Arguments -/

/-- The argument behind the first occurrence of `flag`. -/
def valueOf? (flag : String) : List String → Option String
  | [] => none
  | arg :: rest => if arg = flag then rest.head? else valueOf? flag rest

/-- The number that a text of decimal digits stands for, a plus sign allowed in
front of them, if sixty-four bits hold it. -/
def number? (text : String) : Option Nat :=
  let digits := match text.toList with
    | '+' :: rest => rest
    | cs => cs
  if digits.isEmpty || !digits.all Char.isDigit then none
  else
    let n := digits.foldl (fun n c => n * 10 + (c.toNat - '0'.toNat)) 0
    if n < UInt64.size then some n else none

/-- What to play, and for how long. -/
structure Options where
  sequence : Nat := Demo.song
  ticks : Nat := 1200
  /-- The path of the user's settings. -/
  settings : Option String := none
  deriving Repr, DecidableEq

namespace Options

/-- The number behind a flag, or `default` without one. -/
def numberOf (flag : String) (default : Nat) (args : List String) : Except String Nat :=
  match valueOf? flag args with
  | none => .ok default
  | some text =>
    match number? text with
    | some n => .ok n
    | none => .error (flag ++ " expects a number, got " ++ text)

/-- Reads the arguments; any that it does not know are passed over. -/
def ofArgs (args : List String) : Except String Options := do
  let default : Options := {}
  let sequence ← numberOf "--seq" default.sequence args
  let ticks ← numberOf "--ticks" default.ticks args
  return { sequence, ticks, settings := valueOf? "--config" args }

end Options

/-! ## Playing -/

/-- `n` in decimal, filled up with blanks in front to `width` characters. -/
def padLeft (width n : Nat) : String :=
  let digits := toString n
  String.ofList (List.replicate (width - digits.length) ' ') ++ digits

/-- A line on what plays. -/
def report (e : Engine RecorderChip) : String :=
  "tick " ++ padLeft 6 e.ticks ++ " | voices " ++ padLeft 2 e.voices.active ++ " | tracks " ++
    padLeft 2 e.tracksActive ++ " | sequences " ++ toString e.slotsActive ++ "\n"

/-- Ticks an engine until nothing plays, at most `left` times, and reports every
second, the first tick included. -/
def playTicks : (left : Nat) → String → Engine RecorderChip → String × Engine RecorderChip
  | 0, output, e => (output, e)
  | left + 1, output, e =>
    let reports := e.ticks % 120 = 0
    let e := e.tick
    let output := if reports then output ++ report e else output
    if e.tracksActive = 0 then (output, e) else playTicks left output e

/-- The line at the end of a run. -/
def summary (e : Engine RecorderChip) : String :=
  s!"Done after {e.ticks} ticks ({e.clock.ms} ms): {e.chip.keyOns} key-ons, " ++
    s!"{e.chip.keyOffs} key-offs, {e.marks.size} loop marks\n"

/-- Plays a sequence of the demo module under the user's settings. -/
def play (sequence ticks : Nat) (settings : Settings) : Outcome :=
  match Sequencer.make Demo.soundModule ({} : RecorderChip) settings with
  | .error refusal => .failure ("Failed to start engine: " ++ refusal.message)
  | .ok sequencer =>
    let ready := Demo.upload sequencer.engine
    let ready := match ready.listen Demo.markKind with
      | .ok listening => listening
      | .error _ => ready
    match ready.trigger sequence with
    | (.error refusal, _) =>
      .failure (s!"Failed to trigger sequence {sequence}: " ++ refusal.message)
    | (.ok _, e) =>
      let (output, e) := playTicks ticks s!"Sequence {sequence} playing ({ticks} ticks)\n" e
      { output := output ++ summary e }

/-- The player as a function of its arguments and of how settings are loaded. -/
def run (args : List String) (load : String → Except SettingsError Settings) : Outcome :=
  match Options.ofArgs args with
  | .error complaint => .failure complaint
  | .ok options =>
    match options.settings with
    | none => play options.sequence options.ticks {}
    | some path =>
      match load path with
      | .error refusal => .failure ("Failed to load " ++ path ++ ": " ++ refusal.message)
      | .ok settings => play options.sequence options.ticks settings

end SoundSequencer.Player
