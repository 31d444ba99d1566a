/-
SoundSequencer.Main — the command line: reads the file of settings, runs the
player, writes what it leaves behind.
-/
import SoundSequencer.Player

open SoundSequencer

/-- What is said of a file that cannot be read. -/
def reasonOf : IO.Error → String
  | .noFileOrDirectory .. => "No such file or directory (os error 2)"
  | .permissionDenied .. => "Permission denied (os error 13)"
  | failure => toString failure

/-- Loads settings from a file. -/
def loadSettings (path : String) : IO (Except SettingsError Settings) := do
  try return Settings.ofText (← IO.FS.readFile path)
  catch failure => return .error (.unreadable (reasonOf failure))

/-- Plays a sequence of the demo module. -/
def main (args : List String) : IO UInt32 := do
  let settings ← match Player.valueOf? "--config" args with
    | none => pure (.ok {})
    | some path => loadSettings path
  let outcome := Player.run args fun _ => settings
  IO.print outcome.output
  IO.eprint outcome.errors
  return outcome.exitCode
