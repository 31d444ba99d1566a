import SoundSequencer.Main
import SoundSequencer.Proofs.Effects
import SoundSequencer.Proofs.Moves
import SoundSequencer.Proofs.Session
import SoundSequencer.Proofs.Performance
import SoundSequencer.Proofs.Tracks
import SoundSequencer.Proofs.Ownership
import SoundSequencer.Proofs.OwnedRuns
import SoundSequencer.Proofs.TurnedOff
import SoundSequencer.Proofs.Places
import SoundSequencer.Proofs.PoolRuns
import SoundSequencer.Proofs.Keying
import SoundSequencer.Proofs.Sounding
import SoundSequencer.Proofs.WellFormed
import SoundSequencer.Proofs.Registers
import SoundSequencer.Proofs.Score
import SoundSequencer.Proofs.ScoreRuns
import SoundSequencer.Proofs.SilentDriver
import SoundSequencer.Proofs.HeldNotes
import SoundSequencer.Proofs.Events
import SoundSequencer.Proofs.Quantities
import SoundSequencer.Proofs.Disassembly
import SoundSequencer.Proofs.Seats
import SoundSequencer.Proofs.Boundaries
import SoundSequencer.Proofs.Firm
import SoundSequencer.Proofs.MachineNotes
import SoundSequencer.Proofs.MachineTracks
import SoundSequencer.Proofs.MachineStarts
import SoundSequencer.Proofs.MachineCalls
import SoundSequencer.Proofs.Silence
import SoundSequencer.Proofs.Status
import SoundSequencer.Proofs.Handles
import SoundSequencer.Proofs.Waits
import SoundSequencer.Proofs.Turns
import SoundSequencer.Proofs.Punctual
import SoundSequencer.Proofs.VoiceChoice
import SoundSequencer.Proofs.NoteEffects
import SoundSequencer.Proofs.Overrides
import SoundSequencer.Proofs.Allocation
import SoundSequencer.Proofs.Reach
import SoundSequencer.Proofs.Stops
import SoundSequencer.Proofs.SameBoxes
import SoundSequencer.Proofs.Boxes
import SoundSequencer.Proofs.LeftAlone
import SoundSequencer.Proofs.Suspension
import SoundSequencer.Proofs.MasterVolume
import SoundSequencer.Proofs.OwnScope
import SoundSequencer.Proofs.NoteEnds
import SoundSequencer.Proofs.ReleaseTimes
import SoundSequencer.Proofs.FadeCourse
import SoundSequencer.Proofs.StereoLevels
import SoundSequencer.Proofs.PitchBend
import SoundSequencer.Proofs.Tempo
import SoundSequencer.Proofs.Transfers
import SoundSequencer.Proofs.MuteRelease
import SoundSequencer.Proofs.DocumentLines
import SoundSequencer.Proofs.RecordFormats
import SoundSequencer.Proofs.SavedSettings
import SoundSequencer.Proofs.Labels
