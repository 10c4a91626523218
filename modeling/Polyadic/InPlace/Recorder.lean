import Polyadic.Attempt.Event
import Polyadic.Failure

/-! # Recorders

A recorder is what a session keeps: the log of its last attempt, and the binding, the position and
the stack of the attempt that it makes.  Work changes them in place, and a failure leaves them as
they are at that moment: a new attempt has to clear what the last one left behind
(`Recorder.record`). -/

namespace Polyadic

/-! ### Logs -/

/-- Steps with their numbers, which are kept while the log is switched on. -/
structure Log where
  enabled : Bool := false
  entries : Array (Nat × Step) := #[]
deriving DecidableEq

namespace Log

/-- Puts an event behind the others, in words and with the next number. -/
def push (l : Log) (e : Event) : Log :=
  if l.enabled then { l with entries := l.entries.push (l.entries.size + 1, e.step) } else l

/-- Forgets the steps. -/
def clear (l : Log) : Log := { l with entries := #[] }

end Log

/-! ### Recorders -/

/-- What a session keeps.  The trail leads from the question to the part that is being matched, and
the stack holds the aliases that are being expanded. -/
structure Recorder where
  log : Log := {}
  binding : Binding := .empty
  trail : List Segment := []
  stack : List String := []

/-- A computation that changes a recorder.  A failure keeps the changes before it. -/
abbrev Work (α : Type) := EStateM Failure Recorder α

namespace Work

variable {α : Type}

/-- Puts an event into the log. -/
def note (e : Event) : Work Unit := modify fun r => { r with log := r.log.push e }

/-- Puts an event into the log if that is switched on. -/
def noteIfEnabled (e : Event) : Work Unit := do
  if (← get).log.enabled then note e

/-- Ends in a failure at the present position. -/
def fail (cause : Cause) : Work α := do throw ⟨cause, (← get).trail⟩

/-- Works on a part, one step further in. -/
def under (segment : Segment) (x : Work α) : Work α := do
  modify fun r => { r with trail := r.trail ++ [segment] }
  let a ← x
  modify fun r => { r with trail := r.trail.dropLast }
  return a

end Work

namespace Recorder

variable {α : Type}

/-- Switches the log on; it shows what it has kept so far. -/
def enable (r : Recorder) : Recorder := { r with log := { r.log with enabled := true } }

/-- The kept steps, each with its number from one on. -/
def steps (r : Recorder) : List (Nat × Step) := r.log.entries.toList

/-- Makes ready for an attempt. -/
def start (r : Recorder) : Recorder := ⟨r.log.clear, .empty, [], []⟩

/-- Takes the binding away after an attempt. -/
def finish (r : Recorder) : Recorder := { r with binding := .empty }

/-- Makes an attempt; gives back its result and the recorder after it. -/
def record (r : Recorder) (x : Work α) : Except Failure α × Recorder :=
  match x r.start with
  | .ok a r => (.ok a, r.finish)
  | .error e r => (.error e, r.finish)

end Recorder

end Polyadic
