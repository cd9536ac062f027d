import TypeAtlas.Number.Basic

/-! # Deadlines

A time budget for one extraction. Time is a sequence of clock readings, of which the last is
repeated for ever; starting a deadline takes one reading and every check takes one more.
-/

namespace TypeAtlas

/-- The readings that a clock will give. -/
structure Clock where
  next : Number
  later : List Number := []
deriving DecidableEq, Inhabited, Repr

namespace Clock

def still : Clock := ⟨.int 0, []⟩

def ofList : List Number → Clock
  | [] => still
  | t :: ts => ⟨t, ts⟩

def tick (c : Clock) : Number × Clock :=
  match c.later with
  | [] => (c.next, c)
  | t :: ts => (c.next, ⟨t, ts⟩)

end Clock

structure Deadline where
  seconds : Number
  expiresAt : Number
  clock : Clock
deriving DecidableEq, Inhabited, Repr

namespace Deadline

def start (seconds : Number) (clock : Clock) : Deadline :=
  let (now, clock) := clock.tick
  ⟨seconds, now.add seconds, clock⟩

/-- Whether the time is over, and the deadline after this reading. -/
def expired (d : Deadline) : Bool × Deadline :=
  let (now, clock) := d.clock.tick
  (d.expiresAt.le now, { d with clock })

end Deadline

end TypeAtlas
