/-!
This module contains timepoints and the clock that issues them.
-/

namespace TemporalStore

/--
Microseconds since the epoch.
-/
abbrev Timepoint := Int

namespace Timepoint

/--
What a wall clock reads at `nanos` nanoseconds since the epoch: whole microseconds, and zero as
long as the epoch has not come.
-/
def ofWallClock (nanos : Int) : Timepoint := max 0 (nanos.fdiv 1000)

def next (t : Timepoint) : Timepoint := t + 1

def describe (t : Timepoint) : String := s!"Timestamp({t})"

end Timepoint

/--
A source of strictly increasing timepoints. Parts of a branch are half-open intervals between
timepoints, so no two commits may share one.
-/
structure Clock where
  /-- The timepoint issued last. -/
  last : Timepoint := 0
  deriving DecidableEq, Inhabited

namespace Clock

/--
Issues a timepoint later than every one before: the reading of the wall clock, or the successor
of the last timepoint where the wall clock has not advanced past it.
-/
def tick (clock : Clock) (wall : Timepoint) : Timepoint × Clock :=
  let t := max wall (clock.last + 1)
  (t, ⟨t⟩)

def tickMany (clock : Clock) (wall : Timepoint) : Nat → List Timepoint × Clock
  | 0 => ([], clock)
  | n + 1 =>
    let (t, clock) := clock.tick wall
    let (ts, clock) := clock.tickMany wall n
    (t :: ts, clock)

/--
Makes later ticks land after `floor`.
-/
def observe (clock : Clock) (floor : Timepoint) : Clock := ⟨max clock.last floor⟩

theorem last_lt_tick (clock : Clock) (wall : Timepoint) : clock.last < (clock.tick wall).1 := by
  simp only [tick]
  lia

theorem last_tick (clock : Clock) (wall : Timepoint) :
    (clock.tick wall).2.last = (clock.tick wall).1 := rfl

theorem le_last_observe (clock : Clock) (floor : Timepoint) :
    floor ≤ (clock.observe floor).last := by
  simp only [observe]
  lia

end Clock

end TemporalStore
