import TemporalStore.Timeline.Row

/-!
This module contains the cache of closed rows, from which the row that was used least recently
is dropped when there is no room.
-/

namespace TemporalStore

/--
Closed rows by flat path and timepoint, the one used last in front.
-/
structure HistoryCache where
  capacity : Nat
  entries : List ((String × Timepoint) × BranchRow) := []
  deriving DecidableEq, Inhabited

namespace HistoryCache

/--
A cache for `size` rows, and for one in any case.
-/
def ofSize (size : Nat) : HistoryCache := ⟨max size 1, []⟩

/--
Looks a row up, which counts as a use.
-/
def lookup (cache : HistoryCache) (key : String × Timepoint) : Option BranchRow × HistoryCache :=
  match cache.entries.find? (·.1 = key) with
  | none => (none, cache)
  | some entry => (some entry.2, { cache with entries := entry :: others })
where
  others := cache.entries.filter (·.1 ≠ key)

/--
Adds a row as the one used last.
-/
def put (cache : HistoryCache) (key : String × Timepoint) (row : BranchRow) : HistoryCache :=
  { cache with
    entries := ((key, row) :: cache.entries.filter (·.1 ≠ key)).take cache.capacity }

def clear (cache : HistoryCache) : HistoryCache := { cache with entries := [] }

theorem length_entries_put_le {cache : HistoryCache} {key : String × Timepoint} {row : BranchRow} :
    (cache.put key row).entries.length ≤ cache.capacity := by
  simp only [put, List.length_take]
  omega

end HistoryCache

end TemporalStore
