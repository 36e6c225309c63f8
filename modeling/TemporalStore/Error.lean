import TemporalStore.Clock

/-!
This module contains the ways in which operations of the store fail, and the words for them.
-/

namespace TemporalStore

inductive StoreError where
  /-- The file system refused. -/
  | io (cause : String)
  | branchNotFound (path : String)
  | branchNotFoundAt (path : String) (timepoint : Timepoint)
  | parentNotFound (path : String)
  | branchExists (path : String)
  | branchLocked (path : String)
  | invalidPath (reason : String)
  /-- The stored rows contradict each other. -/
  | dataIntegrity (violation : String)
  /-- The commit or lock does not fit the state of its branch. -/
  | commitState (reason : String)
  | serialization (reason : String)
  | deserialization (reason : String)
  | corruption (reason : String)
  /-- Someone else holds the store. -/
  | locked
  | notInitialized
  | invalidFormat (reason : String)
  | checksumMismatch (expected got : UInt32)
  deriving DecidableEq, Repr, Inhabited

namespace StoreError

def message : StoreError → String
  | io cause => s!"IO error: {cause}"
  | branchNotFound path => s!"Branch not found: {path}"
  | branchNotFoundAt path timepoint =>
    s!"Branch {path} does not exist at timepoint {timepoint.describe}"
  | parentNotFound path => s!"Parent branch not found: {path}"
  | branchExists path => s!"Branch already exists: {path}"
  | branchLocked path => s!"Branch already locked: {path}"
  | invalidPath reason => s!"Invalid branch path: {reason}"
  | dataIntegrity violation => s!"Data integrity violation: {violation}"
  | commitState reason => s!"Commit state error: {reason}"
  | serialization reason => s!"Serialization error: {reason}"
  | deserialization reason => s!"Deserialization error: {reason}"
  | corruption reason => s!"Corruption detected: {reason}"
  | locked => "Store is locked by another process"
  | notInitialized => "Store not initialized"
  | invalidFormat reason => s!"Invalid store format: {reason}"
  | checksumMismatch expected got => s!"Checksum mismatch: expected {expected}, got {got}"

/--
Whether the same call may succeed later without any change by the caller. Only locks go away by
themselves.
-/
def isRetryable : StoreError → Bool
  | branchLocked _ => true
  | _ => false

end StoreError

end TemporalStore
