import TemporalStore.Directory.Commit
import TemporalStore.Directory.Create
import TemporalStore.Visibility.Edit

/-!
This module contains sessions: a directory with the handles of commits that it has given out and
a collection of documents that are edited under them. Actions on a session come in any order and
may fail.
-/

namespace TemporalStore

structure Session where
  site : Site
  /-- The handles, in the order in which they were given out. -/
  commits : List Commit := []
  documents : Collection := {}

/--
A handle is named by its place among those that were given out.
-/
inductive Action where
  /-- The wall clock, the disk and whatever else is around the directory. -/
  | surroundings (host : Host)
  /-- Subscribers come and go and take their events. -/
  | subscribers (events : Broadcaster)
  | create (path : String)
  | lock (path : String)
  | unlock (path : String)
  | forceUnlock (path : String)
  | openCommit (path : String) (kind : CommitKind)
  | openPromotion (path source : String)
  | complete (handle : Nat)
  | purge
  | save
  | reopen (cacheSize : Nat)
  | latest (path : String)
  | rowAt (path : String) (t : Timepoint)
  | criteria (path : String)
  | hide (handle : Nat) (ids : List VersionId)
  | retire (handle : Nat) (field : String) (values : OrderedSet String)
  | write (handle : Nat) (docs : List Document)
  | endVersions (ids : List VersionId) (t : Timepoint)

namespace Session

/--
The session of a directory without rows, which is kept in memory or in a file that is not there
yet.
-/
def New (session : Session) : Prop :=
  session.commits = [] ∧ session.documents = {} ∧
    ∃ file cacheSize, session.site.directory = .ofIndex file {} cacheSize ∧
      ∀ name, file = some name → session.site.host.disk.contains name = false

def empty : Session := { site := { directory := .inMemory, host := {} } }

theorem new_empty : empty.New := by
  refine ⟨rfl, rfl, none, Directory.defaultCacheSize, rfl, ?_⟩
  intro name h
  simp at h

/--
Runs an operation on the directory. If it succeeds, `keep` says what else changes.
-/
def call {α : Type} (session : Session) (act : DirectoryM α)
    (keep : α → Session → Session := fun _ session => session) :
    Except StoreError Unit × Session :=
  match act session.site with
  | .ok a site => (.ok (), keep a { session with site })
  | .error e site => (.error e, { session with site })

def withHandle (session : Session) (handle : Nat)
    (act : Commit → Except StoreError Unit × Session) : Except StoreError Unit × Session :=
  match session.commits[handle]? with
  | some commit => act commit
  | none => (.error (.commitState s!"There is no commit {handle}"), session)

def addCommit (commit : Commit) (session : Session) : Session :=
  { session with commits := session.commits ++ [commit] }

def editing (session : Session) (commit : Commit) : Edit :=
  { site := session.site, commit, documents := session.documents }

def edited (session : Session) (handle : Nat) (edit : Edit) : Session where
  site := edit.site
  commits := session.commits.set handle edit.commit
  documents := edit.documents

/--
Closes the directory and opens it again from its file. Handles are of no use after that.
-/
def reopen (session : Session) (cacheSize : Nat) : Except StoreError Unit × Session :=
  match session.site.directory.file with
  | none => (.ok (), session)
  | some name =>
    match Directory.load name cacheSize session.site.host with
    | .ok directory host => (.ok (), { session with site := { directory, host }, commits := [] })
    | .error e host => (.error e, { session with site := { session.site with host } })

def retire (session : Session) (handle : Nat) (field : String) (values : OrderedSet String)
    (commit : Commit) : Except StoreError Unit × Session :=
  match Edit.retire field values (session.editing commit) with
  | .ok _ edit => (.ok (), session.edited handle edit)
  | .error e edit => (.error e, session.edited handle edit)

def write (session : Session) (commit : Commit) (docs : List Document) : Session :=
  let (_, documents, ids) :=
    session.documents.saveAll (docs.map commit.stamp) session.site.host.ids
  { session with
    documents
    site := { session.site with host := { session.site.host with ids } } }

def step (session : Session) : Action → Except StoreError Unit × Session
  | .surroundings host => (.ok (), { session with site := { session.site with host } })
  | .subscribers events =>
    (.ok (), { session with site :=
      { session.site with directory := { session.site.directory with events } } })
  | .create path => session.call (Directory.create path)
  | .lock path => session.call (Directory.lock path)
  | .unlock path => session.call (Directory.unlock path)
  | .forceUnlock path => session.call (Directory.forceUnlock path)
  | .openCommit path kind => session.call (Directory.openCommit path kind) addCommit
  | .openPromotion path source => session.call (Directory.openPromotion path source) addCommit
  | .complete handle =>
    session.withHandle handle fun commit => session.call (Directory.complete commit)
  | .purge => session.call Directory.purge
  | .save => session.call Directory.save
  | .reopen cacheSize => session.reopen cacheSize
  | .latest path => session.call (Directory.latestWithStanding? path)
  | .rowAt path t => session.call (Directory.rowAt path t)
  | .criteria path => session.call (Criteria.ofBranch path)
  | .hide handle ids => session.withHandle handle fun _ =>
    (.ok (), { session with commits := session.commits.modify handle (·.hide ids) })
  | .retire handle field values =>
    session.withHandle handle (session.retire handle field values)
  | .write handle docs => session.withHandle handle fun commit =>
    (.ok (), session.write commit docs)
  | .endVersions ids t =>
    (.ok (), { session with documents := session.documents.endVersions ids t })

def run (session : Session) : List Action → Session
  | [] => session
  | action :: actions => (session.step action).2.run actions

def answers (session : Session) : List Action → List (Action × Except StoreError Unit)
  | [] => []
  | action :: actions =>
    (action, (session.step action).1) :: (session.step action).2.answers actions

end Session

/--
What is asked of those who act: branch paths are valid, and nobody else touches the file of the
directory. The file is read back where timepoints and lengths are machine words.
-/
def Action.Allowed (action : Action) (session : Session) : Prop :=
  match action with
  | .surroundings host => ∀ name, session.site.directory.file = some name →
    host.disk.contains name = session.site.host.disk.contains name ∧
      ∀ bytes, session.site.host.disk.read name = .ok bytes → host.disk.read name = .ok bytes
  | .create path | .lock path | .unlock path | .forceUnlock path | .openCommit path _
  | .latest path | .rowAt path _ | .criteria path => Path.validate path = .ok ()
  | .openPromotion path source => Path.validate path = .ok () ∧ Path.validate source = .ok ()
  | .reopen _ => session.site.directory.clock.last < 0x8000000000000000 ∧
    (MessagePack.encode (Record.indexValue session.site.directory.index)).length <
      0x10000000000000000
  | _ => True

namespace Session

/--
Every action is allowed when its turn comes.
-/
def Permits (session : Session) : List Action → Prop
  | [] => True
  | action :: actions => action.Allowed session ∧ (session.step action).2.Permits actions

theorem run_append (session : Session) (actions others : List Action) :
    session.run (actions ++ others) = (session.run actions).run others := by
  induction actions generalizing session with
  | nil => rfl
  | cons action actions ih => exact ih _

theorem answers_append (session : Session) (actions others : List Action) :
    session.answers (actions ++ others) =
      session.answers actions ++ (session.run actions).answers others := by
  induction actions generalizing session with
  | nil => rfl
  | cons action actions ih => exact congrArg (_ :: ·) (ih _)

theorem permits_append (session : Session) (actions others : List Action) :
    session.Permits (actions ++ others) ↔
      session.Permits actions ∧ (session.run actions).Permits others := by
  induction actions generalizing session with
  | nil => simp [Permits, run]
  | cons action actions ih =>
    change _ ∧ (session.step action).2.Permits (actions ++ others) ↔ _
    rw [ih, ← and_assoc]
    rfl

/-! ## The past of a run -/

/--
At some point of a run something has begun, and nothing that was done after it has ended it.
-/
def Since (session : Session) (begins : Session → Action → Prop)
    (ends : Action × Except StoreError Unit → Prop) (actions : List Action) : Prop :=
  ∃ before action later, actions = before ++ action :: later ∧
    begins (session.run before) action ∧
      ∀ answer ∈ (session.run (before ++ [action])).answers later, ¬ ends answer

theorem not_since_nil {session : Session} {begins : Session → Action → Prop}
    {ends : Action × Except StoreError Unit → Prop} : ¬ session.Since begins ends [] := by
  rintro ⟨before, action, later, parts, -⟩
  simp at parts

theorem since_concat {session : Session} {begins : Session → Action → Prop}
    {ends : Action × Except StoreError Unit → Prop} {actions : List Action} {action : Action} :
    session.Since begins ends (actions ++ [action]) ↔
      begins (session.run actions) action ∨ (session.Since begins ends actions ∧
        ¬ ends (action, ((session.run actions).step action).1)) := by
  constructor
  · rintro ⟨before, first, later, parts, begun, rest⟩
    -- it has begun with the last action, or that is one of those which came after
    rcases List.eq_nil_or_concat later with rfl | ⟨later, last, rfl⟩
    · obtain ⟨rfl, same⟩ := List.append_inj' parts rfl
      rw [List.singleton_inj] at same
      rw [same]
      exact .inl begun
    · rw [List.concat_eq_append, ← List.cons_append, ← List.append_assoc] at parts
      obtain ⟨rfl, same⟩ := List.append_inj' parts rfl
      rw [List.singleton_inj] at same
      rw [← same, List.concat_eq_append] at rest
      have split : before ++ first :: later = before ++ [first] ++ later := by simp
      rw [answers_append, ← run_append, ← split, List.forall_mem_append] at rest
      exact .inr ⟨⟨before, first, later, rfl, begun, rest.1⟩, rest.2 _ (List.mem_singleton_self _)⟩
  · rintro (begun | ⟨⟨before, first, later, rfl, begun, rest⟩, not⟩)
    · exact ⟨actions, action, [], rfl, begun, by simp [answers]⟩
    · have split : before ++ first :: later = before ++ [first] ++ later := by simp
      refine ⟨before, first, later ++ [action], by simp, begun, ?_⟩
      rw [answers_append, ← run_append, ← split, List.forall_mem_append]
      refine ⟨rest, ?_⟩
      intro answer mem
      rw [answers, answers, List.mem_singleton] at mem
      rw [mem]
      exact not

section

variable {α : Type} {session : Session} {act : DirectoryM α} {keep : α → Session → Session}
  {site : Site}

theorem call_ok {a : α} (h : act session.site = .ok a site) :
    session.call act keep = (.ok (), keep a { session with site }) := by
  unfold call
  rw [h]

theorem call_error {e : StoreError} (h : act session.site = .error e site) :
    session.call act keep = (.error e, { session with site }) := by
  unfold call
  rw [h]

theorem commits_call : (session.call act).2.commits = session.commits := by
  cases answer : act session.site with
  | ok a site => rw [call_ok answer]
  | error e site => rw [call_error answer]

end

section

variable {session : Session} {handle : Nat} {commit : Commit}

theorem withHandle_of_getElem? {act : Commit → Except StoreError Unit × Session}
    (there : session.commits[handle]? = some commit) :
    session.withHandle handle act = act commit := by
  unfold withHandle
  rw [there]

theorem step_complete (there : session.commits[handle]? = some commit) :
    session.step (.complete handle) = session.call (Directory.complete commit) :=
  withHandle_of_getElem? there

theorem step_retire (there : session.commits[handle]? = some commit) (field : String)
    (values : OrderedSet String) :
    session.step (.retire handle field values) = session.retire handle field values commit :=
  withHandle_of_getElem? there

theorem step_write (there : session.commits[handle]? = some commit) (docs : List Document) :
    session.step (.write handle docs) = (.ok (), session.write commit docs) :=
  withHandle_of_getElem? there

theorem withHandle_of_absent {act : Commit → Except StoreError Unit × Session}
    (absent : session.commits[handle]? = none) : (session.withHandle handle act).2 = session := by
  unfold withHandle
  rw [absent]

end

end Session

end TemporalStore
