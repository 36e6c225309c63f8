import TemporalStore.Proofs.Directory.Mirror
import TemporalStore.Proofs.Session.Sound

/-!
This module contains how a session on a file compares to one in memory in which the same is done.
-/

namespace TemporalStore

/--
Actions on the directory and on the handles that it gives out; documents are left aside, and the
directory is not closed.
-/
def Action.OnDirectory : Action → Prop
  | .reopen _ | .retire _ _ _ | .write _ _ | .endVersions _ _ => False
  | _ => True

namespace Session

/--
The second session is in memory, and otherwise like the first.
-/
structure Mirrors (session session' : Session) : Prop where
  site : session.site.Mirrors session'.site
  commits : session'.commits = session.commits
  memory : session'.site.directory.file = none

/--
Both give the same answer and are alike afterwards, or the first one fails because of its file.
-/
def Alike (result result' : Except StoreError Unit × Session) : Prop :=
  (result.1 = result'.1 ∧ result.2.Mirrors result'.2) ∨ ∃ cause, result.1 = .error (.io cause)

section

variable {session session' : Session}

theorem alike_call {α : Type} {op : Operation α} {keep : α → Session → Session}
    (mirrors : session.Mirrors session') (sound : session.Sound) (sound' : session'.Sound)
    (kept : ∀ a (s s' : Session), s.Mirrors s' → (keep a s).Mirrors (keep a s')) :
    Alike (session.call op.perform keep) (session'.call op.perform keep) := by
  have memory : session'.site.Writable := by
    intro name hf
    simp [mirrors.memory] at hf
  have file := (Directory.upholds_perform Site.sameHome_always op session'.site).file
  rw [mirrors.memory] at file
  rcases Directory.matched_or_io mirrors.site sound.site sound'.site memory op with
    matched | ⟨-, cause, after, failed⟩
  · left
    unfold call
    generalize op.perform session.site = result at matched ⊢
    generalize op.perform session'.site = result' at matched file ⊢
    cases matched with
    | ok a same => exact ⟨rfl, kept a _ _ ⟨same, mirrors.commits, file⟩⟩
    | error e same => exact ⟨rfl, same, mirrors.commits, file⟩
  · right
    rw [call_error failed]
    exact ⟨cause, rfl⟩

theorem alike_ok (mirrors : session.Mirrors session') : Alike (.ok (), session) (.ok (), session') :=
  .inl ⟨rfl, mirrors⟩

theorem alike_criteria {path : String} (mirrors : session.Mirrors session')
    (sound : session.Sound) (sound' : session'.Sound) (hp : Path.Valid path) :
    Alike (session.call (Criteria.ofBranch path)) (session'.call (Criteria.ofBranch path)) := by
  have valid := sound.site.consistent.valid
  have valid' := sound'.site.consistent.valid
  have index := mirrors.site.index
  cases last : session.site.directory.index.last? path with
  | some row =>
    obtain ⟨history, -, answer⟩ := Criteria.ofBranch_eq valid sound.site.agrees hp last
    rw [← index] at last
    obtain ⟨history', -, answer'⟩ := Criteria.ofBranch_eq valid' sound'.site.agrees hp last
    rw [call_ok answer, call_ok answer']
    exact alike_ok ⟨Site.mirrors_clocked.looked history history' mirrors.site, mirrors.commits,
      mirrors.memory⟩
  | none =>
    have failed := Criteria.ofBranch_of_absent valid hp last
    rw [← index] at last
    rw [call_error failed, call_error (Criteria.ofBranch_of_absent valid' hp last)]
    exact .inl ⟨rfl, mirrors⟩

theorem alike_step (mirrors : session.Mirrors session') (sound : session.Sound)
    (sound' : session'.Sound) {action : Action} (call : action.OnDirectory)
    (allowed : action.Allowed session) :
    Alike (session.step action) (session'.step action) := by
  have plain {α : Type} (op : Operation α) :
      Alike (session.call op.perform) (session'.call op.perform) :=
    alike_call mirrors sound sound' fun _ _ _ same => same
  have opening (op : Operation Commit) :
      Alike (session.call op.perform addCommit) (session'.call op.perform addCommit) := by
    apply alike_call mirrors sound sound'
    intro commit s s' same
    exact ⟨same.site, congrArg (· ++ [commit]) same.commits, same.memory⟩
  cases action with
  | surroundings host =>
    exact alike_ok ⟨⟨mirrors.site.index, mirrors.site.openCommits, mirrors.site.clock,
      mirrors.site.events, rfl⟩, mirrors.commits, mirrors.memory⟩
  | subscribers events =>
    exact alike_ok ⟨⟨mirrors.site.index, mirrors.site.openCommits, mirrors.site.clock, rfl,
      mirrors.site.wall⟩, mirrors.commits, mirrors.memory⟩
  | create path => exact plain (.create path)
  | lock path => exact plain (.lock path)
  | unlock path => exact plain (.unlock path)
  | forceUnlock path => exact plain (.forceUnlock path)
  | openCommit path kind => exact opening (.openCommit path kind)
  | openPromotion path source => exact opening (.openPromotion path source)
  | complete handle =>
    change Alike (session.withHandle handle _) (session'.withHandle handle _)
    unfold withHandle
    rw [mirrors.commits]
    cases session.commits[handle]? with
    | some commit => exact plain (.complete commit)
    | none => exact .inl ⟨rfl, mirrors⟩
  | purge => exact plain .purge
  | save => exact plain .save
  | latest path => exact plain (.latestWithStanding? path)
  | rowAt path t => exact plain (.rowAt path t)
  | criteria path => exact alike_criteria mirrors sound sound' allowed
  | hide handle ids =>
    change Alike (session.withHandle handle _) (session'.withHandle handle _)
    unfold withHandle
    rw [mirrors.commits]
    cases session.commits[handle]? with
    | some commit =>
      exact alike_ok ⟨mirrors.site, rfl, mirrors.memory⟩
    | none => exact .inl ⟨rfl, mirrors⟩
  | _ => exact call.elim

theorem allowed_of_mirrors (mirrors : session.Mirrors session') {action : Action}
    (call : action.OnDirectory) (allowed : action.Allowed session) : action.Allowed session' := by
  cases action with
  | surroundings host =>
    intro name hf
    simp [mirrors.memory] at hf
  | reopen cacheSize => exact call.elim
  | _ => exact allowed

/--
What is done on a file and in memory alike goes on alike, as long as the file can be written.
-/
theorem mirrors_run (mirrors : session.Mirrors session') (sound : session.Sound)
    (sound' : session'.Sound) {actions : List Action}
    (calls : ∀ action ∈ actions, action.OnDirectory) (permitted : session.Permits actions)
    (written : ∀ answer ∈ session.answers actions, ∀ cause, answer.2 ≠ .error (.io cause)) :
    session.answers actions = session'.answers actions ∧ session'.Permits actions ∧
      (session.run actions).Mirrors (session'.run actions) := by
  induction actions generalizing session session' with
  | nil => exact ⟨rfl, trivial, mirrors⟩
  | cons action actions ih =>
    obtain ⟨allowed, rest⟩ := permitted
    have call := calls action List.mem_cons_self
    have allowed' := allowed_of_mirrors mirrors call allowed
    have first := written (action, (session.step action).1) List.mem_cons_self
    rcases alike_step mirrors sound sound' call allowed with ⟨answer, same⟩ | ⟨cause, failed⟩
    · obtain ⟨others, permitted', after⟩ := ih same (stays_step sound allowed).sound
        (stays_step sound' allowed').sound (fun a mem => calls a (List.mem_cons_of_mem _ mem)) rest
        (fun a mem => written a (List.mem_cons_of_mem _ mem))
      refine ⟨?_, ⟨allowed', permitted'⟩, after⟩
      unfold answers
      rw [answer, others]
    · exact absurd failed (first cause)

end

end Session

end TemporalStore
