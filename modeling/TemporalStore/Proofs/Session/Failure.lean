import TemporalStore.Proofs.Directory.Failure
import TemporalStore.Proofs.Session.Sound

/-!
This module contains what a failed operation leaves behind after any run.
-/

namespace TemporalStore

theorem Site.toOption_read_of_keeps {site site' : Site} {name : String} (stored : site.Stored)
    (hf : site.directory.file = some name) (keeps : site.host.disk.Keeps site'.host.disk name) :
    (site'.host.disk.read name).toOption = (site.host.disk.read name).toOption := by
  have unread {disk : Disk} (absent : disk.contains name = false) :
      (disk.read name).toOption = none := by
    cases read : disk.read name with
    | error e => rfl
    | ok bytes => simp [Disk.contains_of_read read] at absent
  rcases stored name hf with ⟨absent, -⟩ | read
  · rw [unread absent, unread (keeps.contains.trans absent)]
  · rw [read, keeps.read _ read]

namespace Session

/--
Whatever was done in a session that started out empty, an operation that fails changes nothing but
the clock: the rows, the open commits and the contents of the file are the same, and every commit
that could be completed still can. Subscribers hear nothing of it, or that a branch was locked and
unlocked again.
-/
theorem unharmed_of_run {session : Session} {actions : List Action} (new : session.New)
    (permitted : session.Permits actions) {α : Type} (op : Operation α) {e : StoreError}
    {site' : Site} (failed : op.perform (session.run actions).site = .error e site') :
    site'.directory.index = (session.run actions).site.directory.index ∧
    site'.directory.openCommits = (session.run actions).site.directory.openCommits ∧
    (session.run actions).site.directory.clock.last ≤ site'.directory.clock.last ∧
    (∀ name, (session.run actions).site.directory.file = some name →
      (site'.host.disk.read name).toOption =
        ((session.run actions).site.host.disk.read name).toOption) ∧
    (∀ commit row after, Directory.complete commit (session.run actions).site = .ok row after →
      ∃ after', Directory.complete commit site' = .ok row after') ∧
    (site'.directory.events = (session.run actions).site.directory.events ∨
      ∃ path, site'.directory.events =
        ((session.run actions).site.directory.events.broadcast (.locked path)).broadcast
          (.unlocked path false)) := by
  have sound := (sound_run new.sound permitted).site
  obtain ⟨⟨heard, rests, events⟩, completes⟩ := Directory.unharmed_of_error sound failed
  refine ⟨rests.index, rests.openCommits, rests.clock, ?_, completes, ?_⟩
  · intro name hf
    exact Site.toOption_read_of_keeps sound.stored hf (rests.keeps name hf)
  · rcases events with rfl | ⟨path, rfl⟩
    · exact .inl rests.events
    · exact .inr ⟨path, rests.events⟩

/--
The target is locked before the source turns out to be missing.
-/
theorem unharmed_of_missing_source :
    empty.New ∧ empty.Permits [.create "M"] ∧ ∃ e site',
      (Operation.openPromotion "M" "M/A").perform (empty.run [.create "M"]).site =
        .error e site' ∧
      e = .branchNotFound "M/A" ∧
      site'.directory.index = (empty.run [.create "M"]).site.directory.index ∧
      site'.directory.openCommits = (empty.run [.create "M"]).site.directory.openCommits := by
  have valid : Path.Valid "M" := by decide
  have permitted : empty.Permits [.create "M"] := ⟨valid, trivial⟩
  have fails : (match (Operation.openPromotion "M" "M/A").perform
      (empty.run [.create "M"]).site with
    | .error e _ => decide (e = .branchNotFound "M/A")
    | .ok _ _ => false) = true := by
    decide +kernel
  cases result : (Operation.openPromotion "M" "M/A").perform (empty.run [.create "M"]).site with
  | ok commit site' => simp [result] at fails
  | error e site' =>
    rw [result, decide_eq_true_eq] at fails
    obtain ⟨index, openCommits, -⟩ := unharmed_of_run new_empty permitted _ result
    exact ⟨new_empty, permitted, e, site', rfl, fails, index, openCommits⟩

end Session

end TemporalStore
