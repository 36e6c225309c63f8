import TemporalStore.Proofs.Directory.Coupling
import TemporalStore.Proofs.Directory.Lasting
import TemporalStore.Proofs.Directory.Sound

/-!
This module contains what an operation that fails leaves behind: the rows, the open commits and the
file as they were.
-/

namespace TemporalStore

/--
Nothing has changed but the clock, and subscribers have been told of the events that were `heard`.
-/
structure Site.Rests (site site' : Site) (heard : List Event) : Prop where
  file : site'.directory.file = site.directory.file
  index : site'.directory.index = site.directory.index
  openCommits : site'.directory.openCommits = site.directory.openCommits
  clock : site.directory.clock.last ≤ site'.directory.clock.last
  events : site'.directory.events = heard.foldl Broadcaster.broadcast site.directory.events
  keeps : ∀ name, site.directory.file = some name →
    site.host.disk.Keeps site'.host.disk name

/--
Whoever fails that way has changed nothing and told nothing.
-/
def Retreats {α : Type} (x : DirectoryM α) : Prop :=
  ∀ ⦃site site' : Site⦄ ⦃e : StoreError⦄, x site = .error e site' → site.Rests site' []

def NeverFails {α : Type} (x : DirectoryM α) : Prop := ∀ site, ∃ a site', x site = .ok a site'

section

variable {site site' site'' : Site} {heard heard' : List Event}

theorem Site.Rests.trans (h : site.Rests site' heard) (h' : site'.Rests site'' heard') :
    site.Rests site'' (heard ++ heard') where
  file := h'.file.trans h.file
  index := h'.index.trans h.index
  openCommits := h'.openCommits.trans h.openCommits
  clock := Int.le_trans h.clock h'.clock
  events := by rw [h'.events, h.events, List.foldl_append]
  keeps := by
    intro name hf
    have first := h.keeps name hf
    have second := h'.keeps name (h.file.trans hf)
    exact ⟨second.contains.trans first.contains, fun bytes read =>
      second.read bytes (first.read bytes read)⟩

theorem Site.rests_of_host_eq (directory : site'.directory =
      { site.directory with clock := site'.directory.clock, history := site'.directory.history })
    (clock : site.directory.clock.last ≤ site'.directory.clock.last)
    (disk : site'.host.disk = site.host.disk) : site.Rests site' [] where
  file := by rw [directory]
  index := by rw [directory]
  openCommits := by rw [directory]
  clock := clock
  events := by
    rw [directory]
    rfl
  keeps := by
    intro name _
    rw [disk]
    exact .refl _ _

theorem Site.lasting_rests : Lasting fun site site' => site.Rests site' [] where
  refl _ := rests_of_host_eq rfl (Int.le_refl _) rfl
  trans h h' := h.trans h'
  ticked site := rests_of_host_eq rfl (Int.le_of_lt (Directory.last_lt_ticked site)) rfl
  reported _ _ := rests_of_host_eq rfl (Int.le_refl _) rfl
  looked _ _ := rests_of_host_eq rfl (Int.le_refl _) rfl

end

section

variable {α β : Type} {x : DirectoryM α} {f : α → DirectoryM β}

theorem Upholds.retreats (h : Upholds (fun site site' => site.Rests site' []) x) : Retreats x :=
  fun _ _ _ failed => h.of_error failed

theorem NeverFails.ne_error (h : NeverFails x) {site site' : Site} {e : StoreError} :
    x site ≠ .error e site' := by
  obtain ⟨a, after, ok⟩ := h site
  rw [ok]
  simp

theorem Retreats.bind (hx : Retreats x) (hf : ∀ a, NeverFails (f a)) : Retreats (x >>= f) := by
  intro site site' e failed
  rcases exists_of_bind_error failed with failed | ⟨a, middle, -, failed⟩
  · exact hx failed
  · exact absurd failed (hf a).ne_error

theorem Retreats.discard (hx : Retreats x) : Retreats (Functor.discard x) := by
  intro site site' e failed
  cases result : x site with
  | ok a middle =>
    rw [discard_ok result] at failed
    cases failed
  | error e' middle =>
    rw [discard_error result] at failed
    cases failed
    exact hx result

theorem retreats_bind (hx : Upholds (fun site site' => site.Rests site' []) x)
    (hf : ∀ a, Retreats (f a)) : Retreats (x >>= f) := by
  intro site site' e failed
  rcases exists_of_bind_error failed with failed | ⟨a, middle, ok, failed⟩
  · exact hx.of_error failed
  · exact (hx.of_ok ok).trans (hf a failed)

theorem neverFails_pure (a : α) : NeverFails (pure a : DirectoryM α) :=
  fun site => ⟨a, site, rfl⟩

theorem NeverFails.bind (hx : NeverFails x) (hf : ∀ a, NeverFails (f a)) :
    NeverFails (x >>= f) := by
  intro site
  obtain ⟨a, middle, ok⟩ := hx site
  obtain ⟨b, after, ok'⟩ := hf a middle
  exact ⟨b, after, by rw [bind_ok ok, ok']⟩

theorem neverFails_forM {l : List α} {g : α → DirectoryM PUnit} (hg : ∀ a, NeverFails (g a)) :
    NeverFails (l.forM g) := by
  induction l with
  | nil => exact neverFails_pure ()
  | cons a l ih =>
    apply (hg a).bind
    intro _
    exact ih

end

namespace Directory

/-! ## Operations with one write -/

theorem rests_of_refused {site : Site} {index : RowIndex} {e : StoreError} {host : Host}
    (h : site.persisted index = .error e host) : site.Rests (site.withHost host) [] where
  file := rfl
  index := rfl
  openCommits := rfl
  clock := Int.le_refl _
  events := rfl
  keeps := (Site.keeps_of_persisted_error h).2

theorem retreats_persist (index : RowIndex) : Retreats (persist index) := by
  intro site site' e failed
  cases kept : site.persisted index with
  | ok a host => simp [persist_ok kept] at failed
  | error e' host =>
    rw [persist_error kept, EStateM.Result.error.injEq] at failed
    rw [← failed.2]
    exact rests_of_refused kept

theorem retreats_writeRows (batch : List BranchRow) : Retreats (writeRows batch) := by
  intro site site' e failed
  cases kept : site.persisted (site.directory.index.apply batch) with
  | ok a host => simp [writeRows_ok kept] at failed
  | error e' host =>
    rw [writeRows_error kept, EStateM.Result.error.injEq] at failed
    rw [← failed.2]
    exact rests_of_refused kept

theorem retreats_storing {α β : Type} {find : DirectoryM α} {batch : α → List BranchRow}
    {tell : α → DirectoryM β} (hf : Upholds (fun site site' => site.Rests site' []) find)
    (ht : ∀ a, NeverFails (tell a)) : Retreats (storing find batch tell) := by
  apply retreats_bind hf
  intro a
  apply Retreats.bind (retreats_writeRows _)
  intro _
  exact ht a

theorem neverFails_announce (event : Event) : NeverFails (announce event) :=
  fun site => ⟨(), _, announce_eq site event⟩

theorem neverFails_report (record : LogRecord) :
    NeverFails (liftM (Host.report record) : DirectoryM Unit) :=
  fun site => ⟨(), _, report_eq site record⟩

theorem retreats_create (path : String) : Retreats (create path) := by
  rw [create_eq]
  apply retreats_storing (upholds_toCreate Site.lasting_rests path)
  intro row
  apply (neverFails_announce _).bind
  intro _
  exact neverFails_pure row

theorem retreats_lock (path : String) : Retreats (lock path) := by
  rw [lock_eq]
  apply retreats_storing (upholds_toLock Site.lasting_rests path)
  intro row
  apply (neverFails_announce _).bind
  intro _
  exact neverFails_pure row

theorem retreats_release (path : String) : Retreats (release path) := by
  rw [release_eq]
  apply retreats_storing (upholds_toRelease Site.lasting_rests path)
  intro row
  exact neverFails_pure _

theorem retreats_releaseAnnounced (path : String) : Retreats (releaseAnnounced path) := by
  intro site site' e failed
  rw [releaseAnnounced_eq] at failed
  cases result : release path site with
  | ok locked middle => simp [result] at failed
  | error e' middle =>
    rw [result, EStateM.Result.error.injEq] at failed
    rw [← failed.2]
    exact retreats_release path result

theorem retreats_unlock (path : String) : Retreats (unlock path) := by
  intro site site' e failed
  cases entry : site.directory.openCommits.get? path with
  | some t =>
    rw [unlock_of_open entry, EStateM.Result.error.injEq] at failed
    rw [← failed.2]
    exact Site.lasting_rests.refl site
  | none =>
    rw [unlock_of_free entry] at failed
    exact retreats_releaseAnnounced path failed

theorem retreats_complete (commit : Commit) : Retreats (complete commit) := by
  rw [complete_eq]
  apply retreats_storing (upholds_toComplete Site.lasting_rests commit)
  intro p site
  exact ⟨p.1, _, rfl⟩

theorem retreats_purge : Retreats purge := by
  intro site site' e failed
  have out := purge_outcome site
  rw [failed] at out
  cases out with
  | refused e host kept => exact rests_of_refused kept

theorem retreats_save : Retreats save := by
  intro site site' e failed
  rw [save_eq] at failed
  exact retreats_persist _ failed

/-! ## Locks that are given back -/

section

variable {site site' site'' : Site} {path : String} {row : BranchRow} {now : Timepoint}

/--
The file holds the rows again that it held before.
-/
theorem keeps_of_rewritten (stored : site.Stored) (there : ∃ row, site.directory.index.last? path =
      some row) {host : Host} (file : site'.directory.file = site.directory.file)
    (kept : site'.persisted site.directory.index = .ok () host) (name : String)
    (hf : site.directory.file = some name) : site.host.disk.Keeps host.disk name := by
  have after := Site.read_of_persisted_ok kept (file.trans hf)
  obtain ⟨row, last⟩ := there
  rcases stored name hf with ⟨-, empty⟩ | before
  · rw [empty] at last
    cases last
  · constructor
    · rw [Disk.contains_of_read before, Disk.contains_of_read after]
    · intro bytes read
      rw [before] at read
      rw [← Except.ok.inj read]
      exact after

/--
If something fails after a branch was locked, without doing anything itself, then giving the branch
back leaves everything as it was before the lock.
-/
theorem giveBack_of_lock {α : Type} (h : site.directory.index.Valid now) (stored : site.Stored)
    (locked : lock path site = .ok row site') (rests : site'.Rests site'' [])
    (home : site'.SameHome site'') (e : StoreError) :
    ∃ after, (giveBack path e : DirectoryM α) site'' = .error e after ∧
      site.Rests after [.locked path, .unlocked path false] := by
  have taken := (upholds_lock Site.sameHome_always path).of_ok locked
  obtain ⟨current, host, last, unlocked, kept, -, rfl⟩ := exists_of_lock_ok h locked
  have index : site''.directory.index = site.directory.index.setLocked path true := rests.index
  have valid : site''.directory.index.Valid now := by
    rw [index]
    exact h.valid_setLocked path true
  have last' : site''.directory.index.last? path = some { current with locked := true } := by
    rw [index]
    exact h.last?_relocked last true
  have undone : site''.directory.index.setLocked path false = site.directory.index := by
    rw [index, ← unlocked]
    exact h.relocked_relocked last true
  have writable : site''.Writable := by
    rw [home.writable_iff, taken.writable_iff]
    exact Site.writable_of_persisted_ok kept
  obtain ⟨host', kept'⟩ := (Site.persisted_ok_iff site'' site.directory.index).2 writable
  have stored' := kept'
  rw [← undone] at kept'
  have released := release_of_last? valid last' kept'
  have announced := releaseAnnounced_eq site'' path
  rw [released] at announced
  refine ⟨_, bind_ok announced, ?_⟩
  constructor
  · exact rests.file
  · exact undone
  · exact rests.openCommits
  · exact rests.clock
  · change Broadcaster.broadcast site''.directory.events _ = _
    rw [rests.events]
    rfl
  · exact keeps_of_rewritten stored ⟨current, last⟩ rests.file stored'

theorem rests_of_tryCatch_giveBack {α : Type} {x : DirectoryM α}
    (h : site.directory.index.Valid now) (stored : site.Stored)
    (locked : lock path site = .ok row site') (hx : Retreats x) (home : Upholds Site.SameHome x)
    {e : StoreError} (failed : tryCatch x (giveBack path) site' = .error e site'') :
    site.Rests site'' [.locked path, .unlocked path false] := by
  cases result : x site' with
  | ok a middle =>
    rw [tryCatch_ok result] at failed
    cases failed
  | error e' middle =>
    obtain ⟨after, gaveBack, rests⟩ := @giveBack_of_lock _ _ middle _ _ _ α h stored locked
      (hx result) (home.of_error result) e'
    rw [tryCatch_error result, gaveBack] at failed
    cases failed
    exact rests

theorem rests_of_openCommit_error {kind : CommitKind} {e : StoreError}
    (h : site.directory.index.Valid now) (stored : site.Stored)
    (failed : openCommit path kind site = .error e site') : ∃ heard, site.Rests site' heard ∧
      (heard = [] ∨ heard = [.locked path, .unlocked path false]) := by
  have ticked : site.Rests site.ticked [] := Site.lasting_rests.ticked site
  unfold openCommit at failed
  rw [bind_ok (tick_eq site)] at failed
  rcases exists_of_bind_error failed with failed | ⟨row, middle, locked, failed⟩
  · exact ⟨_, ticked.trans (retreats_lock path failed), .inl rfl⟩
  · rcases exists_of_bind_error failed with failed | ⟨base, middle', -, failed⟩
    · by_cases other : kind ≠ .rebase ∨ Path.parent? path = none
      · rw [rebased_of_other row _ other] at failed
        cases failed
      · simp only [not_or, not_not, ← ne_eq, Option.ne_none_iff_exists'] at other
        obtain ⟨rfl, parent, above⟩ := other
        rw [rebased_of_parent above] at failed
        have looks {R : Site → Site → Prop} (lasting : Lasting R) : Upholds R
            (do return (← rowAt parent site.ticked.directory.clock.last).head :
              DirectoryM Timepoint) := by
          apply lasting.bind (upholds_rowAt lasting parent _)
          intro parentRow
          exact lasting.pure _
        exact ⟨_, ticked.trans (rests_of_tryCatch_giveBack h stored locked
          (looks Site.lasting_rests).retreats (looks Site.sameHome_always.toLasting) failed),
          .inr rfl⟩
    · cases failed

theorem rests_of_openPromotion_error {source : String} {e : StoreError}
    (h : site.directory.index.Valid now) (stored : site.Stored)
    (failed : openPromotion path source site = .error e site') : ∃ heard, site.Rests site' heard ∧
      (heard = [] ∨ heard = [.locked path, .unlocked path false]) := by
  have ticked : site.Rests site.ticked [] := Site.lasting_rests.ticked site
  unfold openPromotion at failed
  split at failed
  · cases failed
    exact ⟨[], Site.lasting_rests.refl site, .inl rfl⟩
  · simp only at failed
    rw [bind_ok (tick_eq site)] at failed
    rcases exists_of_bind_error failed with failed | ⟨row, middle, locked, failed⟩
    · exact ⟨_, ticked.trans (retreats_lock path failed), .inl rfl⟩
    · rcases exists_of_bind_error failed with failed | ⟨u, middle', -, failed⟩
      · exact ⟨_, ticked.trans (rests_of_tryCatch_giveBack h stored locked
          (retreats_lock source).discard (Lasting.discard
            (upholds_lock Site.sameHome_always source)) failed), .inr rfl⟩
      · cases failed

/--
Unlocking by force fails only before the first branch is unlocked.
-/
theorem release_error_of_forceUnlock_error {commits : List Commit} {e : StoreError}
    (h : site.Sound commits) (failed : forceUnlock path site = .error e site') :
    release path site = .error e site' := by
  have valid := h.consistent.valid
  rcases exists_of_bind_error failed with failed | ⟨wasLocked, middle, released, failed⟩
  · exact failed
  · exfalso
    obtain ⟨row, host, last, kept, -, rfl⟩ := exists_of_release_ok valid released
    -- giving up the commit does not fail, because the file was written just before
    have gaveUp : ∃ others after,
        forceUnlock.abandon path (relocked site path false host) = .ok others after := by
      rcases partners_of_consistent h.consistent path with
        alone | ⟨partner, t, together, hq, other, partnerLast⟩
      · exact ⟨_, _, abandon_alone alone⟩
      · have hp := h.consistent.valid_of_entry (get?_of_partners together).1
        have there : ∃ row, (site.directory.index.setLocked path false).last? partner =
            some row := by
          rw [RowIndex.last?_setLocked _ false hp hq]
          split
          · exact ⟨_, by rw [last]; rfl⟩
          · exact ⟨other, partnerLast⟩
        obtain ⟨row', last'⟩ := there
        have writable : (relocked site path false host).Writable := by
          rw [((upholds_release Site.sameHome_always path).of_ok released).writable_iff]
          exact Site.writable_of_persisted_ok kept
        obtain ⟨host', kept'⟩ := (Site.persisted_ok_iff _
          ((site.directory.index.setLocked path false).setLocked partner false)).2 writable
        have answer := @release_of_last? (abandoned (abandoned (relocked site path false host)
          path) partner) partner row' _ (valid.valid_setLocked path false) last' host' kept'
        have gaveUp := @abandon_together (relocked site path false host) path partner t together
        rw [answer] at gaveUp
        exact ⟨_, _, gaveUp⟩
    obtain ⟨others, after, gaveUp⟩ := gaveUp
    rw [bind_ok gaveUp] at failed
    -- what is left is to tell of the branches that were released
    refine (neverFails_forM ?_).ne_error failed
    intro released
    apply (neverFails_report _).bind
    intro _
    exact neverFails_announce _

end

/-! ## Commits that can be completed -/

def SameCommits (site site' : Site) : Prop :=
  site'.directory.index = site.directory.index ∧
    site'.directory.openCommits = site.directory.openCommits

theorem coupling_sameCommits : Coupling.Committed SameCommits where
  index same := same.1
  reported _ same := same
  looked _ _ same := same
  openCommits same := same.2

/--
Whether a commit can be completed depends on the rows, the open commits, and whether the file can be
written.
-/
theorem complete_ok_of_same {site site' after : Site} {commit : Commit} {row : BranchRow}
    (same : SameCommits site site') (home : site.SameHome site')
    (ok : complete commit site = .ok row after) :
    ∃ after', complete commit site' = .ok row after' := by
  rw [complete_eq] at ok ⊢
  obtain ⟨p, middle, host, found, kept, told⟩ := exists_of_storing_ok ok
  obtain ⟨rfl, -⟩ := EStateM.Result.ok.inj told
  have matched := coupled_toComplete coupling_sameCommits commit site site' same
  rw [found] at matched
  cases found' : toComplete commit site' with
  | error e middle' =>
    rw [found'] at matched
    cases matched
  | ok p' middle' =>
    rw [found'] at matched
    cases matched with
    | ok _ same' =>
      have looks := upholds_toComplete Site.sameHome_always.toLasting commit
      have writable : middle'.Writable := by
        rw [(looks.of_ok found').writable_iff, home.writable_iff,
          ← (looks.of_ok found).writable_iff]
        exact Site.writable_of_persisted_ok kept
      obtain ⟨host', kept'⟩ :=
        (Site.persisted_ok_iff middle' (middle'.directory.index.apply p.2)).2 writable
      exact ⟨_, storing_ok found' kept'⟩

/--
What is true after an operation failed: subscribers have heard at most of a lock that was taken and
given back, everything else but the clock is as it was, and so is the use of every commit.
-/
structure Unharmed (site site' : Site) : Prop where
  heard : ∃ heard, site.Rests site' heard ∧
    (heard = [] ∨ ∃ path, heard = [.locked path, .unlocked path false])
  completes : ∀ commit row after, complete commit site = .ok row after →
    ∃ after', complete commit site' = .ok row after'

theorem Unharmed.of_rests {site site' : Site} {heard : List Event} (h : site.Rests site' heard)
    (home : site.SameHome site')
    (events : heard = [] ∨ ∃ path, heard = [.locked path, .unlocked path false]) :
    Unharmed site site' where
  heard := ⟨heard, h, events⟩
  completes _ _ _ ok := complete_ok_of_same ⟨h.index, h.openCommits⟩ home ok

theorem unharmed_of_error {site site' : Site} {commits : List Commit} {α : Type}
    {op : Operation α} {e : StoreError} (h : site.Sound commits)
    (failed : op.perform site = .error e site') : Unharmed site site' := by
  have home := (upholds_perform Site.sameHome_always op).of_error failed
  have lasting := Site.lasting_rests
  have looks (x : Upholds (fun site site' => site.Rests site' []) op.perform) :
      Unharmed site site' := .of_rests (x.of_error failed) home (.inl rfl)
  have stores (x : Retreats op.perform) : Unharmed site site' :=
    .of_rests (x failed) home (.inl rfl)
  cases op with
  | create path => exact stores (retreats_create path)
  | lock path => exact stores (retreats_lock path)
  | unlock path => exact stores (retreats_unlock path)
  | forceUnlock path =>
    have first := release_error_of_forceUnlock_error h failed
    exact .of_rests (retreats_release path first) home (.inl rfl)
  | openCommit path kind =>
    obtain ⟨heard, rests, events⟩ :=
      rests_of_openCommit_error h.consistent.valid h.stored failed
    exact .of_rests rests home (events.imp id fun same => ⟨path, same⟩)
  | openPromotion path source =>
    obtain ⟨heard, rests, events⟩ :=
      rests_of_openPromotion_error h.consistent.valid h.stored failed
    exact .of_rests rests home (events.imp id fun same => ⟨path, same⟩)
  | complete commit => exact stores (retreats_complete commit)
  | purge => exact stores retreats_purge
  | save => exact stores retreats_save
  | latest? path => exact looks (upholds_latest? lasting path)
  | latestWithStanding? path => exact looks (upholds_latestWithStanding? lasting path)
  | latest path => exact looks (upholds_latest lasting path)
  | hasBranch path => exact looks (upholds_hasBranch lasting path)
  | rowAt path t => exact looks (upholds_rowAt lasting path t)
  | isUnchanged path base head => exact looks (upholds_isUnchanged lasting path base head)
  | branches => exact looks (upholds_get_bind fun _ => lasting.pure _)
  | descendants path => exact looks (upholds_get_bind fun _ => lasting.pure _)
  | rowCount => exact looks (upholds_get_bind fun _ => lasting.pure _)
  | timeline path => exact looks (upholds_get_bind fun _ => lasting.pure _)

end Directory

end TemporalStore
