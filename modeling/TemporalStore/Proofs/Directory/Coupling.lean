import TemporalStore.Proofs.Directory.Operation

/-!
This module contains how two directories are followed through the same operation step by step: as
long as they have the same rows and open commits, they give the same answers.
-/

namespace TemporalStore

/--
A relation between two sites with the same rows that nobody breaks by looking things up on both. What
is kept at hand of the past may differ.
-/
structure Coupling (S : Site → Site → Prop) : Prop where
  index : ∀ {site site'}, S site site' → site'.directory.index = site.directory.index
  reported : ∀ {site site'} (record : LogRecord), S site site' →
    S (site.reported record) (site'.reported record)
  looked : ∀ {site site'} (history history' : HistoryCache), S site site' →
    S (site.withHistory history) (site'.withHistory history')

/--
The same with the same open commits.
-/
structure Coupling.Committed (S : Site → Site → Prop) : Prop extends Coupling S where
  openCommits : ∀ {site site'}, S site site' →
    site'.directory.openCommits = site.directory.openCommits

/--
The same with clocks that go alike.
-/
structure Coupling.Clocked (S : Site → Site → Prop) : Prop extends Coupling.Committed S where
  ticked : ∀ {site site'}, S site site' → S site.ticked site'.ticked ∧
    site'.ticked.directory.clock.last = site.ticked.directory.clock.last

/--
A relation between two sites that nobody breaks by doing the same to both; rows can be stored on
both.
-/
structure Coupling.Always (S : Site → Site → Prop) : Prop extends Coupling.Clocked S where
  announced : ∀ {site site'} (event : Event), S site site' →
    S (site.announced event) (site'.announced event)
  withOpenCommits : ∀ {site site'} (openCommits : OrderedMap String Timepoint), S site site' →
    S (site.withOpenCommits openCommits) (site'.withOpenCommits openCommits)
  withIndex : ∀ {site site'} (index : RowIndex), S site site' →
    S (site.withIndex index) (site'.withIndex index)
  stored : ∀ {site site'} (index : RowIndex), S site site' → ∃ host host',
    site.persisted index = .ok () host ∧ site'.persisted index = .ok () host' ∧
      S (site.withHost host) (site'.withHost host')

/--
The same answer or the same failure, and the relation between what is left behind.
-/
inductive Matched (S : Site → Site → Prop) {α : Type} :
    EStateM.Result StoreError Site α → EStateM.Result StoreError Site α → Prop where
  | ok (a : α) {site site' : Site} (same : S site site') : Matched S (.ok a site) (.ok a site')
  | error (e : StoreError) {site site' : Site} (same : S site site') :
    Matched S (.error e site) (.error e site')

def Coupled (S : Site → Site → Prop) {α : Type} (x : DirectoryM α) : Prop :=
  ∀ site site', S site site' → Matched S (x site) (x site')

section

variable {S : Site → Site → Prop} {α β : Type} {x : DirectoryM α} {f : α → DirectoryM β}

theorem coupled_pure (a : α) : Coupled S (pure a : DirectoryM α) := fun _ _ same => .ok a same

theorem coupled_throw (e : StoreError) : Coupled S (throw e : DirectoryM α) :=
  fun _ _ same => .error e same

theorem Matched.bind {site site' : Site} (hx : Matched S (x site) (x site'))
    (hf : ∀ a middle middle', x site = .ok a middle → x site' = .ok a middle' →
      S middle middle' → Matched S (f a middle) (f a middle')) :
    Matched S ((x >>= f) site) ((x >>= f) site') := by
  cases result : x site with
  | ok a middle =>
    cases result' : x site' with
    | ok a' middle' =>
      rw [result, result'] at hx
      rw [bind_ok result, bind_ok result']
      cases hx with
      | ok _ same => exact hf a middle middle' result result' same
    | error e middle' =>
      rw [result, result'] at hx
      cases hx
  | error e middle =>
    cases result' : x site' with
    | ok a' middle' =>
      rw [result, result'] at hx
      cases hx
    | error e' middle' =>
      rw [result, result'] at hx
      rw [bind_error result, bind_error result']
      cases hx with
      | error _ same => exact .error e same

theorem Matched.mono {T : Site → Site → Prop} {result result' : EStateM.Result StoreError Site α}
    (h : Matched S result result') (weaker : ∀ {site site'}, S site site' → T site site') :
    Matched T result result' := by
  cases h with
  | ok a same => exact .ok a (weaker same)
  | error e same => exact .error e (weaker same)

theorem Coupled.bind (hx : Coupled S x) (hf : ∀ a, Coupled S (f a)) : Coupled S (x >>= f) :=
  fun site site' same => (hx site site' same).bind fun a middle middle' _ _ => hf a middle middle'

theorem coupled_get_bind {f : Site → DirectoryM β} (alike : ∀ site site', S site site' →
    f site' = f site) (hf : ∀ site, Coupled S (f site)) :
    Coupled S ((get : DirectoryM Site) >>= f) := by
  intro site site' same
  rw [get_bind, get_bind, alike site site' same]
  exact hf site site site' same

theorem Matched.tryCatch {handler : StoreError → DirectoryM α} {site site' : Site}
    (hx : Matched S (x site) (x site')) (hh : ∀ e middle middle', x site = .error e middle →
      x site' = .error e middle' → S middle middle' →
      Matched S (handler e middle) (handler e middle')) :
    Matched S (tryCatch x handler site) (tryCatch x handler site') := by
  cases result : x site with
  | ok a middle =>
    cases result' : x site' with
    | ok a' middle' =>
      rw [result, result'] at hx
      rw [tryCatch_ok result, tryCatch_ok result']
      exact hx
    | error e middle' =>
      rw [result, result'] at hx
      cases hx
  | error e middle =>
    cases result' : x site' with
    | ok a' middle' =>
      rw [result, result'] at hx
      cases hx
    | error e' middle' =>
      rw [result, result'] at hx
      rw [tryCatch_error result, tryCatch_error result']
      cases hx with
      | error _ same => exact hh e middle middle' result result' same

theorem coupled_discard (hx : Coupled S x) : Coupled S (discard x) := by
  intro site site' same
  have matched := hx site site' same
  cases result : x site with
  | ok a middle =>
    cases result' : x site' with
    | ok a' middle' =>
      rw [result, result'] at matched
      rw [discard_ok result, discard_ok result']
      cases matched with
      | ok _ same => exact .ok () same
    | error e middle' =>
      rw [result, result'] at matched
      cases matched
  | error e middle =>
    cases result' : x site' with
    | ok a' middle' =>
      rw [result, result'] at matched
      cases matched
    | error e' middle' =>
      rw [result, result'] at matched
      rw [discard_error result, discard_error result']
      cases matched with
      | error _ same => exact .error e same

theorem coupled_mapM {l : List α} {g : α → DirectoryM β} (hg : ∀ a, Coupled S (g a)) :
    Coupled S (l.mapM g) := by
  induction l with
  | nil =>
    rw [List.mapM_nil]
    exact coupled_pure []
  | cons a l ih =>
    rw [List.mapM_cons]
    apply (hg a).bind
    intro b
    apply ih.bind
    intro bs
    exact coupled_pure (b :: bs)

theorem coupled_forM {l : List α} {g : α → DirectoryM PUnit} (hg : ∀ a, Coupled S (g a)) :
    Coupled S (l.forM g) := by
  induction l with
  | nil => exact coupled_pure ()
  | cons a l ih =>
    apply (hg a).bind
    intro _
    exact ih

end

namespace Directory

variable {S : Site → Site → Prop}

/-! ## Looking things up -/

section

variable (h : Coupling S)

include h

theorem coupled_report (record : LogRecord) :
    Coupled S (liftM (Host.report record) : DirectoryM Unit) :=
  fun _ _ same => .ok () (h.reported record same)

theorem coupled_checked {α : Type} (answer : Except StoreError α) :
    Coupled S (checked answer) := by
  unfold checked
  cases answer with
  | ok a => exact coupled_pure a
  | error e =>
    cases e with
    | dataIntegrity violation =>
      apply (coupled_report h _).bind
      intro _
      exact coupled_throw _
    | _ => exact coupled_throw _

theorem coupled_current (path : String) : Coupled S (current path) := by
  apply coupled_get_bind
  · intro site site' same
    rw [h.index same]
  · intro site
    exact coupled_checked h _

theorem coupled_latestWithParentHead? (path : String) :
    Coupled S (latestWithParentHead? path) := by
  apply (coupled_current h path).bind
  intro row
  cases row with
  | none => exact coupled_pure none
  | some row =>
    cases above : Path.parent? path with
    | none => exact coupled_pure _
    | some parent =>
      apply (coupled_current h parent).bind
      intro parentRow
      cases parentRow with
      | none => exact coupled_checked h _
      | some parentRow => exact coupled_pure _

theorem coupled_latest? (path : String) : Coupled S (latest? path) := by
  apply (coupled_latestWithParentHead? h path).bind
  intro found
  exact coupled_pure _

theorem coupled_latestWithStanding? (path : String) :
    Coupled S (latestWithStanding? path) := by
  apply (coupled_latestWithParentHead? h path).bind
  intro found
  exact coupled_pure _

theorem coupled_latest (path : String) : Coupled S (latest path) := by
  apply (coupled_latest? h path).bind
  intro row
  cases row with
  | none => exact coupled_throw _
  | some row => exact coupled_pure row

theorem coupled_hasBranch (path : String) : Coupled S (hasBranch path) := by
  apply (coupled_current h path).bind
  intro row
  exact coupled_pure _

theorem coupled_isUnchanged (path : String) (base head : Timepoint) :
    Coupled S (isUnchanged path base head) := by
  apply (coupled_latest h path).bind
  intro row
  exact coupled_pure _

theorem coupled_rows {α : Type} (f : RowIndex → α) :
    Coupled S (do return f (← get).directory.index : DirectoryM α) := by
  apply coupled_get_bind
  · intro site site' same
    rw [h.index same]
  · intro site
    exact coupled_pure _

theorem coupled_inheritedBase (path : String) (t : Timepoint) :
    Coupled S (create.inheritedBase path t) := by
  unfold create.inheritedBase
  cases Path.parent? path with
  | none => exact coupled_pure t
  | some parent =>
    apply (coupled_current h parent).bind
    intro row
    cases row with
    | none => exact coupled_throw _
    | some row => exact coupled_pure row.head

theorem coupled_heldRow (commit : Commit) : Coupled S (heldRow commit) := by
  apply (coupled_current h _).bind
  intro row
  cases row with
  | none => exact coupled_throw _
  | some row =>
    by_cases held : row.locked ∧ row.start = commit.branch.start
    · simp only [held]
      exact coupled_pure row
    · simp only [held]
      exact coupled_throw _

theorem coupled_toLock (path : String) : Coupled S (toLock path) := by
  apply (coupled_latest h path).bind
  intro row
  split
  · exact coupled_throw _
  · exact coupled_pure _

theorem coupled_toRelease (path : String) : Coupled S (toRelease path) := by
  apply (coupled_current h path).bind
  intro row
  cases row with
  | none => exact coupled_throw _
  | some row => exact coupled_pure row

/--
What is kept at hand of the past makes no difference.
-/
theorem matched_rowAt {site site' : Site} {now : Timepoint} (same : S site site')
    (valid : site.directory.index.Valid now)
    (agrees : site.directory.history.Agrees site.directory.index)
    (agrees' : site'.directory.history.Agrees site'.directory.index) (path : String)
    (t : Timepoint) : Matched S (rowAt path t site) (rowAt path t site') := by
  have index := h.index same
  have valid' := valid
  rw [← index] at valid'
  obtain ⟨history, -, answer⟩ := rowAt_eq valid agrees path t
  obtain ⟨history', -, answer'⟩ := rowAt_eq valid' agrees' path t
  rw [answer, answer', index]
  cases site.directory.index.covering? path t with
  | some row => exact .ok row (h.looked history history' same)
  | none => exact .error _ (h.looked history history' same)

end

section

variable (h : Coupling.Committed S)

include h

theorem coupled_heldSource (commit : Commit) (source : String) :
    Coupled S (heldSource commit source) := by
  apply (coupled_current h.toCoupling source).bind
  intro row
  cases row with
  | none => exact coupled_throw _
  | some row =>
    apply coupled_get_bind
    · intro site site' same
      rw [h.openCommits same]
    · intro site
      by_cases held : row.locked ∧
          site.directory.openCommits.get? source = some commit.timepoint
      · simp only [held]
        exact coupled_pure row
      · simp only [held]
        exact coupled_throw _

theorem coupled_toComplete (commit : Commit) : Coupled S (toComplete commit) := by
  apply coupled_get_bind
  · intro site site' same
    rw [h.openCommits same]
  · intro site
    split
    · split
      · exact coupled_throw _
      · apply (coupled_heldRow h.toCoupling commit).bind
        intro row
        split
        · exact coupled_pure _
        · rename_i source _
          apply (coupled_heldSource h commit source).bind
          intro sourceRow
          exact coupled_pure _
    · exact coupled_throw _

end

section

variable (h : Coupling.Clocked S)

include h

theorem coupled_tick : Coupled S tick := by
  intro site site' same
  obtain ⟨ticked, time⟩ := h.ticked same
  rw [tick_eq, tick_eq, time]
  exact .ok _ ticked

theorem coupled_toCreate (path : String) : Coupled S (toCreate path) := by
  apply (coupled_checked h.toCoupling _).bind
  intro _
  apply (coupled_tick h).bind
  intro t
  apply (coupled_current h.toCoupling path).bind
  intro found
  cases found with
  | some row => exact coupled_throw _
  | none =>
    apply (coupled_inheritedBase h.toCoupling path t).bind
    intro base
    exact coupled_pure _

end

/-! ## Storing rows -/

section

variable (h : Coupling.Always S)

include h

theorem coupled_announce (event : Event) : Coupled S (announce event) :=
  fun _ _ same => .ok () (h.announced event same)

theorem coupled_setOpenCommits (openCommits : OrderedMap String Timepoint) :
    Coupled S (setOpenCommits openCommits) :=
  fun _ _ same => .ok () (h.withOpenCommits openCommits same)

theorem coupled_persist (index : RowIndex) : Coupled S (persist index) := by
  intro site site' same
  obtain ⟨host, host', kept, kept', same'⟩ := h.stored index same
  rw [persist_ok kept, persist_ok kept']
  exact .ok () same'

theorem coupled_writeRows (batch : List BranchRow) : Coupled S (writeRows batch) := by
  apply coupled_get_bind
  · intro site site' same
    rw [h.index same]
  · intro site
    apply (coupled_persist h _).bind
    intro _ middle middle' same
    exact .ok () (h.withIndex _ same)

theorem coupled_storing {α β : Type} {find : DirectoryM α} {batch : α → List BranchRow}
    {tell : α → DirectoryM β} (hf : Coupled S find) (ht : ∀ a, Coupled S (tell a)) :
    Coupled S (storing find batch tell) := by
  apply hf.bind
  intro a
  apply (coupled_writeRows h _).bind
  intro _
  exact ht a

theorem coupled_create (path : String) : Coupled S (create path) := by
  rw [create_eq]
  apply coupled_storing h (coupled_toCreate h.toClocked path)
  intro row
  apply (coupled_announce h _).bind
  intro _
  exact coupled_pure row

theorem coupled_lock (path : String) : Coupled S (lock path) := by
  rw [lock_eq]
  apply coupled_storing h (coupled_toLock h.toCoupling path)
  intro row
  apply (coupled_announce h _).bind
  intro _
  exact coupled_pure row

theorem coupled_release (path : String) : Coupled S (release path) := by
  rw [release_eq]
  apply coupled_storing h (coupled_toRelease h.toCoupling path)
  intro row
  exact coupled_pure _

theorem coupled_releaseAnnounced (path : String) : Coupled S (releaseAnnounced path) := by
  apply (coupled_discard (coupled_release h path)).bind
  intro _
  exact coupled_announce h _

theorem coupled_unlock (path : String) : Coupled S (unlock path) := by
  apply coupled_get_bind
  · intro site site' same
    rw [h.openCommits same]
  · intro site
    split
    · exact coupled_throw _
    · exact coupled_releaseAnnounced h path

theorem coupled_abandon (path : String) : Coupled S (forceUnlock.abandon path) := by
  apply coupled_get_bind
  · intro site site' same
    rw [h.openCommits same]
  · intro site
    simp only
    split
    · exact coupled_pure []
    · apply (coupled_setOpenCommits h _).bind
      intro _
      apply coupled_mapM
      intro partner
      apply coupled_get_bind
      · intro site site' same
        rw [h.openCommits same]
      · intro site'
        apply (coupled_setOpenCommits h _).bind
        intro _
        apply (coupled_release h partner.1).bind
        intro wasLocked
        exact coupled_pure _

theorem coupled_forceUnlock (path : String) : Coupled S (forceUnlock path) := by
  apply (coupled_release h path).bind
  intro wasLocked
  apply (coupled_abandon h path).bind
  intro others
  apply coupled_forM
  intro released
  apply (coupled_report h.toCoupling _).bind
  intro _
  exact coupled_announce h _

theorem coupled_giveBack {α : Type} (path : String) (e : StoreError) :
    Coupled S (giveBack path e : DirectoryM α) := by
  apply (coupled_releaseAnnounced h path).bind
  intro _
  exact coupled_throw e

theorem coupled_openPromotion (path source : String) : Coupled S (openPromotion path source) := by
  unfold openPromotion
  split
  · exact coupled_throw _
  · apply (coupled_tick h.toClocked).bind
    intro t
    apply (coupled_lock h path).bind
    intro row
    have both : Coupled S (tryCatch (discard (lock source)) (giveBack path)) := by
      intro site site' same
      apply (coupled_discard (coupled_lock h source) site site' same).tryCatch
      intro e middle middle' _ _ same'
      exact coupled_giveBack h path e middle middle' same'
    apply both.bind
    intro _
    apply coupled_get_bind
    · intro site site' same
      rw [h.openCommits same]
    · intro site
      apply (coupled_setOpenCommits h _).bind
      intro _
      exact coupled_pure _

theorem coupled_complete (commit : Commit) : Coupled S (complete commit) := by
  rw [complete_eq]
  apply coupled_storing h (coupled_toComplete h.toCommitted commit)
  intro p
  apply coupled_get_bind
  · intro site site' same
    rw [h.openCommits same]
  · intro site
    apply (coupled_setOpenCommits h _).bind
    intro _
    apply (coupled_announce h _).bind
    intro _
    exact coupled_pure p.1

theorem coupled_purge : Coupled S purge := by
  apply coupled_get_bind
  · intro site site' same
    have counts : site'.directory.rowCount = site.directory.rowCount := by
      unfold rowCount
      rw [h.index same]
    rw [counts]
  · intro site
    apply (coupled_persist h _).bind
    intro _
    have emptied : Coupled S (modify purged) := by
      intro middle middle' same
      exact .ok () (h.looked _ _ (h.withOpenCommits ∅ (h.withIndex {} same)))
    apply emptied.bind
    intro _
    apply (coupled_report h.toCoupling _).bind
    intro _
    apply (coupled_announce h _).bind
    intro _
    exact coupled_pure _

theorem coupled_save : Coupled S save := by
  apply coupled_get_bind
  · intro site site' same
    rw [h.index same]
  · intro site
    exact coupled_persist h _

end

end Directory

end TemporalStore
