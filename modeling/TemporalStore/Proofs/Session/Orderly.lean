import TemporalStore.Proofs.Directory.Orderly
import TemporalStore.Proofs.Directory.Reopen
import TemporalStore.Proofs.Session.Sound

/-!
This module contains what holds of a session whatever strings are used for paths in it: rows and
handles have paths that are known by name, the timepoints of handles grow, and pinned commits stay
open.
-/

namespace TemporalStore

/--
What is asked where any string may stand for a path: nobody else touches the file of the directory,
and it is read back where timepoints and lengths are machine words.
-/
def Action.Undisturbed (action : Action) (session : Session) : Prop :=
  match action with
  | .surroundings _ => action.Allowed session
  | .reopen _ => (∀ row ∈ session.site.directory.index.allRows, row.Storable) ∧
    (MessagePack.encode (Record.indexValue session.site.directory.index)).length <
      0x10000000000000000
  | _ => True

/--
What an action that succeeds has to leave alone, where a promotion names its source.
-/
def Action.Spares (action : Action) (session : Session) (named : String → Prop)
    (pinned : String → Timepoint → Prop) : Prop :=
  match action with
  | .forceUnlock path | .openCommit path _ => ∀ t, ¬ pinned path t
  | .openPromotion path source => (∀ t, ¬ pinned path t) ∧ ∀ t, ¬ pinned source t
  | .complete handle => ∀ commit, session.commits[handle]? = some commit →
    (∀ source, commit.source = some source → named source) ∧ ∀ path, ¬ pinned path commit.timepoint
  | .purge | .reopen _ => ∀ path t, ¬ pinned path t
  | _ => True

namespace Session

open Directory

/--
Nothing from outside gets in the way of any action.
-/
def Undisturbed (session : Session) : List Action → Prop
  | [] => True
  | action :: actions => action.Undisturbed session ∧ (session.step action).2.Undisturbed actions

theorem undisturbed_append (session : Session) (actions others : List Action) :
    session.Undisturbed (actions ++ others) ↔
      session.Undisturbed actions ∧ (session.run actions).Undisturbed others := by
  induction actions generalizing session with
  | nil => simp [Undisturbed, run]
  | cons action actions ih =>
    change _ ∧ (session.step action).2.Undisturbed (actions ++ others) ↔ _
    rw [ih, ← and_assoc]
    rfl

/--
What holds of a session whatever paths were used in it.
-/
structure Orderly (session : Session) (named : String → Prop)
    (pinned : String → Timepoint → Prop) : Prop where
  site : session.site.Orderly named pinned session.site.directory.clock.last
  handles : ∀ commit ∈ session.commits, named commit.branchPath
  ordered : (session.commits.map Commit.timepoint).Pairwise (· < ·)
  issued : ∀ t ∈ session.commits.map Commit.timepoint, t ≤ session.site.directory.clock.last

section

variable {session : Session} {named named' : String → Prop}
  {pinned pinned' : String → Timepoint → Prop}

theorem New.orderly (new : session.New) : session.Orderly named fun _ _ => False := by
  obtain ⟨handles, -, file, cacheSize, directory, absent⟩ := new
  refine ⟨⟨?_, ?_, ?_, ?_, Int.le_refl _⟩, ?_, ?_, ?_⟩
  · rw [directory]
    exact RowIndex.filed_empty
  · intro path t entry
    simp [directory, ofIndex] at entry
  · intro path t pin
    exact pin.elim
  · intro name hf
    rw [directory] at hf ⊢
    exact .inl ⟨absent name hf, rfl⟩
  · simp [handles]
  · simp [handles]
  · simp [handles]

theorem Orderly.mono (h : session.Orderly named pinned)
    (weaker : ∀ path, named path → named' path) : session.Orderly named' pinned where
  site := ⟨h.site.filed.mono weaker, h.site.entries, h.site.pins, h.site.stored, h.site.issued⟩
  handles commit mem := weaker _ (h.handles commit mem)
  ordered := h.ordered
  issued := h.issued

/--
Commits can be pinned that are open under a single path.
-/
theorem Orderly.repin (h : session.Orderly named pinned)
    (pins : ∀ path t, pinned' path t →
      ∀ q, session.site.directory.openCommits.get? q = some t ↔ q = path) :
    session.Orderly named pinned' where
  site := ⟨h.site.filed, h.site.entries, pins, h.site.stored, h.site.issued⟩
  handles := h.handles
  ordered := h.ordered
  issued := h.issued

/-! ## Steps -/

theorem Orderly.of_site {session' : Session} (h : session.Orderly named pinned)
    (site : session'.site.Orderly named pinned session.site.directory.clock.last)
    (handles : session'.commits.map Commit.bare = session.commits.map Commit.bare) :
    session'.Orderly named pinned := by
  have times : session'.commits.map Commit.timepoint = session.commits.map Commit.timepoint := by
    have same := congrArg (List.map Commit.timepoint) handles
    rw [List.map_map, List.map_map] at same
    exact same
  have paths : session'.commits.map Commit.branchPath = session.commits.map Commit.branchPath := by
    have same := congrArg (List.map Commit.branchPath) handles
    rw [List.map_map, List.map_map] at same
    exact same
  refine ⟨⟨site.filed, site.entries, site.pins, site.stored, Int.le_refl _⟩, ?_, ?_, ?_⟩
  · intro commit mem
    have there : commit.branchPath ∈ session.commits.map Commit.branchPath := by
      rw [← paths]
      exact List.mem_map_of_mem mem
    obtain ⟨old, mem', same⟩ := List.mem_map.1 there
    rw [← same]
    exact h.handles old mem'
  · rw [times]
    exact h.ordered
  · rw [times]
    intro t mem
    exact Int.le_trans (h.issued t mem) site.issued

theorem orderly_call {α : Type} {act : DirectoryM α} {good : α → Prop}
    (h : session.Orderly named pinned)
    (tidy : Tidy named pinned session.site.directory.clock.last good (act session.site)) :
    (session.call act).2.Orderly named pinned := by
  unfold call
  generalize act session.site = result at tidy ⊢
  cases tidy with
  | ok a site orderly _ => exact h.of_site orderly rfl
  | error e site orderly => exact h.of_site orderly rfl

theorem orderly_opening {act : DirectoryM Commit} (h : session.Orderly named pinned)
    (tidy : Tidy named pinned (nextTimepoint session.site)
      (Given named (nextTimepoint session.site)) (act session.site)) :
    (session.call act addCommit).2.Orderly named pinned := by
  have next := last_lt_ticked session.site
  unfold call
  generalize act session.site = result at tidy ⊢
  have earlier {site : Site} (orderly : site.Orderly named pinned (nextTimepoint session.site)) :
      site.Orderly named pinned session.site.directory.clock.last :=
    ⟨orderly.filed, orderly.entries, orderly.pins, orderly.stored,
      Int.le_trans (Int.le_of_lt next) orderly.issued⟩
  cases tidy with
  | error e site orderly => exact h.of_site (earlier orderly) rfl
  | ok commit site orderly given =>
    have kept : Session.Orderly { session with site } named pinned :=
      h.of_site (earlier orderly) rfl
    refine ⟨kept.site, ?_, ?_, ?_⟩
    · intro other mem
      rcases List.mem_append.1 mem with mem | mem
      · exact h.handles other mem
      · rw [List.mem_singleton.1 mem]
        exact given.named
    · change (List.map Commit.timepoint (session.commits ++ [commit])).Pairwise _
      rw [List.map_append, List.map_singleton, List.pairwise_append]
      refine ⟨h.ordered, List.pairwise_singleton _ _, ?_⟩
      intro t mem u mem'
      rw [List.mem_singleton.1 mem', given.timepoint]
      exact Int.lt_of_le_of_lt (h.issued t mem) next
    · intro t mem
      change t ∈ List.map Commit.timepoint (session.commits ++ [commit]) at mem
      rw [List.map_append, List.map_singleton, List.mem_append, List.mem_singleton] at mem
      rcases mem with mem | rfl
      · exact kept.issued t mem
      · rw [given.timepoint]
        exact orderly.issued

theorem orderly_withHandle {handle : Nat} {act : Commit → Except StoreError Unit × Session}
    (h : session.Orderly named pinned)
    (acts : ∀ commit, session.commits[handle]? = some commit →
      (act commit).2.Orderly named pinned) :
    (session.withHandle handle act).2.Orderly named pinned := by
  unfold withHandle
  cases there : session.commits[handle]? with
  | some commit => exact acts commit there
  | none => exact h

theorem orderly_reopen (h : session.Orderly named pinned) {cacheSize : Nat}
    (undisturbed : (Action.reopen cacheSize).Undisturbed session)
    (loose : (session.reopen cacheSize).1 = .ok () → ∀ path t, ¬ pinned path t) :
    (session.reopen cacheSize).2.Orderly named pinned := by
  unfold reopen at loose ⊢
  cases file : session.site.directory.file with
  | none => exact h
  | some name =>
    rw [file] at loose
    simp only at loose ⊢
    rcases load_cases name cacheSize session.site.host with ⟨index, loaded⟩ | ⟨e, failed⟩
    · have storable : ∀ e ∈ session.site.directory.index.rows.entries, ∀ row ∈ e.2,
          row.Storable := by
        intro e mem row mem'
        apply undisturbed.1
        exact List.mem_flatten.2 ⟨e.2, List.mem_map_of_mem mem, mem'⟩
      obtain ⟨same, -⟩ := eq_ofIndex_of_stored h.site.stored file storable undisturbed.2 loaded
      rw [loaded] at loose ⊢
      rw [same] at loose ⊢
      refine ⟨⟨h.site.filed, ?_, ?_, ?_, Int.le_refl _⟩, ?_, ?_, ?_⟩
      · intro path t entry
        simp [ofIndex] at entry
      · intro path t pin
        exact absurd pin (loose rfl path t)
      · intro name' hf
        rw [← file] at hf
        exact h.site.stored name' hf
      · simp
      · simp
      · simp
    · rw [failed]
      exact h

theorem retire_leaves {edit : Edit} {now : Timepoint} (field : String)
    (values : OrderedSet String) (h : edit.site.Orderly named pinned now) :
    (afterwards (Edit.retire field values edit)).site.Orderly named pinned now ∧
      (afterwards (Edit.retire field values edit)).commit.bare = edit.commit.bare := by
  by_cases none : values = ∅
  · unfold Edit.retire
    rw [if_pos none]
    exact ⟨h, rfl⟩
  · have looked : Tidy named pinned now (fun _ => True)
        (Criteria.ofCommit edit.commit edit.site) := Criteria.yields_build _ _ _ edit.site h
    cases answer : Criteria.ofCommit edit.commit edit.site with
    | ok criteria site =>
      rw [answer] at looked
      rw [Edit.retire_ok none answer]
      cases looked with
      | ok _ _ orderly _ => exact ⟨orderly, rfl⟩
    | error e site =>
      rw [answer] at looked
      rw [Edit.retire_error none answer]
      cases looked with
      | error _ _ orderly => exact ⟨orderly, rfl⟩

theorem retire_eq (session : Session) (handle : Nat) (field : String)
    (values : OrderedSet String) (commit : Commit) :
    (session.retire handle field values commit).2 =
      session.edited handle (afterwards (Edit.retire field values (session.editing commit))) := by
  unfold retire
  cases Edit.retire field values (session.editing commit) with
  | ok counts edit => rfl
  | error e edit => rfl

theorem bare_retire {handle : Nat} {commit : Commit} (h : session.Orderly named pinned)
    (there : session.commits[handle]? = some commit) (field : String)
    (values : OrderedSet String) :
    (session.retire handle field values commit).2.commits.map Commit.bare =
      session.commits.map Commit.bare := by
  have left := @retire_leaves named pinned (session.editing commit) _ field values h.site
  rw [retire_eq]
  exact map_bare_set there left.2

theorem orderly_retire {handle : Nat} {commit : Commit} (h : session.Orderly named pinned)
    (there : session.commits[handle]? = some commit) (field : String)
    (values : OrderedSet String) :
    (session.retire handle field values commit).2.Orderly named pinned := by
  have left := @retire_leaves named pinned (session.editing commit) _ field values h.site
  have bare := bare_retire h there field values
  rw [retire_eq] at bare ⊢
  exact h.of_site left.1 bare

/--
Whatever path is named, a session stays orderly.
-/
theorem orderly_step {action : Action} (h : session.Orderly named pinned)
    (valid : ∀ path, Path.Valid path → named path) (undisturbed : action.Undisturbed session)
    (spares : (session.step action).1 = .ok () → action.Spares session named pinned) :
    (session.step action).2.Orderly named pinned := by
  have looks {α : Type} {x : DirectoryM α}
      (upholds : Upholds (fun site site' => site.Rests site' []) x) :
      (session.call x).2.Orderly named pinned := by
    have yields : Yields named pinned session.site.directory.clock.last x fun _ => True :=
      yields_of_upholds upholds fun _ _ _ _ _ => trivial
    exact orderly_call h (yields _ h.site)
  have succeeds {α : Type} {x : DirectoryM α} {a : α} {site : Site}
      {keep : α → Session → Session} (ok : x session.site = .ok a site) :
      (session.call x keep).1 = .ok () := by
    rw [call_ok ok]
  have lasting := Site.lasting_rests
  cases action with
  | surroundings host =>
    refine h.of_site ⟨h.site.filed, h.site.entries, h.site.pins, ?_, h.site.issued⟩ rfl
    intro name hf
    obtain ⟨contains, read⟩ := undisturbed name hf
    change (host.disk.contains name = false ∧ _) ∨ host.disk.read name = _
    rw [contains]
    exact (h.site.stored name hf).imp id (read _)
  | subscribers events =>
    exact h.of_site ⟨h.site.filed, h.site.entries, h.site.pins, h.site.stored, h.site.issued⟩ rfl
  | create path => exact orderly_call h (yields_create valid path _ h.site)
  | lock path => exact orderly_call h (yields_lock path _ h.site)
  | unlock path => exact orderly_call h (yields_unlock path _ h.site)
  | forceUnlock path =>
    exact orderly_call h (tidy_forceUnlock h.site fun u site' ok => spares (succeeds ok))
  | openCommit path kind =>
    exact orderly_opening h (tidy_openCommit h.site fun commit site' ok => spares (succeeds ok))
  | openPromotion path source =>
    by_cases distinct : path = source
    · rw [distinct]
      change (session.call (openPromotion source source) addCommit).2.Orderly named pinned
      rw [call_error (openPromotion_self source session.site)]
      exact h
    · exact orderly_opening h (tidy_openPromotion h.site distinct
        fun commit site' ok => spares (succeeds ok))
  | complete handle =>
    apply orderly_withHandle h
    intro commit there
    rw [step_complete there] at spares
    cases result : complete commit session.site with
    | error e site =>
      rw [call_error result]
      exact h.of_site (h.site.of_rests (retreats_complete commit result)) rfl
    | ok row site =>
      obtain ⟨known, loose⟩ := spares (succeeds result) commit there
      have isNamed := h.handles commit (List.mem_of_getElem? there)
      exact orderly_call h (tidy_complete h.site isNamed known loose)
  | purge =>
    cases result : purge session.site with
    | error e site =>
      change (session.call purge).2.Orderly named pinned
      rw [call_error result]
      exact h.of_site (h.site.of_rests (retreats_purge result)) rfl
    | ok n site => exact orderly_call h (tidy_purge h.site (spares (succeeds result)))
  | save => exact orderly_call h (tidy_save h.site)
  | reopen cacheSize => exact orderly_reopen h undisturbed spares
  | latest path => exact looks (upholds_latestWithStanding? lasting path)
  | rowAt path t => exact looks (upholds_rowAt lasting path t)
  | criteria path => exact orderly_call h (Criteria.yields_ofBranch path _ h.site)
  | hide handle ids =>
    apply orderly_withHandle h
    intro commit there
    rw [List.modify_eq_set_getElem?, there]
    exact h.of_site h.site (map_bare_set there rfl)
  | retire handle field values =>
    apply orderly_withHandle h
    intro commit there
    exact orderly_retire h there field values
  | write handle docs =>
    apply orderly_withHandle h
    intro commit _
    exact h.of_site ⟨h.site.filed, h.site.entries, h.site.pins, h.site.stored, h.site.issued⟩ rfl
  | endVersions ids t => exact h.of_site h.site rfl

end

end Session

end TemporalStore
