/-!
This module contains how operations that may fail are taken apart: what comes after a step depends
only on the answer and the state of that step.
-/

namespace TemporalStore

/--
The state that an operation has left behind, whether or not it failed.
-/
def afterwards {ε σ α : Type} : EStateM.Result ε σ α → σ
  | .ok _ s => s
  | .error _ s => s

variable {ε σ α β : Type} {x : EStateM ε σ α} {f : α → EStateM ε σ β} {s s' : σ}

theorem bind_ok {a : α} (h : x s = .ok a s') : (x >>= f) s = f a s' := by
  change EStateM.bind x f s = _
  unfold EStateM.bind
  rw [h]

theorem bind_error {e : ε} (h : x s = .error e s') : (x >>= f) s = .error e s' := by
  change EStateM.bind x f s = _
  unfold EStateM.bind
  rw [h]

/--
What succeeded as a whole has succeeded at every step.
-/
theorem exists_of_bind_ok {b : β} (h : (x >>= f) s = .ok b s') :
    ∃ a middle, x s = .ok a middle ∧ f a middle = .ok b s' := by
  cases result : x s with
  | ok a middle =>
    rw [bind_ok result] at h
    exact ⟨a, middle, rfl, h⟩
  | error e middle => simp [bind_error result] at h

theorem exists_of_bind_error {e : ε} (h : (x >>= f) s = .error e s') :
    x s = .error e s' ∨ ∃ a middle, x s = .ok a middle ∧ f a middle = .error e s' := by
  cases result : x s with
  | ok a middle =>
    rw [bind_ok result] at h
    exact .inr ⟨a, middle, rfl, h⟩
  | error e' middle =>
    rw [bind_error result] at h
    cases h
    exact .inl rfl

theorem get_bind {f : σ → EStateM ε σ β} : ((get : EStateM ε σ σ) >>= f) s = f s s := rfl

theorem discard_ok {a : α} (h : x s = .ok a s') : discard x s = .ok () s' := by
  change EStateM.map _ x s = _
  unfold EStateM.map
  rw [h]

theorem discard_error {e : ε} (h : x s = .error e s') : discard x s = .error e s' := by
  change EStateM.map _ x s = _
  unfold EStateM.map
  rw [h]

theorem tryCatch_ok {a : α} {handler : ε → EStateM ε σ α} (h : x s = .ok a s') :
    (tryCatch x handler : EStateM ε σ α) s = .ok a s' := by
  change EStateM.tryCatch x handler s = _
  unfold EStateM.tryCatch
  rw [h]

theorem tryCatch_error {e : ε} {handler : ε → EStateM ε σ α} (h : x s = .error e s') :
    (tryCatch x handler : EStateM ε σ α) s = handler e s' := by
  change EStateM.tryCatch x handler s = _
  unfold EStateM.tryCatch
  rw [h]
  rfl

end TemporalStore
