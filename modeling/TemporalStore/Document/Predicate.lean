import TemporalStore.Document.Basic

/-!
This module contains the filters over document versions, what they accept and when two of them
are the same.
-/

namespace TemporalStore

inductive Predicate where
  | all
  | pathEq (path : String)
  | startLe (t : Timepoint)
  | startLt (t : Timepoint)
  | endUnset
  | endGt (t : Timepoint)
  | idNotIn (ids : OrderedSet VersionId)
  | fieldIn (field : String) (values : OrderedSet String)
  | and (clauses : List Predicate)
  | or (clauses : List Predicate)
  | not (clause : Predicate)
  deriving Inhabited

namespace Predicate

mutual

/--
Whether a document passes the filter. A document without end does not end after anything, one
without id is in no set of ids, and one without the field has none of its values.
-/
def accepts (d : Document) : Predicate → Bool
  | all => true
  | pathEq path => d.path = path
  | startLe t => d.start ≤ t
  | startLt t => d.start < t
  | endUnset => d.ended.isNone
  | endGt t => d.ended.any (· > t)
  | idNotIn ids => d.id.all (· ∉ ids)
  | fieldIn field values => (d.fieldValue field).any (· ∈ values)
  | and clauses => acceptsAll d clauses
  | or clauses => acceptsAny d clauses
  | not clause => !accepts d clause

def acceptsAll (d : Document) : List Predicate → Bool
  | [] => true
  | p :: ps => accepts d p && acceptsAll d ps

def acceptsAny (d : Document) : List Predicate → Bool
  | [] => false
  | p :: ps => accepts d p || acceptsAny d ps

end

theorem acceptsAll_eq_all {d : Document} {ps : List Predicate} :
    acceptsAll d ps = ps.all (accepts d) := by
  induction ps with
  | nil => rfl
  | cons p ps ih => simp [acceptsAll, ih]

theorem acceptsAny_eq_any {d : Document} {ps : List Predicate} :
    acceptsAny d ps = ps.any (accepts d) := by
  induction ps with
  | nil => rfl
  | cons p ps ih => simp [acceptsAny, ih]

@[simp] theorem accepts_and {d : Document} {ps : List Predicate} :
    accepts d (and ps) = ps.all (accepts d) := by
  rw [accepts, acceptsAll_eq_all]

@[simp] theorem accepts_or {d : Document} {ps : List Predicate} :
    accepts d (or ps) = ps.any (accepts d) := by
  rw [accepts, acceptsAny_eq_any]

/--
Accepts what has not ended by `t`.
-/
def liveAt (t : Timepoint) : Predicate := or [endUnset, endGt t]

/--
Adds a condition: to the clauses of a conjunction, or in place of the filter that accepts all.
-/
def both : Predicate → Predicate → Predicate
  | all, q => q
  | and clauses, q => and (clauses ++ [q])
  | p, q => and [p, q]

@[simp] theorem accepts_both {d : Document} {p q : Predicate} :
    accepts d (both p q) = (accepts d p && accepts d q) := by
  unfold both
  split
  · simp [accepts]
  · simp
  · simp

@[simp] theorem accepts_liveAt {d : Document} {t : Timepoint} :
    accepts d (liveAt t) = (d.ended.isNone || d.ended.any (· > t)) := by
  simp [liveAt, accepts]

mutual

def same : Predicate → Predicate → Bool
  | all, all => true
  | pathEq p, pathEq q => p = q
  | startLe s, startLe t => s = t
  | startLt s, startLt t => s = t
  | endUnset, endUnset => true
  | endGt s, endGt t => s = t
  | idNotIn s, idNotIn t => s = t
  | fieldIn f s, fieldIn g t => f = g ∧ s = t
  | and ps, and qs => sameList ps qs
  | or ps, or qs => sameList ps qs
  | not p, not q => same p q
  | _, _ => false

def sameList : List Predicate → List Predicate → Bool
  | [], [] => true
  | p :: ps, q :: qs => same p q && sameList ps qs
  | _, _ => false

end

mutual

theorem eq_of_same : (p q : Predicate) → same p q = true → p = q
  | p, q, h => by
    cases p with
    | and ps => cases q <;> simp_all [same]; exact eq_of_sameList _ _ h
    | or ps => cases q <;> simp_all [same]; exact eq_of_sameList _ _ h
    | not p => cases q <;> simp_all [same]; exact eq_of_same _ _ h
    | _ => cases q <;> simp_all [same]

theorem eq_of_sameList : (ps qs : List Predicate) → sameList ps qs = true → ps = qs
  | [], [], _ => rfl
  | [], _ :: _, h => by simp [sameList] at h
  | _ :: _, [], h => by simp [sameList] at h
  | p :: ps, q :: qs, h => by
    simp only [sameList, Bool.and_eq_true] at h
    rw [eq_of_same p q h.1, eq_of_sameList ps qs h.2]

end

mutual

theorem same_self : (p : Predicate) → same p p = true
  | all | endUnset => by simp [same]
  | pathEq _ | startLe _ | startLt _ | endGt _ | idNotIn _ | fieldIn _ _ => by simp [same]
  | and ps | or ps => by rw [same, sameList_self ps]
  | not p => by rw [same, same_self p]

theorem sameList_self : (ps : List Predicate) → sameList ps ps = true
  | [] => by rw [sameList]
  | p :: ps => by rw [sameList, same_self p, sameList_self ps, Bool.and_self]

end

theorem same_iff {p q : Predicate} : same p q = true ↔ p = q :=
  ⟨eq_of_same p q, fun h => h ▸ same_self p⟩

instance : DecidableEq Predicate := fun _ _ => decidable_of_iff _ same_iff

end Predicate

end TemporalStore
