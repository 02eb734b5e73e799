import TrieCache.Database.Basic
import TrieCache.Proofs.Dirty.Descent

namespace TrieCache

open Dirty (Arrangement Descends Reaches)

namespace Dirty

def leaveStamped (d : Dirty) (h : Hash) : Except Empty Dirty := .ok (d.claim h)

variable {d : Dirty} {order order' : Arrangement} {root : Hash} {claimed claimed' : List Hash}

theorem foldlM_leaveStamped (claimed : List Hash) (d : Dirty) :
    claimed.foldlM leaveStamped d = .ok (claimed.foldl claim d) := by
  induction claimed generalizing d with
  | nil => rfl
  | cons h claimed ih =>
    rw [List.foldlM_cons, List.foldl_cons]
    exact ih (d.claim h)

theorem claims_congr (hm : ∀ k, k ∈ claimed' ↔ k ∈ claimed) :
    claimed'.foldl claim d = claimed.foldl claim d := by
  have hrecords : (claimed'.foldl claim d).records = (claimed.foldl claim d).records := by
    apply Std.ExtTreeMap.ext_getElem?
    intro k
    rw [get_claims, get_claims]
    simp only [hm]
  rw [claims_eq claimed', hrecords, ← claims_eq]

theorem arrangedChildren_claims (claimed : List Hash) (h : Hash) :
    (claimed.foldl claim d).arrangedChildren order h = d.arrangedChildren order h := by
  rw [arrangedChildren, arrangedChildren, get_claims, Option.map_map]
  congr 1
  funext r
  rw [Function.comp]
  split <;> rfl

theorem steady_stamp (order : Arrangement) (d : Dirty) :
    Steady (fun d h => d.arrangedChildren order h) leaveStamped d := by
  intro gone s _ _ hs h _
  rw [foldlM_leaveStamped, Except.ok.injEq] at hs
  rw [← hs]
  exact arrangedChildren_claims gone h

/-- In whatever order children are taken, the stamping walk ends with the stamped records. -/
theorem descends_stamp_iff {result : Except Empty Dirty} :
    (∃ outcome, Descends (fun d h => d.arrangedChildren order h) leaveStamped ∅ d [root] outcome ∧
      outcome.map Prod.snd = result) ↔ result = .ok (d.stamp order' root) := by
  have hdom : ∀ k, (d.arrangedChildren order k).isSome → k ∈ d.records.keys :=
    fun _ hs => mem_keys_of_isSome hs
  have hmem : ∀ k, k ∈ postorder (d.arrangedChildren order) d.depthBound root ↔
      k ∈ d.closure order' root := by
    intro k
    rw [mem_postorder_iff hdom d.length_keys_lt, mem_closure_iff, reaches_arrangedChildren_iff]
  rw [descends_iff (steady_stamp order d) hdom d.length_keys_lt, foldlM_leaveStamped,
    claims_congr hmem, stamp, eq_comm]

end Dirty

namespace Database

/-- A stamp ends, and gives the current version to just the cached nodes that are reached from the
root through cached nodes. Nothing else changes, but for a warning in the log if it takes too
long. -/
theorem stamp_claims_what_is_reached (db : Database) (order : Arrangement) (elapsed : Duration)
    (root : Hash) :
    (∀ order' result, (∃ outcome, Descends (fun d h => d.arrangedChildren order' h)
        Dirty.leaveStamped ∅ db.dirty [root] outcome ∧ outcome.map Prod.snd = result) ↔
      result = .ok (db.stamp order elapsed root).dirty) ∧
    ∃ records,
      db.stamp order elapsed root = { db with
        dirty := { db.dirty with records }
        log := if db.config.stampWarning < elapsed then .stampOvertime root :: db.log
          else db.log } ∧
      (∀ k, Reaches db.dirty.cachedChildren root k →
        records[k]? = db.dirty.records[k]?.map fun r => { r with version := db.dirty.version }) ∧
      ∀ k, ¬Reaches db.dirty.cachedChildren root k → records[k]? = db.dirty.records[k]? := by
  have hdirty : (db.stamp order elapsed root).dirty = db.dirty.stamp order root := by
    rw [stamp]
    split <;> rfl
  refine ⟨fun order' result => hdirty ▸ Dirty.descends_stamp_iff,
    (db.dirty.stamp order root).records, ?_, ?_, ?_⟩
  · have hrecords : db.dirty.stamp order root =
        { db.dirty with records := (db.dirty.stamp order root).records } := Dirty.claims_eq _ _
    rw [← hrecords, stamp]
    split <;> rfl
  · intro k hr
    rw [Dirty.get_stamp]
    simp only [(Dirty.mem_closure_iff db.dirty order root k).2 hr, ↓reduceIte]
  · intro k hr
    rw [Dirty.get_stamp]
    simp only [mt (Dirty.mem_closure_iff db.dirty order root k).1 hr, ↓reduceIte]
    exact Option.map_id_fun' ▸ rfl

end Database

end TrieCache
