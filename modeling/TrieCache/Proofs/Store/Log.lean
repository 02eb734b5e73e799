import Mathlib.Data.List.DropRight
import TrieCache.Proofs.Store.Cutting
import TrieCache.Store.Replay

namespace TrieCache.Store

/-- The last of some operations that is on a key. -/
def lastOn (key : Bytes) (ops : List Op) : Option Op :=
  (ops.filter fun op => op.key = key).getLast?

/-- What can be asked of a batch and of the table behind it. -/
inductive Request
  | add (op : Op)
  | write
  | reset
deriving DecidableEq

namespace Request

def exec (s : Table × Batch) : Request → Table × Batch
  | add op => (s.1, s.2.push op)
  | write => (s.1.write s.2, s.2)
  | reset => (s.1, .empty)

def run (requests : List Request) (s : Table × Batch) : Table × Batch := requests.foldl exec s

/-- Operations are gathered in a batch that is written and emptied. -/
def batched (ops : List Op) : List Request := ops.map add ++ [write, reset]

def op? : Request → Option Op
  | add op => some op
  | write | reset => none

/-- The operations added since the last reset. -/
def sinceReset (requests : List Request) : List Op :=
  (requests.rtakeWhile fun r => r ≠ reset).filterMap op?

end Request

variable {t : Table} {b : Batch} {op : Op} {ops ops' : List Op} {key : Bytes}

section Last

theorem lastOn_append (key : Bytes) (ops ops' : List Op) :
    lastOn key (ops ++ ops') = (lastOn key ops').or (lastOn key ops) := by
  rw [lastOn, List.filter_append, List.getLast?_append, lastOn, lastOn]

theorem lastOn_singleton (key : Bytes) (op : Op) :
    lastOn key [op] = if op.key = key then some op else none := by
  rw [lastOn, List.filter_singleton]
  split <;> simp_all

theorem Table.get_foldl_apply (t : Table) (ops : List Op) (key : Bytes) :
    (ops.foldl Table.apply t)[key]? = (lastOn key ops).elim t[key]? Op.result := by
  induction ops using List.reverseRecOn with
  | nil => rfl
  | append_singleton ops op ih =>
    rw [List.foldl_append, List.foldl_cons, List.foldl_nil, get_apply, ih, lastOn_append,
      lastOn_singleton]
    split <;> simp

theorem Table.write_write_append (t : Table) (b : Batch) (ops : List Op) :
    (t.write b).write (b.append ops) = t.write (b.append ops) := by
  apply Std.ExtTreeMap.ext_getElem?
  intro key
  simp only [write, Batch.ops_append, get_foldl_apply, lastOn_append]
  cases lastOn key ops <;> cases lastOn key b.ops.toList <;> rfl

end Last

section Requests

open Request

variable {requests requests' : List Request} {s : Table × Batch}

theorem Request.run_append (requests requests' : List Request) (s : Table × Batch) :
    run (requests ++ requests') s = run requests' (run requests s) :=
  List.foldl_append

theorem Request.run_adds (ops : List Op) (s : Table × Batch) :
    run (ops.map add) s = (s.1, s.2.append ops) := by
  induction ops generalizing s with
  | nil => rfl
  | cons op ops ih => exact ih (s.1, s.2.push op)

theorem Request.run_batched (ops : List Op) (t : Table) :
    run (batched ops) (t, .empty) = (ops.foldl Table.apply t, .empty) := by
  have hwrite : t.write (Batch.empty.append ops) = ops.foldl Table.apply t := by
    rw [Table.write, Batch.ops_append]
    rfl
  rw [batched, run_append, run_adds, ← hwrite]
  rfl

/-- Nothing but the operations counts, wherever they are cut into batches. -/
theorem Request.run_pieces (pieces : List (List Op)) (t : Table) :
    run (pieces.flatMap batched) (t, .empty) = (pieces.flatten.foldl Table.apply t, .empty) := by
  induction pieces generalizing t with
  | nil => rfl
  | cons ops pieces ih =>
    rw [List.flatMap_cons, run_append, run_batched, ih, List.flatten_cons, List.foldl_append]

theorem Request.sinceReset_concat (requests : List Request) (r : Request) :
    sinceReset (requests ++ [r]) =
      if r = reset then [] else sinceReset requests ++ r.op?.toList := by
  rw [sinceReset, List.rtakeWhile_concat, sinceReset]
  by_cases hr : r = reset
  · simp [hr]
  · cases r <;> simp_all [op?]

/-- A batch is what has been added to it since it was emptied, whatever has been written. -/
theorem Request.batch_run (requests : List Request) (t : Table) :
    (run requests (t, .empty)).2 = Batch.empty.append (sinceReset requests) := by
  induction requests using List.reverseRecOn with
  | nil => rfl
  | append_singleton requests r ih =>
    rw [run_append, sinceReset_concat]
    cases r with
    | add op =>
      rw [if_neg nofun, ← Batch.append_append, ← ih]
      rfl
    | write =>
      rw [if_neg nofun, op?, Option.toList_none, List.append_nil, ← ih]
      rfl
    | reset =>
      rw [if_pos rfl]
      rfl

theorem Batch.size_append_empty (ops : List Op) :
    (Batch.empty.append ops).size = min (ops.map Op.size).sum wordMax := by
  induction ops using List.reverseRecOn with
  | nil => rfl
  | append_singleton ops op ih =>
    have hpush : (Batch.empty.append (ops ++ [op])).size =
        satAdd (Batch.empty.append ops).size op.size := by
      rw [← Batch.append_append]
      rfl
    rw [hpush, ih, satAdd, List.map_append, List.sum_append, List.map_singleton,
      List.sum_singleton]
    omega

end Requests

section Replay

variable {σ ε : Type} {step : σ → Op → Except ε σ} {s s' : σ} {e : ε}

theorem feed_eq_none_iff : feed step s ops = (s', none) ↔ ops.foldlM step s = .ok s' := by
  induction ops generalizing s with
  | nil => simp [feed, pure, Except.pure]
  | cons op ops ih =>
    rw [feed, List.foldlM_cons]
    cases step s op with
    | ok s₁ => exact ih
    | error e => simp [bind, Except.bind]

theorem feed_append (ht : ops.foldlM step s = .ok s') (ops' : List Op) :
    feed step s (ops ++ ops') = feed step s' ops' := by
  induction ops generalizing s with
  | nil =>
    cases ht
    rfl
  | cons op ops ih =>
    rw [List.foldlM_cons] at ht
    rw [List.cons_append, feed]
    cases hs : step s op with
    | ok s₁ =>
      rw [hs] at ht
      exact ih ht
    | error e =>
      rw [hs] at ht
      cases ht

theorem exists_of_feed (hf : feed step s ops = (s', some e)) : ∃ i op, ops[i]? = some op ∧
    (ops.take i).foldlM step s = .ok s' ∧ step s' op = .error e := by
  induction ops generalizing s with
  | nil => cases hf
  | cons op ops ih =>
    rw [feed] at hf
    cases hs : step s op with
    | ok s₁ =>
      rw [hs] at hf
      obtain ⟨i, op', hi, htake, he⟩ := ih hf
      refine ⟨i + 1, op', hi, ?_, he⟩
      rw [List.take_succ_cons, List.foldlM_cons, hs]
      exact htake
    | error e' =>
      rw [hs] at hf
      cases hf
      exact ⟨0, op, rfl, rfl, hs⟩

theorem feed_eq_some_iff : feed step s ops = (s', some e) ↔ ∃ i op, ops[i]? = some op ∧
    (ops.take i).foldlM step s = .ok s' ∧ step s' op = .error e := by
  refine ⟨exists_of_feed, ?_⟩
  rintro ⟨i, op, hi, htake, he⟩
  obtain ⟨hlt, rfl⟩ := List.getElem?_eq_some_iff.1 hi
  rw [← List.take_append_drop i ops, feed_append htake, List.drop_eq_getElem_cons hlt, feed, he]

theorem feed_recorder (n : Nat) (kept ops : List Op) :
    feed Recorder.take ⟨some n, kept.toArray⟩ ops =
      (⟨some (n - ops.length), (kept ++ ops.take n).toArray⟩,
        if n < ops.length then some (.refused "recorder full") else none) := by
  induction ops generalizing n kept with
  | nil => simp [feed]
  | cons op ops ih =>
    cases n with
    | zero => simp [feed, Recorder.take]
    | succ n =>
      have hn := ih n (kept ++ [op])
      simpa [feed, Recorder.take] using hn

theorem Batch.record_some (b : Batch) (n : Nat) :
    b.record (some n) = ((b.ops.toList.take n).toArray,
      if n < b.ops.size then some (.refused "recorder full") else none) := by
  rw [record, feed_recorder n [] b.ops.toList, List.nil_append, Array.length_toList]

end Replay

section Main

open Request (run batched sinceReset)

/-- A batch is a log of its operations. However they are cut into batches, each key holds what the
last operation on it leaves there; writing a batch again changes nothing; a batch is replayed as it
is, and up to the first operation that is refused. -/
theorem batches_log_operations (t : Table) :
    (∀ pieces : List (List Op),
      run (pieces.flatMap batched) (t, .empty) = run (batched pieces.flatten) (t, .empty) ∧
      ∀ key : Bytes, (run (pieces.flatMap batched) (t, .empty)).1[key]? =
        match lastOn key pieces.flatten with
        | none => t[key]?
        | some op => op.result) ∧
    ∀ requests : List Request,
      let (t', b) := run requests (t, .empty)
      (t'.write b).write b = t'.write b ∧
      b.ops.toList = sinceReset requests ∧
      b.size = min ((sinceReset requests).map Op.size).sum wordMax ∧
      b.replayInto .empty = b ∧
      (∀ n, b.record (some n) = ((b.ops.toList.take n).toArray,
        if n < b.ops.size then some (.refused "recorder full") else none)) ∧
      ∀ {σ ε : Type} (step : σ → Op → Except ε σ) (s s' : σ),
        (feed step s b.ops.toList = (s', none) ↔ b.ops.toList.foldlM step s = .ok s') ∧
        ∀ e, feed step s b.ops.toList = (s', some e) ↔ ∃ i op, b.ops[i]? = some op ∧
          (b.ops.toList.take i).foldlM step s = .ok s' ∧ step s' op = .error e := by
  constructor
  · intro pieces
    rw [Request.run_pieces, Request.run_batched]
    refine ⟨rfl, fun key => ?_⟩
    rw [Table.get_foldl_apply]
    cases lastOn key pieces.flatten <;> rfl
  · intro requests
    have hb := Request.batch_run requests t
    generalize run requests (t, .empty) = s at hb ⊢
    obtain ⟨t', b⟩ := s
    subst hb
    have hops : (Batch.empty.append (sinceReset requests)).ops.toList = sinceReset requests :=
      Batch.ops_append ..
    refine ⟨Table.write_write_append t' _ [], hops, Batch.size_append_empty _, ?_,
      Batch.record_some _, ?_⟩
    · rw [Batch.replayInto, hops]
    · intro σ ε step s s'
      refine ⟨feed_eq_none_iff, fun e => ?_⟩
      rw [feed_eq_some_iff]
      simp only [Array.getElem?_toList]

end Main

end TrieCache.Store
