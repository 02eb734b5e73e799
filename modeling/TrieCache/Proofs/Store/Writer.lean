import TrieCache.Proofs.Map
import TrieCache.Store.Disk

namespace TrieCache.Store

def Op.result : Op → Option Bytes
  | put _ value => some value
  | delete _ => none

namespace Table

variable {t : Table} {key value : Bytes} {ops : List Op}

theorem get_apply (t : Table) (op : Op) (key : Bytes) :
    (t.apply op)[key]? = if op.key = key then op.result else t[key]? := by
  cases op with
  | put k v => exact Map.get_insert ..
  | delete k => exact Map.get_erase ..

theorem get_apply_put (t : Table) (key value k : Bytes) :
    (t.apply (.put key value))[k]? = if key = k then some value else t[k]? :=
  t.get_apply ..

theorem get_puts (hp : ∀ op ∈ ops, ∃ k v, op = .put k v)
    (hg : (ops.foldl apply t)[key]? = some value) :
    t[key]? = some value ∨ .put key value ∈ ops := by
  induction ops generalizing t with
  | nil => exact .inl hg
  | cons op ops ih =>
    obtain ⟨k, v, rfl⟩ := hp op List.mem_cons_self
    rcases ih (fun o ho => hp o (List.mem_cons_of_mem _ ho)) hg with hg | hm
    · rw [get_apply_put] at hg
      split at hg
      · next hk =>
        cases hg
        subst hk
        exact .inr List.mem_cons_self
      · exact .inl hg
    · exact .inr (List.mem_cons_of_mem _ hm)

theorem contains_puts (hp : ∀ op ∈ ops, ∃ k v, op = .put k v) :
    (ops.foldl apply t).contains key ↔ t.contains key ∨ ∃ value, .put key value ∈ ops := by
  induction ops generalizing t with
  | nil => simp
  | cons op ops ih =>
    obtain ⟨k, v, rfl⟩ := hp op List.mem_cons_self
    rw [List.foldl_cons, ih fun o ho => hp o (List.mem_cons_of_mem _ ho), apply,
      Map.contains_insert]
    constructor
    · rintro ((rfl | ht) | ⟨value, hm⟩)
      · exact .inr ⟨v, List.mem_cons_self⟩
      · exact .inl ht
      · exact .inr ⟨value, List.mem_cons_of_mem _ hm⟩
    · rintro (ht | ⟨value, hm⟩)
      · exact .inl (.inr ht)
      · rcases List.mem_cons.1 hm with he | hm
        · cases he
          exact .inl (.inl rfl)
        · exact .inr ⟨value, hm⟩

theorem get_puts_of_not_mem (hp : ∀ op ∈ ops, ∃ k v, op = .put k v)
    (hn : ∀ v, .put key v ∉ ops) : (ops.foldl apply t)[key]? = t[key]? := by
  induction ops generalizing t with
  | nil => rfl
  | cons op ops ih =>
    obtain ⟨k, v, rfl⟩ := hp op List.mem_cons_self
    have hk : k ≠ key := fun he => hn v (he ▸ List.mem_cons_self)
    rw [List.foldl_cons, ih (fun o ho => hp o (List.mem_cons_of_mem _ ho))
      fun v hm => hn v (List.mem_cons_of_mem _ hm), get_apply_put, if_neg hk]

theorem get_puts_of_mem (hp : ∀ op ∈ ops, ∃ k v, op = .put k v) (hm : .put key value ∈ ops)
    (hv : ∀ v, .put key v ∈ ops → v = value) : (ops.foldl apply t)[key]? = some value := by
  induction ops generalizing t with
  | nil => cases hm
  | cons op ops ih =>
    have hp' : ∀ op ∈ ops, ∃ k v, op = .put k v := fun o ho => hp o (List.mem_cons_of_mem _ ho)
    by_cases hlater : ∃ v, .put key v ∈ ops
    · obtain ⟨v, hm'⟩ := hlater
      have he := hv v (List.mem_cons_of_mem _ hm')
      exact ih hp' (he ▸ hm') fun v hm => hv v (List.mem_cons_of_mem _ hm)
    · rw [not_exists] at hlater
      have he : op = .put key value := ((List.mem_cons.1 hm).resolve_right (hlater value)).symm
      rw [List.foldl_cons, get_puts_of_not_mem hp' hlater, he, get_apply_put, if_pos rfl]

/-- Puts that agree on every key can come in any order and any number. -/
theorem puts_congr {ops' : List Op} (hp : ∀ op ∈ ops, ∃ k v, op = .put k v)
    (hm : ∀ op, op ∈ ops' ↔ op ∈ ops)
    (hv : ∀ key v v', .put key v ∈ ops → .put key v' ∈ ops → v' = v) :
    ops'.foldl apply t = ops.foldl apply t := by
  have hp' : ∀ op ∈ ops', ∃ k v, op = .put k v := fun op ho => hp op ((hm op).1 ho)
  apply Std.ExtTreeMap.ext_getElem?
  intro key
  by_cases hk : ∃ v, .put key v ∈ ops
  · obtain ⟨v, hk⟩ := hk
    have hv' : ∀ v', .put key v' ∈ ops' → v' = v := fun v' hk' => hv key v v' hk ((hm _).1 hk')
    rw [get_puts_of_mem hp hk fun v' => hv key v v' hk, get_puts_of_mem hp' ((hm _).2 hk) hv']
  · rw [not_exists] at hk
    rw [get_puts_of_not_mem hp hk, get_puts_of_not_mem hp' fun v => mt (hm _).1 (hk v)]

theorem get_of_keys_ne (hk : ∀ op ∈ ops, op.key ≠ key) :
    (ops.foldl apply t)[key]? = t[key]? := by
  induction ops generalizing t with
  | nil => rfl
  | cons op ops ih =>
    rw [List.foldl_cons, ih fun o ho => hk o (List.mem_cons_of_mem _ ho), get_apply,
      if_neg (hk op List.mem_cons_self)]

theorem contains_deletes (keys : List Bytes) :
    ((keys.map Op.delete).foldl apply t).contains key ↔ t.contains key ∧ key ∉ keys := by
  induction keys generalizing t with
  | nil => simp
  | cons k keys ih =>
    rw [List.map_cons, List.foldl_cons, ih, apply, Map.contains_erase, List.mem_cons, not_or,
      ne_comm, and_assoc, and_left_comm]

theorem get_deletes (hd : ∀ op ∈ ops, ∃ k, op = .delete k)
    (hg : (ops.foldl apply t)[key]? = some value) : t[key]? = some value := by
  induction ops generalizing t with
  | nil => exact hg
  | cons op ops ih =>
    obtain ⟨k, rfl⟩ := hd op List.mem_cons_self
    have hg := ih (fun o ho => hd o (List.mem_cons_of_mem _ ho)) hg
    rw [apply, Std.ExtTreeMap.getElem?_erase] at hg
    split at hg
    · cases hg
    · exact hg

end Table

/-- All operations of some batches, in order. -/
def handed (made : List Attempt) : List Op := made.flatMap fun a => a.batch.ops.toList

/-- The operations of those batches that have been written. -/
def written (made : List Attempt) : List Op := handed (made.filter (·.succeeded))

theorem handed_append (made made' : List Attempt) :
    handed (made ++ made') = handed made ++ handed made' :=
  List.flatMap_append

theorem written_append (made made' : List Attempt) :
    written (made ++ made') = written made ++ written made' := by
  rw [written, List.filter_append, handed_append, written, written]

/-- What a disk has been handed from one state to another: `done` has been written and `refused`,
which came last, has not. -/
def Disk.Logs (d d' : Disk) (done refused : List Op) : Prop :=
  ∃ made, d'.attempts = d.attempts ++ made ∧ written made = done ∧ handed made = done ++ refused

namespace Disk.Logs

variable {d d' d'' : Disk} {done done' refused : List Op}

theorem refl (d : Disk) : Logs d d [] [] := ⟨[], (List.append_nil _).symm, rfl, rfl⟩

theorem append (h₁ : Logs d d' done []) (h₂ : Logs d' d'' done' refused) :
    Logs d d'' (done ++ done') refused := by
  obtain ⟨made, he, hw, hh⟩ := h₁
  obtain ⟨made', he', hw', hh'⟩ := h₂
  refine ⟨made ++ made', ?_, ?_, ?_⟩
  · rw [he', he, List.append_assoc]
  · rw [written_append, hw, hw']
  · rw [handed_append, hh, hh', List.append_nil, List.append_assoc]

end Disk.Logs

/-- A disk that can write as much as it is asked to. -/
structure Disk.Healthy (d : Disk) : Prop where
  writes : d.writesLeft = none
  puts : d.putsLeft = none

namespace Writer

/-- The operations `done` have been written, after which `refused` have not. -/
structure Wrote (done refused : List Op) (w w' : Writer) : Prop where
  table : w'.disk.table = done.foldl Table.apply w.disk.table
  settled : w'.settled = w.settled + done.length
  readsFail : w'.disk.readsFail = w.disk.readsFail
  logs : w.disk.Logs w'.disk done refused

/-- Of what was in the batch and of `ops`, all but `pending` is written; `refused` is the part of it
that was handed to the disk in vain. -/
def Writes (ops : List Op) (w w' : Writer) (refused pending : List Op) : Prop :=
  refused <+: pending ∧
    ∃ done, w.batch.ops.toList ++ ops = done ++ pending ∧ Wrote done refused w w'

/-- What has become of `ops`: what is in the batch afterwards is not written yet. -/
def Outcome (ops : List Op) (w : Writer) : Except Halt Writer → Prop
  | .ok w' => Writes ops w w' [] w'.batch.ops.toList
  | .error halt => ∃ refused pending, Writes ops w halt.writer refused pending

variable {w w' : Writer} {ops ops₁ ops₂ refused pending : List Op} {due : Nat → Bool}

theorem Wrote.refl (w : Writer) : Wrote [] [] w w := ⟨rfl, rfl, rfl, .refl w.disk⟩

theorem Writes.refl (w : Writer) : Writes [] w w [] w.batch.ops.toList :=
  ⟨List.nil_prefix, [], List.append_nil _, .refl w⟩

theorem Writes.append {w₁ : Writer} (h₁ : Writes ops₁ w w₁ [] w₁.batch.ops.toList)
    (h₂ : Writes ops₂ w₁ w' refused pending) : Writes (ops₁ ++ ops₂) w w' refused pending := by
  obtain ⟨_, done₁, he₁, h₁⟩ := h₁
  obtain ⟨hp, done₂, he₂, h₂⟩ := h₂
  refine ⟨hp, done₁ ++ done₂, ?_, ?_, ?_, h₂.readsFail.trans h₁.readsFail, h₁.logs.append h₂.logs⟩
  · rw [← List.append_assoc, he₁, List.append_assoc, he₂, List.append_assoc]
  · rw [h₂.table, h₁.table, List.foldl_append]
  · rw [h₂.settled, h₁.settled, List.length_append, Nat.add_assoc]

theorem Writes.extend (h : Writes ops₁ w w' refused pending) (ops₂ : List Op) :
    Writes (ops₁ ++ ops₂) w w' refused (pending ++ ops₂) := by
  obtain ⟨hp, done, he, h⟩ := h
  refine ⟨hp.trans (List.prefix_append _ _), done, ?_, h⟩
  rw [← List.append_assoc, he, List.append_assoc]

namespace Outcome

theorem bind {r : Except Halt Writer} {f : Writer → Except Halt Writer} (h₁ : Outcome ops₁ w r)
    (h₂ : ∀ w', Outcome ops₂ w' (f w')) : Outcome (ops₁ ++ ops₂) w (r >>= f) := by
  cases r with
  | error halt =>
    obtain ⟨refused, pending, h₁⟩ := h₁
    exact ⟨refused, pending ++ ops₂, h₁.extend ops₂⟩
  | ok w₁ =>
    have h₂ := h₂ w₁
    change Outcome (ops₁ ++ ops₂) w (f w₁)
    cases hr : f w₁ with
    | error halt =>
      rw [hr] at h₂
      obtain ⟨refused, pending, h₂⟩ := h₂
      exact ⟨refused, pending, Writes.append h₁ h₂⟩
    | ok w₂ =>
      rw [hr] at h₂
      exact Writes.append h₁ h₂

theorem add (w : Writer) (op : Op) : Outcome [op] w (w.add op) := by
  rw [Writer.add]
  split
  · exact ⟨_, _, (Writes.refl w).extend [op]⟩
  · exact ⟨List.nil_prefix, [], by simp [Batch.push], rfl, rfl, rfl, .refl w.disk⟩

theorem flush (w : Writer) : Outcome [] w w.flush := by
  rw [Writer.flush]
  split
  · have hlogs : w.disk.Logs { w.disk with attempts := w.disk.attempts ++ [⟨w.batch, false⟩] } []
        w.batch.ops.toList := ⟨[⟨w.batch, false⟩], rfl, rfl, List.append_nil _⟩
    exact ⟨_, _, List.prefix_refl _, [], List.append_nil _, rfl, rfl, rfl, hlogs⟩
  · refine ⟨List.nil_prefix, w.batch.ops.toList, by simp [Batch.empty], rfl, by simp, rfl, ?_⟩
    exact ⟨[⟨w.batch, true⟩], rfl, List.append_nil _, rfl⟩

theorem flushIf (due : Nat → Bool) (w : Writer) : Outcome [] w (w.flushIf due) := by
  rw [Writer.flushIf]
  split
  · exact flush w
  · exact Writes.refl w

theorem addAll (ops : List Op) (w : Writer) : Outcome ops w (addAll ops w) := by
  induction ops generalizing w with
  | nil => exact Writes.refl w
  | cons op ops ih => exact (add w op).bind ih

theorem pour (due : Nat → Bool) (ops : List Op) (w : Writer) : Outcome ops w (pour due ops w) := by
  induction ops generalizing w with
  | nil => exact Writes.refl w
  | cons op ops ih => exact ((add w op).bind (flushIf due)).bind ih

end Outcome

variable {r : Except Halt Writer} {halt : Halt}

theorem batch_of_flush (hf : w.flush = .ok w') : w'.batch = .empty := by
  rw [flush] at hf
  split at hf
  · cases hf
  · cases hf
    rfl

theorem wrote_of_ok (ho : Outcome ops w r) (hr : (r >>= flush) = .ok w') :
    Wrote (w.batch.ops.toList ++ ops) [] w w' ∧ w'.batch = .empty := by
  have hb : w'.batch = .empty := by
    cases r with
    | error halt => cases hr
    | ok w₁ => exact batch_of_flush hr
  have h := ho.bind Outcome.flush
  rw [hr] at h
  obtain ⟨_, done, he, h⟩ := h
  rw [hb] at he
  have he' : w.batch.ops.toList ++ ops = done := by simpa [Batch.empty] using he
  exact ⟨he' ▸ h, hb⟩

theorem wrote_of_error (ho : Outcome ops w r) (hr : (r >>= flush) = .error halt) :
    ∃ done refused, done ++ refused <+: w.batch.ops.toList ++ ops ∧
      Wrote done refused w halt.writer := by
  have h := ho.bind Outcome.flush
  rw [hr] at h
  obtain ⟨refused, pending, hp, done, he, h⟩ := h
  rw [List.append_nil] at he
  exact ⟨done, refused, he ▸ (List.prefix_append_right_inj done).2 hp, h⟩

/-- The writer has not been stopped, and will not be. -/
def GoesOn (r : Except Halt Writer) : Prop := ∃ w, r = .ok w ∧ w.disk.Healthy

namespace GoesOn

theorem bind {f : Writer → Except Halt Writer} (hr : GoesOn r)
    (hf : ∀ w, w.disk.Healthy → GoesOn (f w)) : GoesOn (r >>= f) := by
  obtain ⟨w, rfl, hw⟩ := hr
  exact hf w hw

theorem add (hw : w.disk.Healthy) (op : Op) : GoesOn (w.add op) := by
  have hputs : w.disk.putsLeft ≠ some 0 := by
    rw [hw.puts]
    exact nofun
  rw [Writer.add, if_neg hputs]
  refine ⟨_, rfl, hw.writes, ?_⟩
  dsimp only
  rw [hw.puts]
  rfl

theorem flush (hw : w.disk.Healthy) : GoesOn w.flush := by
  have hwrites : w.disk.writesLeft ≠ some 0 := by
    rw [hw.writes]
    exact nofun
  rw [Writer.flush]
  dsimp only
  rw [if_neg hwrites]
  refine ⟨_, rfl, ?_, hw.puts⟩
  dsimp only
  rw [hw.writes]
  rfl

theorem flushIf (due : Nat → Bool) (hw : w.disk.Healthy) : GoesOn (w.flushIf due) := by
  rw [Writer.flushIf]
  split
  · exact flush hw
  · exact ⟨w, rfl, hw⟩

theorem addAll (ops : List Op) (hw : w.disk.Healthy) : GoesOn (Writer.addAll ops w) := by
  induction ops generalizing w with
  | nil => exact ⟨w, rfl, hw⟩
  | cons op ops ih => exact (add hw op).bind fun _ => ih

theorem pour (due : Nat → Bool) (ops : List Op) (hw : w.disk.Healthy) :
    GoesOn (Writer.pour due ops w) := by
  induction ops generalizing w with
  | nil => exact ⟨w, rfl, hw⟩
  | cons op ops ih => exact ((add hw op).bind fun _ => flushIf due).bind fun _ => ih

end GoesOn

/-- If the writer has been stopped, the disk takes no more operations or no more batches. -/
def Excused (r : Except Halt Writer) : Prop :=
  ∀ halt, r = .error halt →
    halt.writer.disk.putsLeft = some 0 ∨ halt.writer.disk.writesLeft = some 0

namespace Excused

theorem ok (w : Writer) : Excused (.ok w) := nofun

theorem bind {f : Writer → Except Halt Writer} (hr : Excused r) (hf : ∀ w, Excused (f w)) :
    Excused (r >>= f) := by
  cases r with
  | error halt =>
    intro halt' he
    cases he
    exact hr halt rfl
  | ok w => exact hf w

theorem add (w : Writer) (op : Op) : Excused (w.add op) := by
  intro halt he
  rw [Writer.add] at he
  split at he
  · next hputs =>
    cases he
    exact .inl hputs
  · cases he

theorem flush (w : Writer) : Excused w.flush := by
  intro halt he
  rw [Writer.flush] at he
  split at he
  · next hwrites =>
    cases he
    exact .inr hwrites
  · cases he

theorem flushIf (due : Nat → Bool) (w : Writer) : Excused (w.flushIf due) := by
  rw [Writer.flushIf]
  split
  · exact flush w
  · exact ok w

theorem addAll (ops : List Op) (w : Writer) : Excused (Writer.addAll ops w) := by
  induction ops generalizing w with
  | nil => exact ok w
  | cons op ops ih => exact (add w op).bind ih

theorem pour (due : Nat → Bool) (ops : List Op) (w : Writer) : Excused (Writer.pour due ops w) := by
  induction ops generalizing w with
  | nil => exact ok w
  | cons op ops ih => exact ((add w op).bind (flushIf due)).bind ih

end Excused

/-- Two results that differ only in what has been counted. -/
inductive Alike : Except Halt Writer → Except Halt Writer → Prop
  | ok (w : Writer) (counters : Counters) : Alike (.ok w) (.ok { w with counters })
  | error (halt : Halt) (counters : Counters) :
    Alike (.error halt) (.error { halt with writer := { halt.writer with counters } })

namespace Alike

variable {r' : Except Halt Writer}

theorem bind {f : Writer → Except Halt Writer} (hr : Alike r r')
    (hf : ∀ w counters, Alike (f w) (f { w with counters })) : Alike (r >>= f) (r' >>= f) := by
  cases hr with
  | ok w counters => exact hf w counters
  | error halt counters => exact .error halt counters

/-- What is done next is related if it is for a writer, and for one that has counted otherwise. -/
theorem fold {α : Type} {R : α → α → Prop} {ok ok' : Writer → α} {error error' : Halt → α}
    (hok : ∀ w counters, R (ok w) (ok' { w with counters }))
    (herror : ∀ halt counters,
      R (error halt) (error' { halt with writer := { halt.writer with counters } })) :
    Alike r r' →
      R (match r with
        | .error halt => error halt
        | .ok w => ok w)
        (match r' with
        | .error halt => error' halt
        | .ok w => ok' w) := by
  intro hr
  cases hr with
  | ok w counters => exact hok w counters
  | error halt counters => exact herror halt counters

theorem add (w : Writer) (counters : Counters) (op : Op) :
    Alike (w.add op) ({ w with counters }.add op) := by
  rw [Writer.add, Writer.add]
  split
  · exact .error _ counters
  · exact .ok _ counters

theorem flush (w : Writer) (counters : Counters) : Alike w.flush { w with counters }.flush := by
  rw [Writer.flush, Writer.flush]
  dsimp only
  split
  · exact .error _ counters
  · exact .ok _ (counters.batchWritten w.batch)

theorem flushIf (due : Nat → Bool) (w : Writer) (counters : Counters) :
    Alike (w.flushIf due) ({ w with counters }.flushIf due) := by
  rw [Writer.flushIf, Writer.flushIf]
  split
  · exact flush w counters
  · exact .ok w counters

theorem addAll (ops : List Op) (w : Writer) (counters : Counters) :
    Alike (Writer.addAll ops w) (Writer.addAll ops { w with counters }) := by
  induction ops generalizing w counters with
  | nil => exact .ok w counters
  | cons op ops ih => exact (add w counters op).bind ih

theorem pour (due : Nat → Bool) (ops : List Op) (w : Writer) (counters : Counters) :
    Alike (Writer.pour due ops w) (Writer.pour due ops { w with counters }) := by
  induction ops generalizing w counters with
  | nil => exact .ok w counters
  | cons op ops ih => exact ((add w counters op).bind (flushIf due)).bind ih

end Alike

end Writer

end TrieCache.Store
