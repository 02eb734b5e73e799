import TrieCache.Proofs.Except
import TrieCache.Proofs.Store.Writer
import TrieCache.Store.Key

namespace TrieCache.Store

def Op.OnNode (op : Op) : Prop := ∃ h, op.key = nodeKey h

/-- A batch that counts the bytes of its operations and, if there is a node among them, had at most
its ideal size before the last one. -/
structure Batch.Cut (b : Batch) : Prop where
  counted : b = Batch.empty.append b.ops.toList
  bounded : (∃ op ∈ b.ops.toList, op.OnNode) →
    ∃ last, b.ops.back? = some last ∧ b.size ≤ idealBatchSize + last.size

/-- Just these batches have been written, one after the other, and none has been refused. -/
structure Disk.Takes (batches : List Batch) (d d' : Disk) : Prop where
  attempts : d'.attempts = d.attempts ++ batches.map fun b => ⟨b, true⟩
  table : d'.table = batches.foldl Table.write d.table

variable {b : Batch} {op : Op} {ops ops' : List Op} {batches batches' : List Batch}

namespace Batch

theorem append_append (b : Batch) (ops ops' : List Op) :
    (b.append ops).append ops' = b.append (ops ++ ops') :=
  List.foldl_append.symm

theorem Cut.of_append (hn : ∀ op ∈ ops, ¬ op.OnNode) : (Batch.empty.append ops).Cut where
  counted := by
    rw [ops_append]
    rfl
  bounded := by
    rintro ⟨op, ho, hnode⟩
    rw [ops_append, List.mem_append] at ho
    exact absurd hnode (hn op (ho.resolve_left List.not_mem_nil))

theorem Cut.push (hb : b = Batch.empty.append b.ops.toList) (hs : b.size ≤ idealBatchSize)
    (op : Op) : (b.push op).Cut where
  counted := by
    have hops : (b.push op).ops.toList = b.ops.toList ++ [op] := Array.toList_push
    rw [hops, ← append_append, ← hb]
    rfl
  bounded _ := by
    have hsize : satAdd b.size op.size ≤ b.size + op.size := Nat.min_le_left _ _
    refine ⟨op, Array.back?_push, ?_⟩
    change satAdd b.size op.size ≤ _
    omega

theorem Cut.within (hb : b = Batch.empty.append b.ops.toList) (hs : b.size ≤ idealBatchSize) :
    b.Cut where
  counted := hb
  bounded := by
    rintro ⟨op, ho, _⟩
    have hlast := List.getLast?_eq_some_getLast (List.ne_nil_of_mem ho)
    rw [Array.getLast?_toList] at hlast
    exact ⟨_, hlast, by omega⟩

end Batch

namespace Disk.Takes

variable {d d' d'' : Disk}

theorem refl (d : Disk) : Takes [] d d := ⟨(List.append_nil _).symm, rfl⟩

theorem length_attempts (h : Takes batches d d') :
    d'.attempts.length = d.attempts.length + batches.length := by
  rw [h.attempts, List.length_append, List.length_map]

theorem append (h₁ : Takes batches d d') (h₂ : Takes batches' d' d'') :
    Takes (batches ++ batches') d d'' where
  attempts := by rw [h₂.attempts, h₁.attempts, List.map_append, List.append_assoc]
  table := by rw [h₂.table, h₁.table, List.foldl_append]

end Disk.Takes

namespace Writer

/-- The operations `ops` have gone into `batches`, behind what was in the batch under way before,
and into the batch that is under way now. -/
structure Cuts (ops : List Op) (batches : List Batch) (w w' : Writer) : Prop where
  takes : w.disk.Takes batches w'.disk
  ops : w.batch.ops.toList ++ ops = batches.flatMap (·.ops.toList) ++ w'.batch.ops.toList
  cut : ∀ b ∈ batches, b.Cut

/-- The batch under way has room for a node. -/
structure Open (w : Writer) : Prop where
  counted : w.batch = Batch.empty.append w.batch.ops.toList
  within : w.batch.size ≤ idealBatchSize

variable {w w' w'' : Writer} {due : Nat → Bool}

theorem Open.of_empty (hb : w.batch = .empty) : w.Open := by
  constructor <;> rw [hb]
  · rfl
  · exact Nat.zero_le _

namespace Cuts

theorem refl (w : Writer) : Cuts [] [] w w :=
  ⟨.refl w.disk, List.append_nil _, List.forall_mem_nil _⟩

theorem append (h₁ : Cuts ops batches w w') (h₂ : Cuts ops' batches' w' w'') :
    Cuts (ops ++ ops') (batches ++ batches') w w'' where
  takes := h₁.takes.append h₂.takes
  ops := by
    rw [← List.append_assoc, h₁.ops, List.append_assoc, h₂.ops, List.flatMap_append,
      List.append_assoc]
  cut b hb := (List.mem_append.1 hb).elim (h₁.cut b) (h₂.cut b)

theorem add (ha : w.add op = .ok w') : Cuts [op] [] w w' ∧ w'.batch = w.batch.push op := by
  rw [Writer.add] at ha
  split at ha
  · cases ha
  · cases ha
    have htakes : w.disk.Takes [] w.disk := .refl w.disk
    exact ⟨⟨⟨htakes.attempts, htakes.table⟩, Array.toList_push.symm, List.forall_mem_nil _⟩, rfl⟩

theorem flush (hb : w.batch.Cut) (hf : w.flush = .ok w') :
    Cuts [] [w.batch] w w' ∧ w'.batch = .empty := by
  rw [Writer.flush] at hf
  split at hf
  · cases hf
  · cases hf
    refine ⟨⟨⟨rfl, rfl⟩, ?_, fun b hb' => List.mem_singleton.1 hb' ▸ hb⟩, rfl⟩
    simp [Batch.empty]

theorem flushIf (hdue : ∀ size, due size = false → size ≤ idealBatchSize) (hb : w.batch.Cut)
    (hf : w.flushIf due = .ok w') : ∃ batches, Cuts [] batches w w' ∧ w'.Open := by
  rw [Writer.flushIf] at hf
  split at hf
  · obtain ⟨hc, he⟩ := flush hb hf
    exact ⟨_, hc, .of_empty he⟩
  · next hd =>
    cases hf
    exact ⟨[], refl w, hb.counted, hdue _ (Bool.eq_false_iff.2 hd)⟩

theorem addAll (ha : Writer.addAll ops w = .ok w') :
    Cuts ops [] w w' ∧ w'.batch = w.batch.append ops := by
  induction ops generalizing w with
  | nil =>
    cases ha
    exact ⟨refl _, rfl⟩
  | cons op ops ih =>
    obtain ⟨w₁, hadd, ha⟩ := bind_eq_ok ha
    obtain ⟨h₁, hb₁⟩ := add hadd
    obtain ⟨h₂, hb₂⟩ := ih ha
    exact ⟨h₁.append h₂, hb₂.trans (congrArg (·.append ops) hb₁)⟩

theorem pour (hdue : ∀ size, due size = false → size ≤ idealBatchSize) (ho : w.Open)
    (hp : Writer.pour due ops w = .ok w') : ∃ batches, Cuts ops batches w w' ∧ w'.Open := by
  induction ops generalizing w with
  | nil =>
    cases hp
    exact ⟨[], refl _, ho⟩
  | cons op ops ih =>
    obtain ⟨w₂, hstep, hp⟩ := bind_eq_ok hp
    obtain ⟨w₁, hadd, hflush⟩ := bind_eq_ok hstep
    obtain ⟨h₁, hb₁⟩ := add hadd
    obtain ⟨batches₂, h₂, ho₂⟩ := flushIf hdue (hb₁ ▸ .push ho.counted ho.within op) hflush
    obtain ⟨batches₃, h₃, ho₃⟩ := ih ho₂ hp
    exact ⟨_, (h₁.append h₂).append h₃, ho₃⟩

theorem pour_flush (hdue : ∀ size, due size = false → size ≤ idealBatchSize) (ho : w.Open)
    (hp : (Writer.pour due ops w >>= Writer.flush) = .ok w') :
    ∃ batches, Cuts ops batches w w' ∧ w'.batch = .empty := by
  obtain ⟨w₁, hp, hf⟩ := bind_eq_ok hp
  obtain ⟨batches, h₁, ho₁⟩ := pour hdue ho hp
  obtain ⟨h₂, he⟩ := flush (.within ho₁.counted ho₁.within) hf
  have hc := h₁.append h₂
  rw [List.append_nil] at hc
  exact ⟨_, hc, he⟩

theorem complete (hc : Cuts ops batches w w') (hb : w.batch = .empty) (hb' : w'.batch = .empty) :
    w.disk.Takes batches w'.disk ∧ batches.flatMap (·.ops.toList) = ops ∧ ∀ b ∈ batches, b.Cut := by
  have hops := hc.ops
  rw [hb, hb'] at hops
  exact ⟨hc.takes, (hops.trans (List.append_nil _)).symm, hc.cut⟩

end Cuts

end Writer

end TrieCache.Store
