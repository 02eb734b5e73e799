import Mathlib.Data.Finset.Card
import Mathlib.Data.Finset.Image
import TrieCache.Database.Basic
import TrieCache.Proofs.Dirty.WellFormed

namespace TrieCache

/-- An edge that an owner asks for. -/
@[ext]
structure Edge where
  child : Hash
  parent : Hash
deriving DecidableEq

/-- A count after `n` more, which stops at its limit; one that nothing is added to stays. -/
def grow (limit count n : Nat) : Nat := if n = 0 then count else min (count + n) limit

theorem grow_grow (limit count n m : Nat) :
    grow limit (grow limit count n) m = grow limit count (n + m) := by
  simp only [grow]
  grind

theorem satAdd_eq_grow {count n : Nat} (hn : n ≠ 0) : satAdd count n = grow wordMax count n := by
  rw [grow, if_neg hn, satAdd]

def Edge.countAfter (e : Edge) (count : Option Nat) (n : Nat) : Option Nat :=
  if n = 0 then count
  else if e.parent = Hash.zero then some (min (count.getD 0 + n) Dirty.maxEdgeCount)
  else some (count.getD 1)

theorem Edge.countAfter_countAfter (e : Edge) (count : Option Nat) (n m : Nat) :
    e.countAfter (e.countAfter count n) m = e.countAfter count (n + m) := by
  simp only [countAfter]
  grind

theorem Edge.countAfter_eq_none_iff {e : Edge} {count : Option Nat} {n : Nat} :
    e.countAfter count n = none ↔ n = 0 ∧ count = none := by
  simp only [countAfter]
  grind

namespace Dirty

def referenceAll (d : Dirty) (edges : List Edge) : Dirty :=
  edges.foldl (fun d e => d.reference e.child e.parent) d

/-- The edges that are heeded: their ends are cached, and the meta-root is no child. -/
def heeded (d : Dirty) (edges : List Edge) : List Edge :=
  edges.filter fun e => d.tracks e.child && d.records.contains e.parent

def edgesOf (d : Dirty) (parent : Hash) : Option (HashMap Nat) :=
  d.records[parent]?.bind Record.edges

def edgeCount? (d : Dirty) (e : Edge) : Option Nat :=
  (d.edgesOf e.parent).bind fun edges => edges[e.child]?

def newEdges (d : Dirty) (edges : List Edge) : Finset Edge :=
  (d.heeded edges).toFinset.filter fun e => d.edgeCount? e = none

def newMaps (d : Dirty) (edges : List Edge) : Finset Hash :=
  ((d.heeded edges).toFinset.image Edge.parent).filter fun k => d.edgesOf k = none

/-- How many parents a node gets: one with each new edge under a node, and one each time an edge
under the meta-root is asked for. -/
def newParents (d : Dirty) (edges : List Edge) (k : Hash) : Nat :=
  ((d.newEdges edges).filter fun e => e.child = k ∧ e.parent ≠ Hash.zero).card +
    (d.heeded edges).count ⟨k, Hash.zero⟩

/-- What has come of edges that were asked for: a record keeps everything but its edges, which the
maps and the counts tell, and its parents. -/
structure Referenced (d : Dirty) (edges : List Edge) (d' : Dirty) : Prop where
  frame : d' = { d with records := d'.records, childrenSize := d'.childrenSize }
  records : ∀ k : Hash, d'.records[k]? = d.records[k]?.map fun r =>
    { r with edges := d'.edgesOf k, parents := grow maxParents r.parents (d.newParents edges k) }
  maps : ∀ k, (d'.edgesOf k).isSome ↔ (d.edgesOf k).isSome ∨ k ∈ d.newMaps edges
  counts : ∀ e, d'.edgeCount? e = e.countAfter (d.edgeCount? e) ((d.heeded edges).count e)
  childrenSize : d'.childrenSize = grow wordMax d.childrenSize
    (edgeMapCost * (d.newMaps edges).card + edgeCost * (d.newEdges edges).card)

variable {d d' d₁ d₂ : Dirty} {edges edges' : List Edge} {e : Edge} {k : Hash}

theorem heeded_append (d : Dirty) (edges edges' : List Edge) :
    d.heeded (edges ++ edges') = d.heeded edges ++ d.heeded edges' :=
  List.filter_append ..

theorem mem_newEdges : e ∈ d.newEdges edges ↔ e ∈ d.heeded edges ∧ d.edgeCount? e = none := by
  rw [newEdges, Finset.mem_filter, List.mem_toFinset]

theorem mem_newMaps : k ∈ d.newMaps edges ↔
    (∃ e ∈ d.heeded edges, e.parent = k) ∧ d.edgesOf k = none := by
  simp only [newMaps, Finset.mem_filter, Finset.mem_image, List.mem_toFinset]

namespace Referenced

theorem perm (hp : edges.Perm edges') (h : d.Referenced edges d') : d.Referenced edges' d' := by
  have hheeded : (d.heeded edges).Perm (d.heeded edges') := hp.filter _
  have hset : (d.heeded edges).toFinset = (d.heeded edges').toFinset :=
    List.toFinset_eq_of_perm _ _ hheeded
  have hedges : d.newEdges edges = d.newEdges edges' := by rw [newEdges, hset, newEdges]
  have hmaps : d.newMaps edges = d.newMaps edges' := by rw [newMaps, hset, newMaps]
  have hparents : ∀ k, d.newParents edges k = d.newParents edges' k := by
    intro k
    rw [newParents, hedges, hheeded.count_eq, newParents]
  constructor
  · exact h.frame
  · intro k
    rw [h.records, hparents]
  · intro k
    rw [h.maps, hmaps]
  · intro e
    rw [h.counts, hheeded.count_eq]
  · rw [h.childrenSize, hmaps, hedges]

/-- Nothing is left open of what comes of the edges. -/
theorem unique (h₁ : d.Referenced edges d₁) (h₂ : d.Referenced edges d₂) : d₁ = d₂ := by
  have hmaps : ∀ k, d₁.edgesOf k = d₂.edgesOf k := by
    intro k
    have hsome : (d₁.edgesOf k).isSome ↔ (d₂.edgesOf k).isSome := (h₁.maps k).trans (h₂.maps k).symm
    have hcounts : ∀ c, d₁.edgeCount? ⟨c, k⟩ = d₂.edgeCount? ⟨c, k⟩ := by
      intro c
      rw [h₁.counts, h₂.counts]
    cases hm₁ : d₁.edgesOf k with
    | none =>
      rw [hm₁] at hsome
      exact (Option.not_isSome_iff_eq_none.1 (mt hsome.2 Bool.false_ne_true)).symm
    | some m₁ =>
      rw [hm₁] at hsome
      obtain ⟨m₂, hm₂⟩ := Option.isSome_iff_exists.1 (hsome.1 rfl)
      have hm : m₁ = m₂ := by
        apply Std.ExtTreeMap.ext_getElem?
        intro c
        have hc := hcounts c
        rwa [edgeCount?, edgeCount?, hm₁, hm₂] at hc
      rw [hm₂, hm]
  have hrecords : d₁.records = d₂.records := by
    apply Std.ExtTreeMap.ext_getElem?
    intro k
    rw [h₁.records, h₂.records, hmaps]
  rw [h₁.frame, h₂.frame, hrecords, h₁.childrenSize, h₂.childrenSize]

theorem self (hk : ∀ e ∈ d.heeded edges, d.edgeCount? e ≠ none ∧ e.parent ≠ Hash.zero) :
    d.Referenced edges d := by
  have hedges : d.newEdges edges = ∅ := by
    rw [Finset.eq_empty_iff_forall_notMem]
    intro e he
    obtain ⟨hh, hn⟩ := mem_newEdges.1 he
    exact (hk e hh).1 hn
  have hmaps : d.newMaps edges = ∅ := by
    rw [Finset.eq_empty_iff_forall_notMem]
    intro k hm
    obtain ⟨⟨e, he, rfl⟩, hn⟩ := mem_newMaps.1 hm
    apply (hk e he).1
    rw [edgeCount?, hn, Option.bind_none]
  have hparents : ∀ k, d.newParents edges k = 0 := by
    intro k
    have hroot : (⟨k, Hash.zero⟩ : Edge) ∉ d.heeded edges := fun he => (hk _ he).2 rfl
    rw [newParents, hedges, Finset.filter_empty, Finset.card_empty, List.count_eq_zero.2 hroot]
  constructor
  · rfl
  · intro k
    rw [hparents, edgesOf]
    cases d.records[k]? <;> rfl
  · intro k
    rw [hmaps]
    simp
  · intro e
    rw [Edge.countAfter]
    split
    · rfl
    · next hn =>
      obtain ⟨hc, hz⟩ := hk e (List.count_pos_iff.1 (Nat.pos_of_ne_zero hn))
      obtain ⟨count, hcount⟩ := Option.ne_none_iff_exists'.1 hc
      rw [if_neg hz, hcount, Option.getD_some]
  · rw [hmaps, hedges]
    rfl

section Trans

variable (h : d.Referenced edges d')
include h

theorem contains_eq (k : Hash) : d'.records.contains k = d.records.contains k := by
  rw [Std.ExtTreeMap.contains_eq_isSome_getElem?, h.records, Option.isSome_map,
    Std.ExtTreeMap.contains_eq_isSome_getElem?]

theorem heeded_eq (edges' : List Edge) : d'.heeded edges' = d.heeded edges' := by
  simp only [heeded, tracks, h.contains_eq]

theorem edgeCount?_eq_none_iff :
    d'.edgeCount? e = none ↔ e ∉ d.heeded edges ∧ d.edgeCount? e = none := by
  rw [h.counts, Edge.countAfter_eq_none_iff, List.count_eq_zero]

theorem edgesOf_eq_none_iff :
    d'.edgesOf k = none ↔ k ∉ d.newMaps edges ∧ d.edgesOf k = none := by
  rw [← Option.not_isSome_iff_eq_none, h.maps, ← Option.not_isSome_iff_eq_none]
  tauto

theorem newEdges_append : d.newEdges (edges ++ edges') = d.newEdges edges ∪ d'.newEdges edges' := by
  ext e
  rw [Finset.mem_union, mem_newEdges, mem_newEdges, mem_newEdges, h.heeded_eq, heeded_append,
    List.mem_append, h.edgeCount?_eq_none_iff]
  tauto

theorem disjoint_newEdges : Disjoint (d.newEdges edges) (d'.newEdges edges') := by
  rw [Finset.disjoint_left]
  intro e he he'
  exact (h.edgeCount?_eq_none_iff.1 (mem_newEdges.1 he').2).1 (mem_newEdges.1 he).1

theorem newMaps_append : d.newMaps (edges ++ edges') = d.newMaps edges ∪ d'.newMaps edges' := by
  ext k
  rw [Finset.mem_union, mem_newMaps, mem_newMaps (d := d'), h.heeded_eq, heeded_append,
    h.edgesOf_eq_none_iff, mem_newMaps]
  simp only [List.mem_append]
  grind

theorem disjoint_newMaps : Disjoint (d.newMaps edges) (d'.newMaps edges') := by
  rw [Finset.disjoint_left]
  intro k hk hk'
  exact (h.edgesOf_eq_none_iff.1 (mem_newMaps.1 hk').2).1 hk

theorem newParents_append (k : Hash) :
    d.newParents (edges ++ edges') k = d.newParents edges k + d'.newParents edges' k := by
  rw [newParents, h.newEdges_append, Finset.filter_union,
    Finset.card_union_of_disjoint (Finset.disjoint_filter_filter h.disjoint_newEdges),
    heeded_append, List.count_append, newParents, newParents, h.heeded_eq]
  omega

theorem trans (h' : d'.Referenced edges' d₂) : d.Referenced (edges ++ edges') d₂ := by
  constructor
  · rw [h'.frame, h.frame]
  · intro k
    rw [h'.records, h.records, Option.map_map]
    apply congrArg (Option.map · _)
    funext r
    rw [Function.comp_apply, grow_grow, h.newParents_append]
  · intro k
    rw [h'.maps, h.maps, h.newMaps_append, Finset.mem_union, or_assoc]
  · intro e
    rw [h'.counts, h.counts, h.heeded_eq, Edge.countAfter_countAfter, heeded_append,
      List.count_append]
  · rw [h'.childrenSize, h.childrenSize, grow_grow, h.newMaps_append, h.newEdges_append,
      Finset.card_union_of_disjoint h.disjoint_newMaps,
      Finset.card_union_of_disjoint h.disjoint_newEdges]
    congr 1
    rw [Nat.mul_add, Nat.mul_add]
    omega

end Trans

end Referenced

section Single

variable {p : Record}

theorem edgeCount?_of_get (hp : d.records[e.parent]? = some p) :
    d.edgeCount? e = (p.edges.getD ∅)[e.child]? := by
  rw [edgeCount?, edgesOf, hp, Option.bind_some]
  cases p.edges with
  | none => exact Std.ExtTreeMap.getElem?_empty.symm
  | some edges => rfl

theorem edgeCount?_eq_none_iff (hp : d.records[e.parent]? = some p) :
    d.edgeCount? e = none ↔ (p.edges.getD ∅).contains e.child = false := by
  rw [edgeCount?_of_get hp, Map.contains_eq_false_iff]

variable (ht : d.tracks e.child) (hp : d.records[e.parent]? = some p)
include ht hp

theorem heeded_singleton : d.heeded [e] = [e] := by
  rw [heeded, List.filter_eq_self]
  intro e' he'
  rw [List.mem_singleton.1 he', ht, Map.contains_of_get hp]
  rfl

theorem newEdges_singleton :
    d.newEdges [e] = if (p.edges.getD ∅).contains e.child then ∅ else {e} := by
  ext e'
  rw [mem_newEdges, heeded_singleton ht hp, List.mem_singleton]
  split
  · next hk =>
    simp only [Finset.notMem_empty, iff_false, not_and]
    rintro rfl
    rw [edgeCount?_eq_none_iff hp, hk]
    exact nofun
  · next hk =>
    rw [Finset.mem_singleton, and_iff_left_iff_imp]
    rintro rfl
    exact (edgeCount?_eq_none_iff hp).2 (Bool.eq_false_iff.2 hk)

theorem newMaps_singleton : d.newMaps [e] = if p.edges.isNone then {e.parent} else ∅ := by
  have hedges : d.edgesOf e.parent = p.edges := by rw [edgesOf, hp, Option.bind_some]
  ext k
  rw [mem_newMaps, heeded_singleton ht hp]
  simp only [List.mem_singleton, exists_eq_left]
  split
  · next hn =>
    rw [Finset.mem_singleton, eq_comm, and_iff_left_iff_imp]
    rintro rfl
    rw [hedges]
    exact Option.isNone_iff_eq_none.1 hn
  · next hn =>
    simp only [Finset.notMem_empty, iff_false, not_and]
    rintro rfl
    rw [hedges]
    exact mt Option.isNone_iff_eq_none.2 hn

variable (hk : (p.edges.getD ∅).contains e.child → e.parent = Hash.zero)
include hk

theorem newParents_singleton (k : Hash) :
    d.newParents [e] k = if e.child = k then 1 else 0 := by
  rw [newParents, newEdges_singleton ht hp, heeded_singleton ht hp, List.count_singleton]
  by_cases hz : e.parent = Hash.zero
  · have hnone : ((if (p.edges.getD ∅).contains e.child then ∅ else {e} : Finset Edge).filter
        fun e => e.child = k ∧ e.parent ≠ Hash.zero) = ∅ := by
      rw [Finset.filter_eq_empty_iff]
      intro e' he' hc
      split at he'
      · cases Finset.notMem_empty _ he'
      · rw [Finset.mem_singleton.1 he'] at hc
        exact hc.2 hz
    have hroot : (e == ⟨k, Hash.zero⟩) = decide (e.child = k) := by
      rw [beq_eq_decide]
      exact decide_eq_decide.2 ⟨congrArg Edge.child, fun hc => Edge.ext hc hz⟩
    rw [hnone, Finset.card_empty, Nat.zero_add, hroot]
    simp only [decide_eq_true_eq]
  · have hroot : (e == ⟨k, Hash.zero⟩) = false := by
      rw [beq_eq_false_iff_ne]
      rintro rfl
      exact hz rfl
    rw [if_neg (mt hk hz), hroot, Finset.filter_singleton]
    by_cases hc : e.child = k
    · simp [hc, hz]
    · simp [hc]

theorem reference_of_heeded : d.reference e.child e.parent =
    { d with
      records := (d.records.modify e.parent (·.addEdge e.child)).modify e.child Record.addParent
      childrenSize :=
        let size := if p.edges.isNone then satAdd d.childrenSize edgeMapCost else d.childrenSize
        if (p.edges.getD ∅).contains e.child then size else satAdd size edgeCost } := by
  have hcounted : ((p.edges.getD ∅).contains e.child && !e.parent.isZero) = false := by
    rw [Bool.and_eq_false_imp, Bool.not_eq_false']
    exact fun hc => decide_eq_true (hk hc)
  rw [reference, if_pos ht, hp]
  dsimp only
  rw [hcounted, if_neg Bool.false_ne_true]

theorem edgesOf_reference (k : Hash) : (d.reference e.child e.parent).edgesOf k =
    if e.parent = k then (p.addEdge e.child).edges else d.edgesOf k := by
  rw [reference_of_heeded ht hp hk, edgesOf, Map.get_modify, Map.get_modify, edgesOf]
  by_cases hpk : e.parent = k
  · subst hpk
    rw [if_pos rfl, if_pos rfl, hp]
    split <;> rfl
  · rw [if_neg hpk, if_neg hpk]
    split
    · cases d.records[k]? <;> rfl
    · rfl

theorem edgeCount?_reference (e' : Edge) : (d.reference e.child e.parent).edgeCount? e' =
    e'.countAfter (d.edgeCount? e') ([e].count e') := by
  have hget : ∀ c, (p.addEdge e.child).edges.bind (·[c]?) = if e.child = c then
      some (min ((p.edges.getD ∅).getD e.child 0 + 1) maxEdgeCount) else (p.edges.getD ∅)[c]? :=
    fun c => Map.get_insert ..
  rw [edgeCount?, edgesOf_reference ht hp hk]
  by_cases he : e = e'
  · subst he
    have hold : (p.edges.getD ∅).getD e.child 0 = (d.edgeCount? e).getD 0 := by
      rw [edgeCount?_of_get hp, Std.ExtTreeMap.getD_eq_getD_getElem?]
    rw [if_pos rfl, hget, if_pos rfl, hold, Edge.countAfter, List.count_singleton_self,
      if_neg Nat.one_ne_zero]
    split
    · rfl
    · next hz =>
      rw [(edgeCount?_eq_none_iff hp).2 (Bool.eq_false_iff.2 (mt hk hz))]
      rfl
  · have hcount : [e].count e' = 0 := List.count_eq_zero.2 fun h => he (List.mem_singleton.1 h).symm
    rw [hcount, Edge.countAfter, if_pos rfl]
    split
    · next hpk =>
      rw [hget, if_neg fun hc => he (Edge.ext hc hpk), edgeCount?_of_get (hpk ▸ hp)]
    · rfl

theorem referenced_of_heeded : d.Referenced [e] (d.reference e.child e.parent) := by
  have he := reference_of_heeded ht hp hk
  have hedges := edgesOf_reference ht hp hk
  constructor
  · rw [he]
  · intro k
    rw [hedges, newParents_singleton ht hp hk, he, Map.get_modify, Map.get_modify, edgesOf]
    cases hr : d.records[k]? with
    | none => simp
    | some r =>
      by_cases hpk : e.parent = k
      · subst hpk
        cases hp.symm.trans hr
        by_cases hck : e.child = e.parent
        · simp [hck, grow, Record.addParent, Record.addEdge]
        · simp [hck, grow, Record.addEdge]
      · by_cases hck : e.child = k
        · simp [hck, hpk, grow, Record.addParent]
        · simp [hck, hpk, grow]
  · intro k
    rw [hedges, newMaps_singleton ht hp]
    by_cases hpk : e.parent = k
    · subst hpk
      rw [edgesOf, hp]
      cases hn : p.edges <;> simp [Record.addEdge, hn]
    · rw [if_neg hpk]
      split <;> simp [Ne.symm hpk]
  · intro e'
    rw [edgeCount?_reference ht hp hk, heeded_singleton ht hp]
  · have hsize : (d.reference e.child e.parent).childrenSize =
        let size := if p.edges.isNone then satAdd d.childrenSize edgeMapCost else d.childrenSize
        if (p.edges.getD ∅).contains e.child then size else satAdd size edgeCost := by
      rw [he]
    rw [hsize, newMaps_singleton ht hp, newEdges_singleton ht hp]
    have hmap : edgeMapCost ≠ 0 := by decide
    have hedge : edgeCost ≠ 0 := by decide
    cases p.edges with
    | none => simp [satAdd_eq_grow hmap, satAdd_eq_grow hedge, grow_grow]
    | some edges =>
      cases hc : edges.contains e.child with
      | true => simp [grow, hc]
      | false => simp [satAdd_eq_grow hedge, hc]

end Single

theorem referenced_reference (d : Dirty) (e : Edge) :
    d.Referenced [e] (d.reference e.child e.parent) := by
  by_cases hnew : ∃ p, d.tracks e.child ∧ d.records[e.parent]? = some p ∧
      ((p.edges.getD ∅).contains e.child → e.parent = Hash.zero)
  · obtain ⟨p, ht, hp, hk⟩ := hnew
    exact referenced_of_heeded ht hp hk
  · have he : d.reference e.child e.parent = d := by
      rcases reference_cases d e.child e.parent with he | ⟨p, ht, hp, hk, _⟩
      · exact he
      · exact absurd ⟨p, ht, hp, hk⟩ hnew
    rw [he]
    apply Referenced.self
    intro e' he'
    obtain ⟨hmem, hh⟩ := List.mem_filter.1 he'
    rw [List.mem_singleton.1 hmem, Bool.and_eq_true, Map.contains_iff] at hh
    rw [List.mem_singleton.1 hmem]
    obtain ⟨ht, p, hp⟩ := hh
    rw [Ne, edgeCount?_eq_none_iff hp]
    by_contra hn
    refine hnew ⟨p, ht, hp, ?_⟩
    grind

theorem referenced_referenceAll (d : Dirty) (edges : List Edge) :
    d.Referenced edges (d.referenceAll edges) := by
  induction edges generalizing d with
  | nil => exact .self nofun
  | cons e edges ih => exact (d.referenced_reference e).trans (ih _)

/-- The trace of the edges that would be under a record that is not there. -/
def strays (d : Dirty) (edges : List Edge) : List Event :=
  (edges.filter fun e => d.tracks e.child && !d.records.contains e.parent).map
    fun e => .uncachedParent e.parent

end Dirty

namespace Database

def referenceAll (db : Database) (edges : List Edge) : Database :=
  edges.foldl (fun db e => db.reference e.child e.parent) db

variable {db : Database} {edges edges' : List Edge}

theorem reference_eq (db : Database) (e : Edge) : db.reference e.child e.parent =
    { db with
      dirty := db.dirty.reference e.child e.parent
      log := (db.dirty.strays [e]).reverse ++ db.log } := by
  rw [reference]
  split
  · next hs => simp [Dirty.strays, hs, report]
  · next hs => simp [Dirty.strays, hs]

theorem referenceAll_eq (db : Database) (edges : List Edge) : db.referenceAll edges =
    { db with
      dirty := db.dirty.referenceAll edges
      log := (db.dirty.strays edges).reverse ++ db.log } := by
  induction edges generalizing db with
  | nil => rfl
  | cons e edges ih =>
    have hstrays : (db.dirty.reference e.child e.parent).strays edges = db.dirty.strays edges := by
      simp only [Dirty.strays, Dirty.tracks, Dirty.contains_reference]
    have hcons : db.dirty.strays (e :: edges) = db.dirty.strays [e] ++ db.dirty.strays edges := by
      rw [Dirty.strays, ← List.singleton_append, List.filter_append, List.map_append]
      rfl
    have hstep : db.referenceAll (e :: edges) =
        (db.reference e.child e.parent).referenceAll edges := rfl
    rw [hstep, ih, reference_eq]
    dsimp only
    rw [hstrays, hcons, List.reverse_append, List.append_assoc]
    rfl

end Database

/-- Whatever the order in which edges are asked for, the same comes of them, and only the order of
what is logged is another. -/
theorem references_commute (db : Database) (edges : List Edge) :
    db.dirty.Referenced edges (db.referenceAll edges).dirty ∧
    ∀ edges', edges.Perm edges' → ∃ log, log.Perm (db.referenceAll edges).log ∧
      db.referenceAll edges' = { db.referenceAll edges with log } := by
  have hr := db.dirty.referenced_referenceAll edges
  rw [db.referenceAll_eq]
  refine ⟨hr, fun edges' hp => ?_⟩
  have hdirty : db.dirty.referenceAll edges' = db.dirty.referenceAll edges :=
    (db.dirty.referenced_referenceAll edges').unique (hr.perm hp)
  have hstrays : (db.dirty.strays edges').Perm (db.dirty.strays edges) :=
    (hp.symm.filter _).map _
  refine ⟨(db.dirty.strays edges').reverse ++ db.log, ?_, ?_⟩
  · exact (((List.reverse_perm _).trans hstrays).trans (List.reverse_perm _).symm).append_right _
  · rw [db.referenceAll_eq, hdirty]

def couple : Database :=
  ((Database.new {} {} [] {} id {}).insertBlob (.fill 1) [1]).insertBlob (.fill 2) [2]

/-- Two edges that are asked for twice, one from a blob to itself, and one that would be under a
hash that is not cached. -/
def repeatedEdges : List Edge :=
  [⟨.fill 2, .fill 1⟩, ⟨.fill 1, .zero⟩, ⟨.fill 2, .fill 3⟩, ⟨.fill 1, .zero⟩, ⟨.fill 2, .fill 1⟩,
    ⟨.fill 2, .fill 2⟩]

theorem references_commute_with_repeats : repeatedEdges.Perm repeatedEdges.reverse ∧
    (∃ log, log.Perm (couple.referenceAll repeatedEdges).log ∧
      couple.referenceAll repeatedEdges.reverse = { couple.referenceAll repeatedEdges with log }) ∧
    couple.dirty.newParents repeatedEdges (.fill 2) = 2 ∧
    couple.dirty.newParents repeatedEdges (.fill 1) = 2 ∧
    (couple.referenceAll repeatedEdges).dirty.edgeCount? ⟨.fill 2, .fill 1⟩ = some 1 ∧
    (couple.referenceAll repeatedEdges).dirty.edgeCount? ⟨.fill 1, .zero⟩ = some 2 ∧
    (couple.referenceAll repeatedEdges).dirty.childrenSize = 48 + 48 + 34 + 34 + 34 := by
  have hp : repeatedEdges.Perm repeatedEdges.reverse := (List.reverse_perm _).symm
  exact ⟨hp, (references_commute couple repeatedEdges).2 _ hp, by decide +kernel⟩

end TrieCache
