import TrieCache.Dirty.Edges
import TrieCache.Proofs.Dirty.FlushList

namespace TrieCache.Dirty

def nodes (d : Dirty) : Records := d.records.erase Hash.zero

/-- The true length of a node with its hash. -/
def Record.trueSize (r : Record) : Nat := 32 + r.size

/-- The true bytes of the map of edges. -/
def Record.edgeBytes (r : Record) : Nat :=
  match r.edges with
  | none => 0
  | some edges => edgeMapCost + edgeCost * edges.size

/-- All bytes of a node: its own, those of its record and those of its edges. -/
def Record.bytes (r : Record) : Nat := r.trueSize + recordCost + r.edgeBytes

/-- The bytes that all counters together stand for. -/
def bytes (d : Dirty) : Nat := Map.total d.nodes Record.bytes + edgeCost * d.roots.size

def payloads (d : Dirty) : Nat := Map.total d.nodes Record.payload

def edgeSizes (d : Dirty) : Nat := Map.total d.nodes Record.edgesSize + edgeCost * d.roots.size

structure Accounted (d : Dirty) : Prop where
  dirties : d.dirtiesSize = Map.total d.nodes Record.payload
  children : d.childrenSize = Map.total d.nodes Record.edgesSize + edgeCost * d.roots.size

/-- The sums are less by what has left, as far as they can be. -/
structure Debits (d d' : Dirty) : Prop where
  payloads_le : d'.payloads ≤ d.payloads
  edgeSizes_le : d'.edgeSizes ≤ d.edgeSizes
  dirtiesSize : d'.dirtiesSize = d.dirtiesSize - (d.payloads - d'.payloads)
  childrenSize : d'.childrenSize = d.childrenSize - (d.edgeSizes - d'.edgeSizes)

variable {d d' d'' : Dirty} {h root : Hash} {r : Record}

theorem get_nodes (d : Dirty) (k : Hash) :
    d.nodes[k]? = if Hash.zero = k then none else d.records[k]? :=
  Map.get_erase ..

theorem get_nodes_of_ne (hz : h ≠ Hash.zero) : d.nodes[h]? = d.records[h]? := by
  rw [get_nodes, if_neg (Ne.symm hz)]

namespace Record

theorem payload_le_bytes (r : Record) : r.payload ≤ r.bytes := by
  have hp : r.payload ≤ r.trueSize := Nat.min_le_left _ _
  simp only [bytes]
  omega

theorem edgesSize_le_edgeBytes (r : Record) : r.edgesSize ≤ r.edgeBytes := by
  rw [edgesSize, edgeBytes]
  cases r.edges with
  | none => exact Nat.le_refl 0
  | some edges =>
    have ha : satAdd edgeMapCost (satMul edges.size edgeCost) ≤
        edgeMapCost + satMul edges.size edgeCost := Nat.min_le_left _ _
    have hm : satMul edges.size edgeCost ≤ edges.size * edgeCost := Nat.min_le_left _ _
    rw [Nat.mul_comm edges.size] at hm
    dsimp only
    omega

theorem edgesSize_le_bytes (r : Record) : r.edgesSize ≤ r.bytes :=
  r.edgesSize_le_edgeBytes.trans (Nat.le_add_left _ _)

theorem payload_eq (hb : r.bytes ≤ wordMax) : r.payload = r.trueSize := by
  simp only [bytes, trueSize] at hb
  exact satAdd_eq (by omega)

theorem edgesSize_eq (hb : r.bytes ≤ wordMax) : r.edgesSize = r.edgeBytes := by
  have he : r.edgeBytes ≤ wordMax := by
    simp only [bytes] at hb
    omega
  rw [edgeBytes] at he
  rw [edgesSize, edgeBytes]
  cases hr : r.edges with
  | none => rfl
  | some edges =>
    simp only [hr] at he
    dsimp only
    rw [satMul_eq (by rw [Nat.mul_comm]; omega), Nat.mul_comm edges.size, satAdd_eq he]

end Record

theorem bytes_le_of_get (hb : d.bytes ≤ wordMax) (hg : d.nodes[h]? = some r) :
    r.bytes ≤ wordMax := by
  have ht := Map.le_total Record.bytes hg
  simp only [bytes] at hb
  omega

theorem total_eq_of_fits {w w' : Record → Nat} (hb : d.bytes ≤ wordMax)
    (hw : ∀ r, r.bytes ≤ wordMax → w r = w' r) : Map.total d.nodes w = Map.total d.nodes w' := by
  apply Map.total_congr
  intro k
  cases hg : d.nodes[k]? with
  | none => rfl
  | some r =>
    rw [Option.map_some, Option.map_some, hw r (bytes_le_of_get hb hg)]

namespace Accounted

theorem dirties_eq (ha : d.Accounted) (hb : d.bytes ≤ wordMax) :
    d.dirtiesSize = Map.total d.nodes Record.trueSize := by
  rw [ha.dirties, total_eq_of_fits hb fun _ => Record.payload_eq]

theorem children_eq (ha : d.Accounted) (hb : d.bytes ≤ wordMax) :
    d.childrenSize = Map.total d.nodes Record.edgeBytes + edgeCost * d.roots.size := by
  rw [ha.children, total_eq_of_fits hb fun _ => Record.edgesSize_eq]

theorem memorySize_eq (ha : d.Accounted) (hb : d.bytes ≤ wordMax)
    (hz : d.records.contains Hash.zero) : d.memorySize = Map.total d.nodes Record.bytes := by
  have hlive : d.liveNodes = d.nodes.size := by
    rw [nodes, Std.ExtTreeMap.size_erase, if_pos hz, liveNodes]
  have hbytes : Map.total d.nodes Record.bytes =
      Map.total d.nodes Record.trueSize + d.nodes.size * recordCost +
        Map.total d.nodes Record.edgeBytes := by
    rw [← Map.total_const, ← Map.total_add, ← Map.total_add]
    rfl
  rw [bytes, hbytes] at hb
  have hm : satMul d.nodes.size recordCost = d.nodes.size * recordCost := satMul_eq (by omega)
  have hr : satMul d.roots.size edgeCost = edgeCost * d.roots.size := by
    rw [satMul_eq (by rw [Nat.mul_comm]; omega), Nat.mul_comm]
  rw [← hbytes, ← bytes] at hb
  rw [memorySize, hlive, hm, hr, ha.dirties_eq hb, ha.children_eq hb, hbytes]
  rw [bytes, hbytes] at hb
  rw [satAdd_eq (a := Map.total d.nodes Record.trueSize) (by omega), satAdd_eq (by omega)]
  omega

end Accounted

def trueSizeOf (d : Dirty) (h : Hash) : Nat := (d.nodes[h]?.map Record.trueSize).getD 0

/-- As long as no sum outgrows a word, what is counted less when just some nodes are gone is the
bytes of these nodes. What a node counts has to show in what is the same of it before and after. -/
theorem Accounted.dirties_of_gone {γ : Type} {f : Record → γ} {w : γ → Nat} {gone : List Hash}
    (ha : d.Accounted) (ha' : d'.Accounted) (hb : d.bytes ≤ wordMax) (hn : gone.Nodup)
    (hg : ∀ k ∈ gone, d.nodes.contains k)
    (hd : ∀ k : Hash, d'.nodes[k]?.map f = if k ∈ gone then none else d.nodes[k]?.map f)
    (hw : ∀ r, w (f r) = r.payload) :
    d.dirtiesSize = (gone.map d.trueSizeOf).sum + d'.dirtiesSize := by
  have hpayload : w ∘ f = Record.payload := funext hw
  have ht := Map.total_of_gone hn hg hd w
  have hsizes : (gone.map fun k => (d.nodes[k]?.map Record.payload).getD 0) =
      gone.map d.trueSizeOf := by
    apply List.map_congr_left
    intro k hk
    obtain ⟨r, hr⟩ := Map.contains_iff.1 (hg k hk)
    rw [trueSizeOf, hr, Option.map_some, Option.map_some,
      Record.payload_eq (bytes_le_of_get hb hr)]
  rw [ha.dirties, ha'.dirties, ← hpayload, ht, hpayload, hsizes]

theorem roots_of_edges
    (he : d'.records[Hash.zero]?.map Record.edges = d.records[Hash.zero]?.map Record.edges) :
    d'.roots = d.roots := by
  have hroots : ∀ d : Dirty,
      d.roots = (d.records[Hash.zero]?.map Record.edges).elim ∅ (·.getD ∅) := by
    intro d
    rw [roots]
    cases d.records[Hash.zero]? <;> rfl
  rw [hroots, he, ← hroots]

def Record.measures (r : Record) : Nat × Option (HashMap Nat) := (r.size, r.edges)

section Measures

variable (hm : ∀ k : Hash, d'.records[k]?.map Record.measures = d.records[k]?.map Record.measures)
include hm

theorem total_of_measures (w : Nat × Option (HashMap Nat) → Nat) :
    Map.total d'.nodes (w ∘ Record.measures) = Map.total d.nodes (w ∘ Record.measures) := by
  apply Map.total_congr
  intro k
  rw [get_nodes, get_nodes, ← Option.map_map, ← Option.map_map]
  split
  · rfl
  · rw [hm]

theorem roots_of_measures : d'.roots = d.roots := by
  have he := congrArg (Option.map Prod.snd) (hm Hash.zero)
  rw [Option.map_map, Option.map_map] at he
  exact roots_of_edges he

theorem bytes_of_measures : d'.bytes = d.bytes := by
  have ht := total_of_measures hm fun m =>
    32 + m.1 + recordCost + match m.2 with
      | none => 0
      | some edges => edgeMapCost + edgeCost * edges.size
  rw [bytes, bytes, roots_of_measures hm]
  exact congrArg (· + _) ht

theorem payloads_of_measures : d'.payloads = d.payloads :=
  total_of_measures hm fun m => satAdd 32 m.1

theorem edgeSizes_of_measures : d'.edgeSizes = d.edgeSizes := by
  have ht := total_of_measures hm fun m =>
    match m.2 with
    | none => 0
    | some edges => satAdd edgeMapCost (satMul edges.size edgeCost)
  rw [edgeSizes, edgeSizes, roots_of_measures hm]
  exact congrArg (· + _) ht

end Measures

theorem measures_of_body {rs rs' : Records}
    (hb : ∀ k : Hash, rs'[k]?.map Record.body = rs[k]?.map Record.body) (k : Hash) :
    rs'[k]?.map Record.measures = rs[k]?.map Record.measures := by
  have hk := congrArg (Option.map Record.measures) (hb k)
  rwa [Option.map_map, Option.map_map] at hk

section Remove

theorem records_remove (d : Dirty) (h : Hash) : (d.remove h).records = d.records.erase h := by
  rw [remove]
  split
  · next hg => rw [Map.erase_of_not_contains hg]
  · rfl

theorem payloads_remove (hz : h ≠ Hash.zero) (hr : d.records[h]? = some r) :
    d.payloads = r.payload + (d.remove h).payloads := by
  have hn : d.nodes[h]? = some r := by rw [get_nodes_of_ne hz, hr]
  rw [payloads, payloads, Map.total_eq_add_of_get _ hn, nodes, nodes, records_remove,
    Map.erase_erase]

theorem edgeSizes_remove (hz : h ≠ Hash.zero) (hr : d.records[h]? = some r) :
    d.edgeSizes = r.edgesSize + (d.remove h).edgeSizes := by
  have hn : d.nodes[h]? = some r := by rw [get_nodes_of_ne hz, hr]
  have hroots : (d.remove h).roots = d.roots := by
    rw [roots, roots, records_remove, Map.get_erase, if_neg hz]
  rw [edgeSizes, edgeSizes, Map.total_eq_add_of_get _ hn, hroots, nodes, nodes, records_remove,
    Map.erase_erase, Nat.add_assoc]

theorem roots_forgetRoot (d : Dirty) (root : Hash) : (d.forgetRoot root).roots =
    if d.records.contains root then d.roots else d.roots.erase root := by
  rw [forgetRoot]
  split
  · rfl
  split
  · rw [roots, roots, Map.get_modify, if_pos rfl]
    cases d.records[Hash.zero]? with
    | none => rfl
    | some r => cases r with | mk _ _ _ edges => cases edges <;> rfl
  · next hr => exact (Map.erase_of_not_contains (Map.contains_eq_false_iff.1
      (Bool.eq_false_iff.2 hr))).symm

theorem nodes_forgetRoot (d : Dirty) (root : Hash) : (d.forgetRoot root).nodes = d.nodes := by
  rw [forgetRoot]
  split
  · rfl
  · split
    · exact Map.erase_modify_self ..
    · rfl

namespace Debits

theorem refl (d : Dirty) : Debits d d where
  payloads_le := Nat.le_refl _
  edgeSizes_le := Nat.le_refl _
  dirtiesSize := by rw [Nat.sub_self, Nat.sub_zero]
  childrenSize := by rw [Nat.sub_self, Nat.sub_zero]

theorem trans (h₁ : Debits d d') (h₂ : Debits d' d'') : Debits d d'' where
  payloads_le := h₂.payloads_le.trans h₁.payloads_le
  edgeSizes_le := h₂.edgeSizes_le.trans h₁.edgeSizes_le
  dirtiesSize := by
    have hle := h₁.payloads_le
    have hle' := h₂.payloads_le
    rw [h₂.dirtiesSize, h₁.dirtiesSize]
    omega
  childrenSize := by
    have hle := h₁.edgeSizes_le
    have hle' := h₂.edgeSizes_le
    rw [h₂.childrenSize, h₁.childrenSize]
    omega

theorem of_measures
    (hm : ∀ k : Hash, d'.records[k]?.map Record.measures = d.records[k]?.map Record.measures)
    (hd : d'.dirtiesSize = d.dirtiesSize) (hc : d'.childrenSize = d.childrenSize) :
    Debits d d' where
  payloads_le := (payloads_of_measures hm).le
  edgeSizes_le := (edgeSizes_of_measures hm).le
  dirtiesSize := by rw [hd, payloads_of_measures hm, Nat.sub_self, Nat.sub_zero]
  childrenSize := by rw [hc, edgeSizes_of_measures hm, Nat.sub_self, Nat.sub_zero]

theorem unlink (d : Dirty) (h : Hash) : Debits d (d.unlink h) :=
  .of_measures (measures_of_body FlushList.body_unlink) rfl rfl

theorem remove (d : Dirty) (hz : h ≠ Hash.zero) : Debits d (d.remove h) := by
  cases hr : d.records[h]? with
  | none =>
    have he : d.remove h = d := by rw [Dirty.remove, hr]
    rw [he]
    exact .refl d
  | some r =>
    have hp := payloads_remove hz hr
    have he := edgeSizes_remove hz hr
    refine ⟨by omega, by omega, ?_, ?_⟩
    · have hs : (d.remove h).dirtiesSize = d.dirtiesSize - r.payload := by rw [Dirty.remove, hr]
      rw [hs, hp, Nat.add_sub_cancel]
    · have hs : (d.remove h).childrenSize = d.childrenSize - r.edgesSize := by
        rw [Dirty.remove, hr]
      rw [hs, he, Nat.add_sub_cancel]

theorem forgetRoot (d : Dirty) (root : Hash) : Debits d (d.forgetRoot root) := by
  by_cases hc : d.records.contains root
  · rw [Dirty.forgetRoot, if_pos hc]
    exact .refl d
  by_cases hr : d.roots.contains root
  · have hpayloads : (d.forgetRoot root).payloads = d.payloads := by
      rw [payloads, nodes_forgetRoot, payloads]
    have hsize : (d.forgetRoot root).roots.size + 1 = d.roots.size := by
      have hpos : d.roots.size ≠ 0 := by
        rw [ne_eq, ← Std.ExtTreeMap.eq_empty_iff_size_eq_zero]
        exact Std.ExtTreeMap.ne_empty_of_mem hr
      rw [roots_forgetRoot, if_neg hc, Std.ExtTreeMap.size_erase, if_pos hr]
      omega
    have hedges : (d.forgetRoot root).edgeSizes + edgeCost = d.edgeSizes := by
      rw [edgeSizes, edgeSizes, nodes_forgetRoot, ← hsize, Nat.mul_add_one, Nat.add_assoc]
    have hd : (d.forgetRoot root).dirtiesSize = d.dirtiesSize := by
      rw [Dirty.forgetRoot, if_neg hc, if_pos hr]
    have hs : (d.forgetRoot root).childrenSize = d.childrenSize - edgeCost := by
      rw [Dirty.forgetRoot, if_neg hc, if_pos hr]
    refine ⟨hpayloads.le, by omega, ?_, ?_⟩
    · rw [hd, hpayloads, Nat.sub_self, Nat.sub_zero]
    · rw [hs, ← hedges, Nat.add_sub_cancel_left]
  · rw [Dirty.forgetRoot, if_neg hc, if_neg hr]
    exact .refl d

theorem accounted (hd : Debits d d') (ha : d.Accounted) : d'.Accounted where
  dirties := by
    have hle := hd.payloads_le
    have hs : d.dirtiesSize = d.payloads := ha.dirties
    change d'.dirtiesSize = d'.payloads
    rw [hd.dirtiesSize, hs]
    omega
  children := by
    have hle := hd.edgeSizes_le
    have hs : d.childrenSize = d.edgeSizes := ha.children
    change d'.childrenSize = d'.edgeSizes
    rw [hd.childrenSize, hs]
    omega

end Debits

theorem Accounted.of_measures
    (hm : ∀ k : Hash, d'.records[k]?.map Record.measures = d.records[k]?.map Record.measures)
    (ha : d.Accounted) (hd : d'.dirtiesSize = d.dirtiesSize)
    (hc : d'.childrenSize = d.childrenSize) : d'.Accounted :=
  (Debits.of_measures hm hd hc).accounted ha

end Remove

section Grow

theorem Accounted.insert {content : Content} {size : Nat} (ha : d.Accounted)
    (hz : d.records.contains Hash.zero) (hb : (d.insert h content size).bytes ≤ wordMax) :
    (d.insert h content size).Accounted := by
  by_cases hc : d.records.contains h
  · rw [Dirty.insert, if_pos hc]
    exact ha
  -- The links of the neighbours do not matter, so that only the new record has to be counted.
  let r : Record := { content, size, version := d.version }
  let d₁ : Dirty := { d with
    records := d.records.insert h r
    dirtiesSize := satAdd d.dirtiesSize r.payload }
  have hne : h ≠ Hash.zero := fun he => hc (he ▸ hz)
  have hnodes : d₁.nodes = d.nodes.insert h r := Map.erase_insert _ _ hne
  have hroots : d₁.roots = d.roots := by
    rw [roots, roots, Map.get_insert, if_neg hne]
  have hg : d.nodes[h]? = none := by
    rw [get_nodes_of_ne hne]
    exact Map.contains_eq_false_iff.1 (Bool.eq_false_iff.2 hc)
  have hm : ∀ k : Hash, (d.insert h content size).records[k]?.map Record.measures =
      d₁.records[k]?.map Record.measures := by
    rw [Dirty.insert, if_neg hc]
    exact measures_of_body FlushList.body_pushBack
  rw [bytes_of_measures hm, bytes, hnodes, hroots, Map.total_insert _ _ hg] at hb
  have hp := Map.total_le_total (m := d.nodes) Record.payload_le_bytes
  have hr := Record.payload_le_bytes r
  have ha₁ : d₁.Accounted := by
    constructor
    · rw [hnodes, Map.total_insert _ _ hg]
      change satAdd d.dirtiesSize r.payload = _
      rw [ha.dirties, satAdd_eq (by omega), Nat.add_comm]
    · have he : r.edgesSize = 0 := rfl
      rw [hnodes, hroots, Map.total_insert _ _ hg, he, Nat.zero_add]
      exact ha.children
  apply ha₁.of_measures hm
  · rw [Dirty.insert, if_neg hc]
  · rw [Dirty.insert, if_neg hc]

def Record.edgeGrowth (p : Record) : Nat :=
  (if p.edges.isNone then edgeMapCost else 0) + edgeCost

theorem Record.edgeBytes_addEdge {p : Record} (hk : (p.edges.getD ∅).contains h = false) :
    (p.addEdge h).edgeBytes = p.edgeBytes + p.edgeGrowth := by
  simp only [edgeBytes, addEdge, edgeGrowth, Std.ExtTreeMap.size_insert, hk]
  cases p.edges with
  | none => rfl
  | some edges =>
    simp only [Option.getD_some, Option.isNone_some, Bool.false_eq_true, ↓reduceIte]
    rw [Nat.mul_add, Nat.mul_one]
    omega

theorem Record.edgesSize_addEdge {p : Record} (hk : (p.edges.getD ∅).contains h = false)
    (hb : (p.addEdge h).bytes ≤ wordMax) :
    (p.addEdge h).edgesSize = p.edgesSize + p.edgeGrowth := by
  have hp : p.bytes ≤ wordMax := by
    have he := edgeBytes_addEdge hk
    have hs : (p.addEdge h).trueSize = p.trueSize := rfl
    rw [bytes] at hb ⊢
    omega
  rw [edgesSize_eq hb, edgesSize_eq hp, edgeBytes_addEdge hk]

variable {child parent : Hash}

theorem reference_cases (d : Dirty) (child parent : Hash) :
    d.reference child parent = d ∨
      ∃ p, d.tracks child ∧ d.records[parent]? = some p ∧
        ((p.edges.getD ∅).contains child → parent = Hash.zero) ∧
        d.reference child parent =
          { d with
            records := (d.records.modify parent (·.addEdge child)).modify child Record.addParent
            childrenSize :=
              let size :=
                if p.edges.isNone then satAdd d.childrenSize edgeMapCost else d.childrenSize
              if (p.edges.getD ∅).contains child then size else satAdd size edgeCost } := by
  rw [reference]
  split
  · next ht =>
    split
    · exact .inl rfl
    · next p hp =>
      dsimp only
      split
      · exact .inl rfl
      · next hk =>
        have hz : (p.edges.getD ∅).contains child → parent = Hash.zero := by
          intro hc
          rw [hc, Bool.true_and, Bool.not_eq_true', Bool.not_eq_false] at hk
          exact of_decide_eq_true hk
        exact .inr ⟨p, ht, hp, hz, rfl⟩
  · exact .inl rfl

theorem Accounted.addRoot {edges : HashMap Nat} {p : Record} (ha : d.Accounted)
    (hp : d.records[Hash.zero]? = some p) (he : p.edges = some edges)
    (hd : d'.records = d.records.modify Hash.zero (·.addEdge child))
    (hb : d'.bytes ≤ wordMax) (hs : d'.dirtiesSize = d.dirtiesSize)
    (hc : d'.childrenSize =
      if edges.contains child then d.childrenSize else satAdd d.childrenSize edgeCost) :
    d'.Accounted := by
  have hnodes : d'.nodes = d.nodes := by rw [nodes, hd, Map.erase_modify_self, nodes]
  have hold : d.roots = edges := by
    rw [roots, hp]
    exact congrArg (·.getD ∅) he
  have hnew : d'.roots.size = if edges.contains child then edges.size else edges.size + 1 := by
    rw [roots, hd, Map.get_modify, if_pos rfl, hp]
    simp only [Option.map_some, Record.addEdge, he, Option.getD_some]
    exact Std.ExtTreeMap.size_insert
  constructor
  · rw [hs, hnodes]
    exact ha.dirties
  · have ht := Map.total_le_total (m := d.nodes) Record.edgesSize_le_bytes
    rw [bytes, hnodes, hnew] at hb
    rw [hc, hnodes, hnew, ha.children, hold]
    split
    · rfl
    · next hk =>
      rw [if_neg hk, Nat.mul_add] at hb
      rw [satAdd_eq (by omega), Nat.mul_add]
      omega

theorem Accounted.addEdge {p : Record} (ha : d.Accounted) (hne : parent ≠ Hash.zero)
    (hp : d.records[parent]? = some p) (hk : (p.edges.getD ∅).contains child = false)
    (hd : d'.records = d.records.modify parent (·.addEdge child))
    (hb : d'.bytes ≤ wordMax) (hs : d'.dirtiesSize = d.dirtiesSize)
    (hc : d'.childrenSize = satAdd
      (if p.edges.isNone then satAdd d.childrenSize edgeMapCost else d.childrenSize) edgeCost) :
    d'.Accounted := by
  have hnodes : d'.nodes = d.nodes.modify parent (·.addEdge child) := by
    rw [nodes, hd, Map.erase_modify _ _ hne, nodes]
  have hroots : d'.roots = d.roots := by
    rw [roots, roots, hd, Map.get_modify, if_neg hne]
  have hg : d.nodes[parent]? = some p := by rw [get_nodes_of_ne hne, hp]
  have hg' : d'.nodes[parent]? = some (p.addEdge child) := by
    rw [hnodes, Map.get_modify, if_pos rfl, hg, Option.map_some]
  have htotal (w : Record → Nat) := Map.total_modify w (·.addEdge child) hg
  rw [← hnodes] at htotal
  constructor
  · have ht : (p.addEdge child).payload = p.payload := rfl
    have := htotal Record.payload
    rw [hs, ha.dirties]
    omega
  · have hedges := Record.edgesSize_addEdge hk (bytes_le_of_get hb hg')
    have ht := htotal Record.edgesSize
    have hw := Map.total_le_total (m := d'.nodes) Record.edgesSize_le_bytes
    have hfit : d.childrenSize + p.edgeGrowth ≤ wordMax := by
      rw [bytes, hroots] at hb
      rw [ha.children]
      omega
    have hsum : d'.childrenSize = d.childrenSize + p.edgeGrowth := by
      rw [hc]
      rw [Record.edgeGrowth] at hfit ⊢
      split
      · next hn =>
        rw [if_pos hn] at hfit
        rw [satAdd_eq (a := d.childrenSize) (by omega), satAdd_eq (by omega)]
        omega
      · next hn =>
        rw [if_neg hn] at hfit
        rw [satAdd_eq (by omega)]
        omega
    rw [hsum, hroots, ha.children]
    omega

theorem Accounted.reference (ha : d.Accounted)
    (hz : ∃ r edges, d.records[Hash.zero]? = some r ∧ r.edges = some edges)
    (hb : (d.reference child parent).bytes ≤ wordMax) : (d.reference child parent).Accounted := by
  rcases reference_cases d child parent with he | ⟨p, _, hp, hk, he⟩
  · rw [he]
    exact ha
  let size := if p.edges.isNone then satAdd d.childrenSize edgeMapCost else d.childrenSize
  -- Parents are not accounted, so that only the record of `parent` has to be looked at.
  let d₁ : Dirty := { d with
    records := d.records.modify parent (·.addEdge child)
    childrenSize := if (p.edges.getD ∅).contains child then size else satAdd size edgeCost }
  have hm : ∀ k : Hash, (d.reference child parent).records[k]?.map Record.measures =
      d₁.records[k]?.map Record.measures := by
    intro k
    rw [he]
    exact Map.map_modify _ child k fun _ => rfl
  rw [bytes_of_measures hm] at hb
  have ha₁ : d₁.Accounted := by
    by_cases hparent : parent = Hash.zero
    · subst hparent
      obtain ⟨r, edges, hr, hredges⟩ := hz
      rw [hp, Option.some.injEq] at hr
      subst hr
      apply ha.addRoot hp hredges rfl hb rfl
      simp [d₁, size, hredges]
    · have hnew : (p.edges.getD ∅).contains child = false :=
        Bool.eq_false_iff.2 fun hc => hparent (hk hc)
      apply ha.addEdge hparent hp hnew rfl hb rfl
      simp [d₁, size, hnew]
  apply ha₁.of_measures hm
  · rw [he]
  · rw [he]

end Grow

end TrieCache.Dirty
