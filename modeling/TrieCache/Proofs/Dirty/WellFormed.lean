import TrieCache.Dirty.Preimages
import TrieCache.Dirty.Walk
import TrieCache.Proofs.Dirty.Shrinks

namespace TrieCache.Dirty

/-- The flush list is `order`, it has just the cached nodes, and the fresh nodes are among them. -/
structure WellFormed (d : Dirty) (order : List Hash) : Prop where
  listed : d.flush.Represents d.records order
  mem_order : ∀ k, k ∈ order ↔ k ≠ Hash.zero ∧ d.records.contains k
  rooted : d.Rooted
  fresh : ∀ k ∈ d.fresh, k ∈ order

/-- Nodes have left, and what is not about nodes may have changed as well. -/
structure Trims (d d' : Dirty) : Prop where
  kept : ∀ (k : Hash) (r' : Record), d'.records[k]? = some r' →
    ∃ r : Record, d.records[k]? = some r ∧ r'.core = r.core
  fresh : ∀ k ∈ d'.fresh, k ∈ d.fresh ∧ (d.records.contains k → d'.records.contains k)
  rooted : d.Rooted → d'.Rooted
  accounted : d.Accounted → d'.Accounted
  version : d'.version = d.version
  listed : ∀ order, d.flush.Represents d.records order →
    d'.flush.Represents d'.records (order.filter d'.records.contains)

variable {d d' d'' : Dirty} {order : List Hash} {h k : Hash}

theorem Rooted.contains (hr : d.Rooted) : d.records.contains Hash.zero := by
  obtain ⟨r, _, hr, _⟩ := hr
  exact Map.contains_of_get hr

theorem Rooted.congr (hr : d.Rooted)
    (he : d'.records[Hash.zero]?.map Record.edges = d.records[Hash.zero]?.map Record.edges) :
    d'.Rooted := by
  obtain ⟨r, edges, hr, hedges⟩ := hr
  rw [hr, Option.map_some, Option.map_eq_some_iff] at he
  obtain ⟨r', hr', he⟩ := he
  exact ⟨r', edges, hr', he.trans hedges⟩

namespace Trims

theorem contains (ht : Trims d d') (hk : d'.records.contains k) : d.records.contains k := by
  obtain ⟨r', hr'⟩ := Map.contains_iff.1 hk
  obtain ⟨r, hr, _⟩ := ht.kept k r' hr'
  exact Map.contains_of_get hr

theorem of_shrinks (hs : Shrinks d d') : Trims d d' where
  kept k r' hr' := by
    obtain ⟨r, hr, hc, _⟩ := hs.kept k r' hr'
    exact ⟨r, hr, hc⟩
  fresh k hk := (hs.fresh k).1 hk
  rooted := hs.rooted
  accounted := hs.accounted
  version := hs.version
  listed := hs.listed

theorem of_eq (hrecords : d'.records = d.records) (hflush : d'.flush = d.flush)
    (hversion : d'.version = d.version) (hdirties : d'.dirtiesSize = d.dirtiesSize)
    (hchildren : d'.childrenSize = d.childrenSize) (hfresh : ∀ k ∈ d'.fresh, k ∈ d.fresh) :
    Trims d d' where
  kept k r' hr' := ⟨r', hrecords ▸ hr', rfl⟩
  fresh k hk := ⟨hfresh k hk, fun hc => hrecords ▸ hc⟩
  rooted hr := hr.congr (by rw [hrecords])
  accounted ha := ha.of_measures (fun k => by rw [hrecords]) hdirties hchildren
  version := hversion
  listed order hr := by
    rw [hflush, hrecords, List.filter_eq_self.2 hr.cached]
    exact hr

theorem refl (d : Dirty) : Trims d d :=
  of_shrinks (.refl d)

theorem trans (h₁ : Trims d d') (h₂ : Trims d' d'') : Trims d d'' where
  kept k r'' hr'' := by
    obtain ⟨r', hr', hc'⟩ := h₂.kept k r'' hr''
    obtain ⟨r, hr, hc⟩ := h₁.kept k r' hr'
    exact ⟨r, hr, hc'.trans hc⟩
  fresh k hk := by
    obtain ⟨hk, h12⟩ := h₂.fresh k hk
    obtain ⟨hk, h01⟩ := h₁.fresh k hk
    exact ⟨hk, fun hc => h12 (h01 hc)⟩
  rooted hr := h₂.rooted (h₁.rooted hr)
  accounted ha := h₂.accounted (h₁.accounted ha)
  version := h₂.version.trans h₁.version
  listed order hr := by
    have hr'' := h₂.listed _ (h₁.listed order hr)
    rwa [List.filter_filter, filter_contains_of_imp fun k => h₂.contains] at hr''

end Trims

theorem Accounted.new (preimages : Bool) : (Dirty.new preimages).Accounted where
  dirties := rfl
  children := rfl

theorem contains_insert (d : Dirty) (h : Hash) (content : Content) (size : Nat) (k : Hash) :
    (d.insert h content size).records.contains k ↔ h = k ∨ d.records.contains k := by
  rw [insert]
  split
  · next hc =>
    constructor
    · exact .inr
    · rintro (rfl | hk)
      · exact hc
      · exact hk
  · let r : Record := { content, size, version := d.version }
    have hb : ∀ k, (d.flush.pushBack (d.records.insert h r) h).2[k]?.map Record.body =
        (d.records.insert h r)[k]?.map Record.body := FlushList.body_pushBack
    rw [Map.contains_eq_of_map (hb k), Map.contains_insert]

theorem core_of_body {rs rs' : Records}
    (hb : rs'[k]?.map Record.body = rs[k]?.map Record.body) :
    rs'[k]?.map Record.core = rs[k]?.map Record.core := by
  have he := congrArg (Option.map Record.core) hb
  rwa [Option.map_map, Option.map_map] at he

theorem core_insert (d : Dirty) (h : Hash) (content : Content) (size : Nat) (k : Hash) :
    (d.insert h content size).records[k]?.map Record.core =
      if d.records.contains h = false ∧ h = k then some (content, size, d.version)
      else d.records[k]?.map Record.core := by
  rw [insert]
  cases hc : d.records.contains h with
  | true => simp
  | false =>
    rw [if_neg Bool.false_ne_true]
    apply (core_of_body (FlushList.body_pushBack k)).trans
    rw [Map.get_insert]
    by_cases hk : h = k
    · rw [if_pos hk, if_pos ⟨rfl, hk⟩]
      rfl
    · rw [if_neg hk, if_neg fun he => hk he.2]

theorem core_reference (d : Dirty) (child parent k : Hash) :
    (d.reference child parent).records[k]?.map Record.core = d.records[k]?.map Record.core := by
  rcases reference_cases d child parent with he | ⟨p, _, _, _, he⟩
  · rw [he]
  · rw [he]
    calc
      ((d.records.modify parent (·.addEdge child)).modify child Record.addParent)[k]?.map
          Record.core
      _ = (d.records.modify parent (·.addEdge child))[k]?.map Record.core :=
        Map.map_modify _ child k fun _ => rfl
      _ = d.records[k]?.map Record.core := Map.map_modify _ parent k fun _ => rfl

theorem contains_reference (d : Dirty) (child parent k : Hash) :
    (d.reference child parent).records.contains k = d.records.contains k :=
  Map.contains_eq_of_map (d.core_reference child parent k)

theorem version_insert (d : Dirty) (h : Hash) (content : Content) (size : Nat) :
    (d.insert h content size).version = d.version := by
  rw [insert]
  split <;> rfl

theorem version_reference (d : Dirty) (child parent : Hash) :
    (d.reference child parent).version = d.version := by
  rcases reference_cases d child parent with he | ⟨p, _, _, _, he⟩ <;> rw [he]

theorem mem_fresh_insert (d : Dirty) (h : Hash) (content : Content) (size : Nat) (k : Hash) :
    k ∈ (d.insert h content size).fresh ↔
      (d.records.contains h = false ∧ h = k) ∨ k ∈ d.fresh := by
  rw [insert]
  cases hc : d.records.contains h with
  | true => simp
  | false =>
    rw [if_neg Bool.false_ne_true, Std.ExtTreeSet.mem_insert, Std.LawfulEqOrd.compare_eq_iff_eq,
      and_iff_right rfl]

theorem fresh_reference (d : Dirty) (child parent : Hash) :
    (d.reference child parent).fresh = d.fresh := by
  rcases reference_cases d child parent with he | ⟨p, _, _, _, he⟩ <;> rw [he]

namespace WellFormed

theorem contains_iff (hw : d.WellFormed order) (k : Hash) :
    d.records.contains k ↔ k = Hash.zero ∨ k ∈ order := by
  rw [hw.mem_order]
  constructor
  · intro hk
    by_cases hz : k = Hash.zero
    · exact .inl hz
    · exact .inr ⟨hz, hk⟩
  · rintro (rfl | ⟨_, hk⟩)
    · exact hw.rooted.contains
    · exact hk

theorem new (preimages : Bool) : (Dirty.new preimages).WellFormed [] where
  listed := by
    apply FlushList.Represents.empty
    intro k r hr
    rw [Dirty.new, Map.get_insert] at hr
    split at hr
    · cases hr
      rfl
    · rw [Std.ExtTreeMap.getElem?_empty] at hr
      cases hr
  mem_order k := by
    rw [Dirty.new, Map.contains_insert, Std.ExtTreeMap.contains_empty, ne_comm]
    simp
  rooted := ⟨Record.metaRoot, ∅, by rw [Dirty.new, Map.get_insert, if_pos rfl], rfl⟩
  fresh k hk := by
    rw [Dirty.new] at hk
    simp at hk

theorem trims (hw : d.WellFormed order) (ht : Trims d d') :
    d'.WellFormed (order.filter d'.records.contains) where
  listed := ht.listed order hw.listed
  mem_order k := by
    rw [List.mem_filter, hw.mem_order]
    constructor
    · rintro ⟨⟨hz, _⟩, hc⟩
      exact ⟨hz, hc⟩
    · rintro ⟨hz, hc⟩
      exact ⟨⟨hz, ht.contains hc⟩, hc⟩
  rooted := ht.rooted hw.rooted
  fresh k hk := by
    obtain ⟨hk, hc⟩ := ht.fresh k hk
    have hm := hw.fresh k hk
    exact List.mem_filter.2 ⟨hm, hc (hw.listed.cached k hm)⟩

theorem congr (hw : d.WellFormed order)
    (hl : ∀ k : Hash, d'.records[k]?.map Record.links = d.records[k]?.map Record.links)
    (hflush : d'.flush = d.flush) (hroot : d'.Rooted) (hfresh : d'.fresh = d.fresh) :
    d'.WellFormed order where
  listed := by
    rw [hflush]
    exact hw.listed.congr hl
  mem_order k := by
    rw [Map.contains_eq_of_map (hl k), hw.mem_order]
  rooted := hroot
  fresh k hk := hw.fresh k (hfresh ▸ hk)

theorem insert (hw : d.WellFormed order) (h : Hash) (content : Content) (size : Nat) :
    (d.insert h content size).WellFormed
      (if d.records.contains h then order else order ++ [h]) := by
  by_cases hc : d.records.contains h
  · rw [if_pos hc, Dirty.insert, if_pos hc]
    exact hw
  rw [if_neg hc]
  let r : Record := { content, size, version := d.version }
  have hz : h ≠ Hash.zero := fun he => hc (he ▸ hw.rooted.contains)
  have hm : h ∉ order := fun hm => hc ((hw.mem_order h).1 hm).2
  have hg : d.records[h]? = none := Map.contains_eq_false_iff.1 (Bool.eq_false_iff.2 hc)
  have hr : d.flush.Represents (d.records.insert h r) order := hw.listed.insert hg rfl
  have hb : ∀ k, (d.flush.pushBack (d.records.insert h r) h).2[k]?.map Record.body =
      (d.records.insert h r)[k]?.map Record.body := FlushList.body_pushBack
  have hkeys := contains_insert d h content size
  rw [Dirty.insert, if_neg hc] at hkeys
  rw [Dirty.insert, if_neg hc]
  refine ⟨hr.pushBack (by simp) hm, ?_, ?_, ?_⟩
  · intro k
    rw [hkeys, List.mem_append, List.mem_singleton, hw.mem_order]
    constructor
    · rintro (⟨hk, hc⟩ | rfl)
      · exact ⟨hk, .inr hc⟩
      · exact ⟨hz, .inl rfl⟩
    · rintro ⟨hk, rfl | hc⟩
      · exact .inr rfl
      · exact .inl ⟨hk, hc⟩
  · apply hw.rooted.congr
    have he := congrArg (Option.map Record.edges) (hb Hash.zero)
    rw [Option.map_map, Option.map_map, Map.get_insert, if_neg hz] at he
    exact he
  · intro k hk
    rw [Std.ExtTreeSet.mem_insert, Std.LawfulEqOrd.compare_eq_iff_eq] at hk
    rcases hk with rfl | hk
    · simp
    · exact List.mem_append_left _ (hw.fresh k hk)

theorem reference (hw : d.WellFormed order) (child parent : Hash) :
    (d.reference child parent).WellFormed order := by
  rcases reference_cases d child parent with he | ⟨p, _, hp, _, he⟩
  · rw [he]
    exact hw
  rw [he]
  apply hw.congr
  · intro k
    calc
      ((d.records.modify parent (·.addEdge child)).modify child Record.addParent)[k]?.map
          Record.links
      _ = (d.records.modify parent (·.addEdge child))[k]?.map Record.links :=
        Map.map_modify _ child k fun _ => rfl
      _ = d.records[k]?.map Record.links := Map.map_modify _ parent k fun _ => rfl
  · rfl
  · obtain ⟨r, edges, hr, hedges⟩ := hw.rooted
    have hsome : ((d.records.modify parent (·.addEdge child)).modify child
        Record.addParent)[Hash.zero]?.map (·.edges.isSome) = some true := by
      rw [Map.get_modify, Map.get_modify, hr]
      split <;> split <;> simp [Record.addEdge, Record.addParent, hedges]
    obtain ⟨r', hr', he⟩ := Option.map_eq_some_iff.1 hsome
    obtain ⟨edges', hedges'⟩ := Option.isSome_iff_exists.1 he
    exact ⟨r', edges', hr', hedges'⟩
  · rfl

theorem claim (hw : d.WellFormed order) (h : Hash) : (d.claim h).WellFormed order := by
  have hroot : (d.claim h).Rooted := by
    apply hw.rooted.congr
    exact Map.map_modify _ h Hash.zero fun _ => rfl
  exact hw.congr (fun k => Map.map_modify _ h k fun _ => rfl) rfl hroot rfl

theorem stamp (hw : d.WellFormed order) (arrangement : Arrangement) (root : Hash) :
    (d.stamp arrangement root).WellFormed order := by
  rw [Dirty.stamp]
  generalize d.closure arrangement root = claimed
  induction claimed generalizing d with
  | nil => exact hw
  | cons h claimed ih => exact ih (hw.claim h)

theorem nextVersion (hw : d.WellFormed order) : d.nextVersion.WellFormed order :=
  hw.congr (fun _ => rfl) rfl hw.rooted rfl

end WellFormed

theorem Accounted.stamp (ha : d.Accounted) (arrangement : Arrangement) (root : Hash) :
    (d.stamp arrangement root).Accounted := by
  rw [Dirty.stamp]
  generalize d.closure arrangement root = claimed
  induction claimed generalizing d with
  | nil => exact ha
  | cons h claimed ih =>
    apply ih
    apply Accounted.of_measures ?_ ha
    · rfl
    · rfl
    · intro k
      exact Map.map_modify _ h k fun _ => rfl

end TrieCache.Dirty
