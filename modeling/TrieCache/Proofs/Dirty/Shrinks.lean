import TrieCache.Dirty.Flush
import TrieCache.Dirty.Sweep
import TrieCache.Proofs.Dirty.Accounting

namespace TrieCache.Dirty

/-- What a record keeps until it is dropped or claimed. -/
def Record.core (r : Record) : Content × Nat × Nat := (r.content, r.size, r.version)

def Rooted (d : Dirty) : Prop :=
  ∃ r edges, d.records[Hash.zero]? = some r ∧ r.edges = some edges

/-- Some nodes of `d` are gone in `d'`. Of the others only the links differ, and the edges of the
meta-root. -/
structure Loses (d d' : Dirty) : Prop where
  kept : ∀ k r', d'.records[k]? = some r' →
    ∃ r, d.records[k]? = some r ∧ r'.core = r.core ∧ (k ≠ Hash.zero → r'.body = r.body)
  fresh : ∀ k, k ∈ d'.fresh ↔ k ∈ d.fresh ∧ (d.records.contains k → d'.records.contains k)
  rooted : d.Rooted → d'.Rooted
  accounted : d.Accounted → d'.Accounted
  version : d'.version = d.version
  useless : d'.useless = d.useless
  preimages : d'.preimages = d.preimages
  preimagesSize : d'.preimagesSize = d.preimagesSize

variable {d d' d'' : Dirty} {h k : Hash} {r : Record}

theorem flush_remove (d : Dirty) (h : Hash) : (d.remove h).flush = d.flush := by
  rw [remove]
  split <;> rfl

theorem contains_remove_eq_false :
    (d.remove h).records.contains k = false ↔ k = h ∨ d.records.contains k = false := by
  rw [records_remove, ← Bool.not_eq_true, Map.contains_erase, ← Bool.not_eq_true, not_and_or,
    not_not, eq_comm]

theorem contains_unlink (d : Dirty) (h k : Hash) :
    (d.unlink h).records.contains k = d.records.contains k :=
  Map.contains_eq_of_map (FlushList.body_unlink k)

theorem contains_forgetRoot (d : Dirty) (root k : Hash) :
    (d.forgetRoot root).records.contains k = d.records.contains k := by
  rw [forgetRoot]
  split
  · rfl
  split
  · exact Std.ExtTreeMap.contains_modify
  · rfl

theorem size_forgetRoot (d : Dirty) (root : Hash) :
    (d.forgetRoot root).records.size = d.records.size := by
  rw [forgetRoot]
  split
  · rfl
  · split
    · exact Std.ExtTreeMap.size_modify
    · rfl

theorem contains_uncache_eq_false :
    (d.uncache h).records.contains k = false ↔ k = h ∨ d.records.contains k = false := by
  rw [uncache, contains_forgetRoot, contains_remove_eq_false, contains_unlink]

namespace Loses

theorem contains (hl : Loses d d') (hk : d'.records.contains k) : d.records.contains k := by
  obtain ⟨r', hr'⟩ := Map.contains_iff.1 hk
  obtain ⟨r, hr, _⟩ := hl.kept k r' hr'
  exact Map.contains_of_get hr

theorem refl (d : Dirty) : Loses d d where
  kept _ r hr := ⟨r, hr, rfl, fun _ => rfl⟩
  fresh _ := (and_iff_left id).symm
  rooted := id
  accounted := id
  version := rfl
  useless := rfl
  preimages := rfl
  preimagesSize := rfl

theorem trans (h₁ : Loses d d') (h₂ : Loses d' d'') : Loses d d'' where
  kept k r'' hr'' := by
    obtain ⟨r', hr', hc', hb'⟩ := h₂.kept k r'' hr''
    obtain ⟨r, hr, hc, hb⟩ := h₁.kept k r' hr'
    exact ⟨r, hr, hc'.trans hc, fun hz => (hb' hz).trans (hb hz)⟩
  fresh k := by
    rw [h₂.fresh, h₁.fresh]
    constructor
    · rintro ⟨⟨hf, h01⟩, h12⟩
      exact ⟨hf, fun hk => h12 (h01 hk)⟩
    · rintro ⟨hf, h02⟩
      exact ⟨⟨hf, fun hk => h₂.contains (h02 hk)⟩, fun hk => h02 (h₁.contains hk)⟩
  rooted hr := h₂.rooted (h₁.rooted hr)
  accounted ha := h₂.accounted (h₁.accounted ha)
  version := h₂.version.trans h₁.version
  useless := h₂.useless.trans h₁.useless
  preimages := h₂.preimages.trans h₁.preimages
  preimagesSize := h₂.preimagesSize.trans h₁.preimagesSize

theorem relink {l : FlushList} {rs : Records}
    (hb : ∀ k : Hash, rs[k]?.map Record.body = d.records[k]?.map Record.body) :
    Loses d { d with flush := l, records := rs } where
  kept k r' hr' := by
    have he := hb k
    rw [hr', Option.map_some, eq_comm, Option.map_eq_some_iff] at he
    obtain ⟨r, hr, he⟩ := he
    have hc : r'.body.core = r.body.core := by rw [he]
    exact ⟨r, hr, hc, fun _ => he.symm⟩
  fresh k := by
    exact (and_iff_left fun hk => (Map.contains_eq_of_map (hb k)).trans hk).symm
  rooted := by
    rintro ⟨r, edges, hr, hedges⟩
    have he := hb Hash.zero
    rw [hr, Option.map_some, Option.map_eq_some_iff] at he
    obtain ⟨r', hr', he⟩ := he
    exact ⟨r', edges, hr', (congrArg Record.edges he).trans hedges⟩
  accounted ha := ha.of_measures (measures_of_body hb) rfl rfl
  version := rfl
  useless := rfl
  preimages := rfl
  preimagesSize := rfl

theorem unlink (d : Dirty) (h : Hash) : Loses d (d.unlink h) :=
  relink FlushList.body_unlink

theorem remove (d : Dirty) (hz : h ≠ Hash.zero) : Loses d (d.remove h) where
  kept k r' hr' := by
    rw [records_remove, Map.get_erase] at hr'
    split at hr'
    · cases hr'
    · exact ⟨r', hr', rfl, fun _ => rfl⟩
  fresh k := by
    rw [records_remove, Dirty.remove]
    split
    · next hg =>
      rw [Map.erase_of_not_contains hg]
      exact (and_iff_left id).symm
    · next r hg =>
      by_cases he : h = k
      · subst k
        simp [Map.contains_of_get hg]
      · simp [he]
  rooted := by
    rintro ⟨r, edges, hr, hedges⟩
    have hr' : (d.remove h).records[Hash.zero]? = some r := by
      rw [records_remove, Map.get_erase, if_neg hz, hr]
    exact ⟨r, edges, hr', hedges⟩
  accounted := (Debits.remove d hz).accounted
  version := by
    rw [Dirty.remove]
    split <;> rfl
  useless := by
    rw [Dirty.remove]
    split <;> rfl
  preimages := by
    rw [Dirty.remove]
    split <;> rfl
  preimagesSize := by
    rw [Dirty.remove]
    split <;> rfl

theorem forgetRoot (d : Dirty) (root : Hash) : Loses d (d.forgetRoot root) := by
  rw [Dirty.forgetRoot]
  split
  · exact refl d
  split
  · next hc hroot =>
    have ha : d.Accounted → (d.forgetRoot root).Accounted := (Debits.forgetRoot d root).accounted
    rw [Dirty.forgetRoot, if_neg hc, if_pos hroot] at ha
    refine ⟨?_, ?_, ?_, ha, rfl, rfl, rfl, rfl⟩
    · intro k r' hr'
      rw [Map.get_modify] at hr'
      split at hr'
      · next hz =>
        obtain ⟨r, hr, rfl⟩ := Option.map_eq_some_iff.1 hr'
        exact ⟨r, hr, rfl, fun hk => absurd hz.symm hk⟩
      · exact ⟨r', hr', rfl, fun _ => rfl⟩
    · intro k
      rw [Std.ExtTreeMap.contains_modify]
      exact (and_iff_left id).symm
    · rintro ⟨r, edges, hr, hedges⟩
      let r' : Record := { r with edges := r.edges.map fun edges => edges.erase root }
      have hr' : (d.records.modify Hash.zero fun r =>
          { r with edges := r.edges.map fun edges => edges.erase root })[Hash.zero]? = some r' := by
        rw [Map.get_modify, if_pos rfl, hr, Option.map_some]
      have hedges' : r'.edges = some (edges.erase root) := by
        dsimp only [r']
        rw [hedges, Option.map_some]
      exact ⟨r', edges.erase root, hr', hedges'⟩
  · exact refl d

theorem removeAll {ns : List (Hash × Record)} (d : Dirty) (hz : ∀ n ∈ ns, n.1 ≠ Hash.zero) :
    Loses d (ns.foldl (fun d n => d.remove n.1) d) := by
  induction ns generalizing d with
  | nil => exact refl d
  | cons n ns ih =>
    have hn : Loses d (d.remove n.1) := remove d (hz n List.mem_cons_self)
    exact hn.trans (ih (d.remove n.1) fun m hm => hz m (List.mem_cons_of_mem n hm))

end Loses

/-- Nodes have left, and the flush list has the others in the same order. -/
structure Shrinks (d d' : Dirty) : Prop extends Loses d d' where
  listed : ∀ order, d.flush.Represents d.records order →
    d'.flush.Represents d'.records (order.filter d'.records.contains)

theorem filter_contains_of_imp {rs rs' : Records} {order : List Hash}
    (himp : ∀ k, rs.contains k → rs'.contains k) :
    order.filter (fun k => rs.contains k && rs'.contains k) = order.filter rs.contains := by
  apply List.filter_congr
  intro k _
  cases hc : rs.contains k with
  | true => rw [himp k hc, Bool.and_self]
  | false => rw [Bool.false_and]

namespace Shrinks

theorem refl (d : Dirty) : Shrinks d d where
  toLoses := .refl d
  listed order hr := by
    have he : order.filter d.records.contains = order := List.filter_eq_self.2 hr.cached
    rw [he]
    exact hr

theorem trans (h₁ : Shrinks d d') (h₂ : Shrinks d' d'') : Shrinks d d'' where
  toLoses := h₁.toLoses.trans h₂.toLoses
  listed order hr := by
    have hr'' := h₂.listed _ (h₁.listed order hr)
    rwa [List.filter_filter, filter_contains_of_imp fun k => h₂.contains] at hr''

theorem unlink_remove (hs : Shrinks (d.unlink h) d') (hz : h ≠ Hash.zero) :
    Shrinks d (d'.remove h) where
  toLoses := ((Loses.unlink d h).trans hs.toLoses).trans (Loses.remove d' hz)
  listed order hr := by
    have hr' := hs.listed _ (hr.unlink h)
    have hh : h ∉ (order.erase h).filter d'.records.contains := fun hm =>
      hr.nodup.not_mem_erase (List.mem_of_mem_filter hm)
    have he : (order.erase h).filter d'.records.contains =
        order.filter (d'.remove h).records.contains := by
      rw [hr.nodup.erase_eq_filter, List.filter_filter, records_remove]
      apply List.filter_congr
      intro k _
      rw [Bool.eq_iff_iff, Map.contains_erase, Bool.and_eq_true, bne_iff_ne, and_comm, ne_comm]
    rw [← he, flush_remove, records_remove]
    exact hr'.erase hh

theorem forgetRoot (d : Dirty) (root : Hash) : Shrinks d (d.forgetRoot root) where
  toLoses := .forgetRoot d root
  listed order hr := by
    rw [Dirty.forgetRoot]
    split
    · exact (refl d).listed order hr
    split
    · have hl : ∀ k : Hash, (d.records.modify Hash.zero fun r =>
          { r with edges := r.edges.map fun edges => edges.erase root })[k]?.map Record.links =
          d.records[k]?.map Record.links := by
        intro k
        exact Map.map_modify _ Hash.zero k fun _ => rfl
      have hr' := hr.congr hl
      rw [List.filter_eq_self.2 hr'.cached]
      exact hr'
    · exact (refl d).listed order hr

theorem uncache (d : Dirty) (hz : h ≠ Hash.zero) : Shrinks d (d.uncache h) :=
  ((refl _).unlink_remove hz).trans (forgetRoot _ h)

end Shrinks

/-- The hash of a cached node that is neither fresh nor of the current version. -/
def Stale (d : Dirty) (h : Hash) : Prop :=
  h ≠ Hash.zero ∧ h ∉ d.fresh ∧ ∃ r, d.records[h]? = some r ∧ r.version < d.version

theorem stale_of_met? (hm : Sweep.met? d h = some r) (hv : r.version < d.version) :
    d.Stale h ∧ d.records[h]? = some r := by
  rw [Sweep.met?] at hm
  split at hm
  · cases hm
  · next hc =>
    rw [Bool.not_eq_true, Bool.or_eq_false_iff] at hc
    refine ⟨⟨of_decide_eq_false hc.1, ?_, r, hm, hv⟩, hm⟩
    rw [← Std.ExtTreeSet.contains_iff_mem, hc.2]
    exact Bool.false_ne_true

theorem Stale.of_loses (hs : d'.Stale h) (hl : Loses d d') : d.Stale h := by
  obtain ⟨hz, hf, r', hr', hv⟩ := hs
  obtain ⟨r, hr, hc, _⟩ := hl.kept h r' hr'
  have hver : r'.version = r.version := congrArg (·.2.2) hc
  refine ⟨hz, ?_, r, hr, ?_⟩
  · intro hm
    exact hf ((hl.fresh h).2 ⟨hm, fun _ => Map.contains_of_get hr'⟩)
  · rw [← hver, ← hl.version]
    exact hv

namespace Sweep

/-- Only stale nodes have left, and only those that have left are named as dropped. -/
structure Progress (s s' : Sweep) : Prop extends Shrinks s.dirty s'.dirty where
  stale : ∀ k, s.dirty.records.contains k → s'.dirty.records.contains k = false → s.dirty.Stale k
  dropped : ∀ k ∈ s'.dropped, k ∈ s.dropped ∨
    s.dirty.records.contains k ∧ s'.dirty.records.contains k = false

variable {s s' s'' : Sweep}

theorem dirty_tick (s : Sweep) : s.tick.dirty = s.dirty := by
  rw [tick]
  split <;> rfl

theorem dropped_tick (s : Sweep) : s.tick.dropped = s.dropped := by
  rw [tick]
  split <;> rfl

theorem dirty_drop (s : Sweep) (h : Hash) : (s.drop h).dirty = s.dirty.remove h := by
  rw [drop, remove]
  cases s.dirty.records[h]? <;> rfl

theorem mem_dropped_drop (hk : k ∈ (s.drop h).dropped) : k = h ∨ k ∈ s.dropped := by
  rw [drop] at hk
  split at hk
  · exact .inr hk
  · dsimp only at hk
    split at hk
    · exact .inr hk
    · exact List.mem_cons.1 hk

section Steps

variable {R : Sweep → Sweep → Prop} (hrefl : ∀ s, R s s)
  (htrans : ∀ s s' s'', R s s' → R s' s'' → R s s'')
include hrefl htrans

theorem rel_foldlM {step : Sweep → Hash → Option Sweep} {hs : List Hash}
    (hstep : ∀ s h s', step s h = some s' → R s s') (hr : hs.foldlM step s = some s') :
    R s s' := by
  induction hs generalizing s with
  | nil =>
    cases hr
    exact hrefl _
  | cons h hs ih =>
    rw [List.foldlM_cons, Option.bind_eq_bind, Option.bind_eq_some_iff] at hr
    obtain ⟨t, ht, hr⟩ := hr
    exact htrans _ _ _ (hstep s h t ht) (ih hr)

/-- What is true of the sweep at each node, as soon as it is of what is below, is true of a whole
sweep. By induction on the depth that is allowed. -/
theorem rel_run {order : Arrangement} {depth : Nat} (htick : ∀ s, R s s.tick)
    (hdrop : ∀ {s h s'}, s.dirty.Stale h →
      R { s with dirty := s.dirty.unlink h } s' → R s (s'.drop h))
    (hr : run order depth s h = some s') : R s s' := by
  induction depth generalizing s h s' with
  | zero => cases hr
  | succ depth ih =>
    rw [run] at hr
    split at hr
    · cases hr
      exact hrefl s
    · next r hm =>
      dsimp only at hr
      split at hr
      · cases hr
        exact htick s
      · next hv =>
        rw [Option.bind_eq_bind, Option.bind_eq_some_iff] at hr
        obtain ⟨t, ht, hr⟩ := hr
        cases hr
        rw [Bool.or_eq_true, not_or, decide_eq_true_eq, Nat.not_le] at hv
        rw [← dirty_tick s] at hm
        have hbelow := rel_foldlM hrefl htrans (fun s h s' => ih) ht
        exact htrans _ _ _ (htick s) (hdrop (stale_of_met? hm hv.2).1 hbelow)

end Steps

namespace Progress

theorem refl (s : Sweep) : Progress s s where
  toShrinks := .refl _
  stale k hk hk' := by
    rw [hk] at hk'
    cases hk'
  dropped _ hk := .inl hk

theorem trans (h₁ : Progress s s') (h₂ : Progress s' s'') : Progress s s'' where
  toShrinks := h₁.toShrinks.trans h₂.toShrinks
  stale k hk hk'' := by
    cases hk' : s'.dirty.records.contains k with
    | true => exact (h₂.stale k hk' hk'').of_loses h₁.toLoses
    | false => exact h₁.stale k hk hk'
  dropped k hk := by
    rcases h₂.dropped k hk with hk | ⟨hk', hk''⟩
    · rcases h₁.dropped k hk with hk | ⟨hk, hk'⟩
      · exact .inl hk
      · right
        constructor
        · exact hk
        · apply Bool.eq_false_iff.2
          intro hk''
          rw [h₂.contains hk''] at hk'
          cases hk'
    · exact .inr ⟨h₁.contains hk', hk''⟩

theorem tick (s : Sweep) : Progress s s.tick where
  toShrinks := by
    rw [dirty_tick]
    exact .refl _
  stale k hk hk' := by
    rw [dirty_tick, hk] at hk'
    cases hk'
  dropped k hk := by
    rw [dropped_tick] at hk
    exact .inl hk

theorem unlink_drop (hp : Progress { s with dirty := s.dirty.unlink h } s')
    (hs : s.dirty.Stale h) : Progress s (s'.drop h) where
  toShrinks := by
    rw [dirty_drop]
    exact hp.toShrinks.unlink_remove hs.1
  stale k hk hk' := by
    rw [dirty_drop, contains_remove_eq_false] at hk'
    rcases hk' with rfl | hk'
    · exact hs
    · exact (hp.stale k ((contains_unlink s.dirty h k).trans hk) hk').of_loses (.unlink s.dirty h)
  dropped k hk := by
    rw [dirty_drop, contains_remove_eq_false]
    rcases mem_dropped_drop hk with rfl | hk
    · obtain ⟨_, _, r, hr, _⟩ := hs
      exact .inr ⟨Map.contains_of_get hr, .inl rfl⟩
    · rcases hp.dropped k hk with hk | ⟨hk, hk'⟩
      · exact .inl hk
      · exact .inr ⟨(contains_unlink s.dirty h k).symm.trans hk, .inr hk'⟩

theorem run {order : Arrangement} {depth : Nat} (hr : Sweep.run order depth s h = some s') :
    Progress s s' :=
  rel_run refl (fun _ _ _ => trans) tick (fun hs hp => hp.unlink_drop hs) hr

end Progress

theorem debits_run {order : Arrangement} {depth : Nat} (hr : run order depth s h = some s') :
    Debits s.dirty s'.dirty := by
  refine rel_run (R := fun s s' => Debits s.dirty s'.dirty) (fun s => .refl s.dirty)
    (fun _ _ _ => .trans) (fun s => ?_) (fun {s h s'} hs hd => ?_) hr
  · rw [dirty_tick]
    exact .refl s.dirty
  · rw [dirty_drop]
    exact ((Debits.unlink s.dirty h).trans hd).trans (.remove s'.dirty hs.1)

end Sweep

section Evict

variable {leaving staying ns : List (Hash × Record)} {order : List Hash}

theorem splitOver_append (limit : Nat) (ns : List (Hash × Record)) (size : Nat) :
    (splitOver limit ns size).1 ++ (splitOver limit ns size).2 = ns := by
  induction ns generalizing size with
  | nil => rfl
  | cons n ns ih =>
    rw [splitOver]
    split
    · rfl
    · exact congrArg (n :: ·) (ih _)

theorem length_le_size (hr : d.flush.Represents d.records order) :
    order.length ≤ d.records.size := by
  rw [← Std.ExtTreeMap.length_keys]
  apply (List.subperm_of_subset hr.nodup _).length_le
  intro k hk
  rw [Std.ExtTreeMap.mem_keys, ← Std.ExtTreeMap.contains_iff_mem]
  exact hr.cached k hk

theorem forward_all (hr : d.flush.Represents d.records order) :
    d.flush.forward d.records d.records.size = order := by
  rw [hr.forward, List.take_of_length_le (length_le_size hr)]

theorem backward_all (hr : d.flush.Represents d.records order) :
    d.flush.backward d.records d.records.size = order.reverse := by
  rw [hr.backward, List.take_of_length_le]
  rw [List.length_reverse]
  exact length_le_size hr

theorem oldestFirst_keys (hr : d.flush.Represents d.records order) :
    d.oldestFirst.map Prod.fst = order := by
  rw [oldestFirst, forward_all hr]
  exact Map.map_fst_lookups id hr.cached

theorem mem_oldestFirst {n : Hash × Record} (hr : d.flush.Represents d.records order)
    (hn : n ∈ d.oldestFirst) : n.1 ∈ order ∧ d.records[n.1]? = some n.2 := by
  constructor
  · rw [← oldestFirst_keys hr]
    exact List.mem_map_of_mem hn
  · obtain ⟨h, _, hg⟩ := List.mem_filterMap.1 hn
    obtain ⟨r, hr, rfl⟩ := Option.map_eq_some_iff.1 hg
    exact hr

theorem get_removeAll (ns : List (Hash × Record)) (d : Dirty) (k : Hash) :
    (ns.foldl (fun d n => d.remove n.1) d).records[k]? =
      if k ∈ ns.map Prod.fst then none else d.records[k]? := by
  induction ns generalizing d with
  | nil => rfl
  | cons n ns ih =>
    rw [List.foldl_cons, ih, records_remove, Map.get_erase, List.map_cons]
    by_cases hk : k = n.1
    · subst hk
      rw [if_pos rfl, ite_self, if_pos List.mem_cons_self]
    · have hm : k ∈ n.1 :: ns.map Prod.fst ↔ k ∈ ns.map Prod.fst := by
        rw [List.mem_cons, or_iff_right hk]
      rw [if_neg (Ne.symm hk)]
      exact if_congr hm.symm rfl rfl

theorem flush_removeAll (ns : List (Hash × Record)) (d : Dirty) :
    (ns.foldl (fun d n => d.remove n.1) d).flush = d.flush := by
  induction ns generalizing d with
  | nil => rfl
  | cons n ns ih => rw [List.foldl_cons, ih, flush_remove]

theorem body_evict (d : Dirty) (leaving staying : List (Hash × Record)) (k : Hash) :
    (d.evict leaving staying).records[k]?.map Record.body =
      if k ∈ leaving.map Prod.fst then none else d.records[k]?.map Record.body := by
  rw [evict]
  dsimp only
  rw [FlushList.body_truncateFront, get_removeAll]
  split <;> rfl

theorem contains_evict (d : Dirty) (leaving staying : List (Hash × Record)) (k : Hash) :
    (d.evict leaving staying).records.contains k ↔
      d.records.contains k ∧ k ∉ leaving.map Prod.fst := by
  have hb := congrArg Option.isSome (body_evict d leaving staying k)
  rw [Option.isSome_map, ← Std.ExtTreeMap.contains_eq_isSome_getElem?] at hb
  rw [hb]
  split
  · next hm => simp [hm]
  · next hm =>
    rw [Option.isSome_map, ← Std.ExtTreeMap.contains_eq_isSome_getElem?]
    exact (and_iff_left hm).symm

theorem Shrinks.evict (hs : leaving ++ staying = d.oldestFirst)
    (hz : ∀ n ∈ leaving, n.1 ≠ Hash.zero) : Shrinks d (d.evict leaving staying) where
  toLoses := (Loses.removeAll d hz).trans (.relink (FlushList.body_truncateFront _))
  listed order hr := by
    have hkeys : leaving.map Prod.fst ++ staying.map Prod.fst = order := by
      rw [← List.map_append, hs, oldestFirst_keys hr]
    have hhead : staying.head?.map Prod.fst = (staying.map Prod.fst).head? := List.head?_map.symm
    have hr' := (hkeys ▸ hr).truncateFront (get_removeAll leaving d)
    have hdis := List.nodup_append.1 (hkeys.symm ▸ hr.nodup)
    have hp : (leaving.map Prod.fst).filter (d.evict leaving staying).records.contains = [] := by
      rw [List.filter_eq_nil_iff]
      intro k hk hc
      exact ((contains_evict d leaving staying k).1 hc).2 hk
    have hq : (staying.map Prod.fst).filter (d.evict leaving staying).records.contains =
        staying.map Prod.fst := by
      rw [List.filter_eq_self]
      intro k hk
      have hc := hr.cached k (hkeys ▸ List.mem_append_right _ hk)
      exact (contains_evict d leaving staying k).2 ⟨hc, fun hm => hdis.2.2 k hm k hk rfl⟩
    rw [← hkeys, List.filter_append, hp, hq, List.nil_append, Dirty.evict, flush_removeAll, hhead]
    exact hr'

end Evict

end TrieCache.Dirty
