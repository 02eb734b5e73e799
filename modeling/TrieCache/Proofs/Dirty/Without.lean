import Mathlib.Algebra.Order.BigOperators.Group.List
import TrieCache.Proofs.Dirty.Shrinks

namespace TrieCache.Dirty

/-- Of what is recorded under `k` only the edges of the meta-root lose something. -/
def Record.forget (gone : List Hash) (k : Hash) (r : Record) : Record :=
  if k = Hash.zero then { r with edges := r.edges.map fun edges => Map.eraseAll edges gone } else r

def payloadOf (d : Dirty) (h : Hash) : Nat := (d.records[h]?.map Record.payload).getD 0

def edgesSizeOf (d : Dirty) (h : Hash) : Nat :=
  (d.records[h]?.map Record.edgesSize).getD 0 + if d.roots.contains h then edgeCost else 0

/-- The nodes `gone` have left memory. Of the other nodes only the links differ, and the list has
these in the same order. -/
structure Sheds (gone : List Hash) (d d' : Dirty) : Prop where
  nonzero : Hash.zero ∉ gone
  bodies : ∀ k : Hash, k ≠ Hash.zero → d'.records[k]?.map Record.body =
    if k ∈ gone then none else d.records[k]?.map Record.body
  listed : d'.flush.Represents d'.records
    ((d.flush.forward d.records d.records.size).filter (· ∉ gone))

/-- The nodes `gone` have left altogether: they are not fresh and cost nothing either, and the
meta-root has no edges to them. All else is as it was. -/
structure Without (gone : List Hash) (d d' : Dirty) : Prop extends Sheds gone d d' where
  metaRoot : d'.records[Hash.zero]?.map Record.body =
    (d.records[Hash.zero]?.map Record.body).map (·.forget gone Hash.zero)
  fresh : ∀ k, k ∈ d'.fresh ↔ k ∈ d.fresh ∧ k ∉ gone
  dirtiesSize : d'.dirtiesSize = d.dirtiesSize - (gone.map d.payloadOf).sum
  childrenSize : d'.childrenSize = d.childrenSize - (gone.map d.edgesSizeOf).sum
  version : d'.version = d.version
  useless : d'.useless = d.useless
  preimages : d'.preimages = d.preimages
  preimagesSize : d'.preimagesSize = d.preimagesSize
  stats : d'.stats = d.stats

attribute [ext] Dirty

variable {d d' d'' : Dirty} {gone gone' order : List Hash} {h k : Hash} {r : Record}

theorem Record.forget_nil (k : Hash) (r : Record) : r.forget [] k = r := by
  rw [forget]
  split
  · cases r with | mk _ _ _ edges => cases edges <;> rfl
  · rfl

theorem Record.map_forget (hz : k ≠ Hash.zero) (r : Option Record) :
    r.map (·.forget gone k) = r := by
  have hforget : (fun r : Record => r.forget gone k) = id := by
    funext r
    rw [forget, if_neg hz, id]
  rw [hforget, Option.map_id_fun, id]

theorem Record.forget_append (gone gone' : List Hash) (k : Hash) (r : Record) :
    (r.forget gone k).forget gone' k = r.forget (gone ++ gone') k := by
  simp only [forget]
  split
  · simp only [Option.map_map]
    congr 2
    funext edges
    exact (Map.eraseAll_append edges gone gone').symm
  · rfl

theorem Record.forget_congr (hm : ∀ k, k ∈ gone ↔ k ∈ gone') (k : Hash) (r : Record) :
    r.forget gone k = r.forget gone' k := by
  have he : ∀ edges : HashMap Nat, Map.eraseAll edges gone = Map.eraseAll edges gone' := by
    intro edges
    apply Std.ExtTreeMap.ext_getElem?
    intro a
    rw [Map.get_eraseAll, Map.get_eraseAll]
    exact if_congr (hm a) rfl rfl
  simp only [forget, he]

section Uncache

theorem roots_unlink (d : Dirty) (h : Hash) : (d.unlink h).roots = d.roots :=
  roots_of_measures (measures_of_body FlushList.body_unlink)

theorem roots_remove (d : Dirty) (hz : h ≠ Hash.zero) : (d.remove h).roots = d.roots := by
  rw [roots, roots, records_remove, Map.get_erase, if_neg hz]

theorem body_forgetRoot (hc : d.records.contains h = false) (k : Hash) :
    (d.forgetRoot h).records[k]?.map Record.body =
      (d.records[k]?.map Record.body).map (·.forget [h] k) := by
  rw [forgetRoot, if_neg (by rw [hc]; exact Bool.false_ne_true)]
  by_cases hz : k = Hash.zero
  · subst hz
    split
    · rw [Map.get_modify, if_pos rfl, Option.map_map, Option.map_map]
      rfl
    · next hr =>
      rw [roots] at hr
      cases hg : d.records[Hash.zero]? with
      | none => rfl
      | some r =>
        rw [hg] at hr
        rw [Option.map_some, Option.map_some, Option.some.injEq]
        cases r with
        | mk content size parents edges prev next version =>
          cases edges with
          | none => rfl
          | some edges =>
            have he : Map.eraseAll edges [h] = edges :=
              Map.erase_of_not_contains (Map.contains_eq_false_iff.1 (Bool.eq_false_iff.2 hr))
            simp only [Record.body, Record.relink, Record.forget, ↓reduceIte, Option.map_some, he]
  · rw [Record.map_forget hz]
    split
    · rw [Map.get_modify, if_neg (Ne.symm hz)]
    · rfl

theorem uncache_eq (hz : h ≠ Hash.zero) (hr : d.records[h]? = some r) :
    d.uncache h = { d with
      records := (d.uncache h).records
      flush := (d.unlink h).flush
      fresh := d.fresh.erase h
      dirtiesSize := d.dirtiesSize - r.payload
      childrenSize := d.childrenSize -
        (r.edgesSize + if d.roots.contains h then edgeCost else 0) } := by
  have hunlink : (d.unlink h).records[h]?.map Record.body = some r.body := by
    rw [← Option.map_some, ← hr]
    exact FlushList.body_unlink h
  obtain ⟨r', hr', hbody⟩ := Option.map_eq_some_iff.1 hunlink
  have hpayload : r'.body.payload = r.body.payload := by rw [hbody]
  have hedges : r'.body.edgesSize = r.body.edgesSize := by rw [hbody]
  have hremove : (d.unlink h).remove h = { d with
      records := (d.unlink h).records.erase h
      flush := (d.unlink h).flush
      fresh := d.fresh.erase h
      dirtiesSize := d.dirtiesSize - r'.body.payload
      childrenSize := d.childrenSize - r'.body.edgesSize } := by
    rw [remove, hr']
    rfl
  rw [hpayload, hedges] at hremove
  have hroots : ((d.unlink h).remove h).roots = d.roots :=
    (roots_remove _ hz).trans (roots_unlink d h)
  have hnone : ((d.unlink h).remove h).records.contains h = false :=
    contains_remove_eq_false.2 (.inl rfl)
  rw [uncache, forgetRoot, if_neg (by rw [hnone]; exact Bool.false_ne_true), hroots]
  split
  · rw [hremove, Nat.sub_sub]
    rfl
  · rw [hremove, Nat.add_zero]
    rfl

theorem without_uncache (hrep : d.flush.Represents d.records order) (hz : h ≠ Hash.zero)
    (hr : d.records[h]? = some r) : Without [h] d (d.uncache h) := by
  have he := uncache_eq hz hr
  have hbody : ∀ k, (d.uncache h).records[k]?.map Record.body =
      if k = h then none else (d.records[k]?.map Record.body).map (·.forget [h] k) := by
    intro k
    have hnone : ((d.unlink h).remove h).records.contains h = false :=
      contains_remove_eq_false.2 (.inl rfl)
    rw [uncache, body_forgetRoot hnone, records_remove, Map.get_erase]
    by_cases hk : h = k
    · rw [if_pos hk, if_pos hk.symm]
      rfl
    · rw [if_neg hk, if_neg (Ne.symm hk)]
      exact congrArg (Option.map _) (FlushList.body_unlink k)
  refine ⟨⟨?_, ?_, ?_⟩, ?_, ?_, ?_, ?_, ?_, ?_, ?_, ?_, ?_⟩
  · exact fun hm => hz (List.mem_singleton.1 hm).symm
  · intro k hk
    rw [hbody, Record.map_forget hk]
    exact if_congr List.mem_singleton.symm rfl rfl
  · have hkept : order.filter (d.uncache h).records.contains = order.filter (· ∉ [h]) := by
      apply List.filter_congr
      intro k hk
      have hiff := contains_uncache_eq_false (d := d) (h := h) (k := k)
      rw [hrep.cached k hk] at hiff
      rw [Bool.eq_iff_iff, decide_eq_true_eq, List.mem_singleton, ← Bool.not_eq_false, hiff]
      simp
    rw [forward_all hrep, ← hkept]
    exact (Shrinks.uncache d hz).listed order hrep
  · rw [hbody, if_neg (Ne.symm hz)]
  · intro k
    rw [he, List.mem_singleton]
    dsimp only
    rw [Std.ExtTreeSet.mem_erase, ne_eq, Std.LawfulEqOrd.compare_eq_iff_eq, and_comm, eq_comm]
  · rw [he, List.map_singleton, List.sum_singleton, payloadOf, hr]
    rfl
  · rw [he, List.map_singleton, List.sum_singleton, edgesSizeOf, hr]
    rfl
  all_goals rw [he]

end Uncache

namespace Sheds

theorem body_eq (hs : Sheds gone d d') (hz : k ≠ Hash.zero) (hk : k ∉ gone) :
    d'.records[k]?.map Record.body = d.records[k]?.map Record.body := by
  rw [hs.bodies k hz, if_neg hk]

theorem map_eq {α : Type} (hs : Sheds gone d d') (hz : k ≠ Hash.zero) (hk : k ∉ gone)
    (f : Record → α) :
    d'.records[k]?.map (f ∘ Record.body) = d.records[k]?.map (f ∘ Record.body) := by
  rw [← Option.map_map, hs.body_eq hz hk, Option.map_map]

theorem congr {e e' : Dirty} (hs : Sheds gone d d') (hrecords : e.records = d.records)
    (hflush : e.flush = d.flush) (hrecords' : e'.records = d'.records)
    (hflush' : e'.flush = d'.flush) : Sheds gone e e' where
  nonzero := hs.nonzero
  bodies := hrecords' ▸ hrecords ▸ hs.bodies
  listed := hrecords' ▸ hflush' ▸ hrecords ▸ hflush ▸ hs.listed

theorem append (h₁ : Sheds gone d d') (h₂ : Sheds gone' d' d'') :
    Sheds (gone ++ gone') d d'' where
  nonzero hm := (List.mem_append.1 hm).elim h₁.nonzero h₂.nonzero
  bodies k hz := by
    rw [h₂.bodies k hz, h₁.bodies k hz]
    by_cases hk : k ∈ gone <;> by_cases hk' : k ∈ gone' <;> simp [hk, hk']
  listed := by
    have hr := h₂.listed
    rw [forward_all h₁.listed, List.filter_filter] at hr
    have he : (fun k => decide (k ∉ gone') && decide (k ∉ gone)) =
        fun k => decide (k ∉ gone ++ gone') := by
      funext k
      simp [Bool.and_comm]
    exact he ▸ hr

theorem perm (hs : Sheds gone d d') (hp : gone.Perm gone') : Sheds gone' d d' where
  nonzero hm := hs.nonzero (hp.mem_iff.2 hm)
  bodies k hz := (hs.bodies k hz).trans (if_congr hp.mem_iff rfl rfl)
  listed := by
    have he : (fun k => decide (k ∉ gone')) = fun k => decide (k ∉ gone) := by
      funext k
      rw [decide_eq_decide, hp.mem_iff]
    exact he ▸ hs.listed

theorem nodes (hs : Sheds gone d d') (k : Hash) : d'.nodes[k]?.map Record.body =
    if k ∈ gone then none else d.nodes[k]?.map Record.body := by
  rw [get_nodes, get_nodes]
  by_cases hz : Hash.zero = k
  · rw [if_pos hz, if_pos hz]
    exact (ite_self _).symm
  · rw [if_neg hz, if_neg hz]
    exact hs.bodies k (Ne.symm hz)

theorem contains_nodes (hk : k ≠ Hash.zero ∧ d.records.contains k) : d.nodes.contains k := by
  obtain ⟨r, hr⟩ := Map.contains_iff.1 hk.2
  exact Map.contains_of_get ((get_nodes_of_ne hk.1).trans hr)

section Sizes

variable (hs : Sheds gone d d') (hn : gone.Nodup)
  (hg : ∀ k ∈ gone, k ≠ Hash.zero ∧ d.records.contains k) (hroots : d'.roots.size ≤ d.roots.size)
include hs hn hg hroots

theorem bytes_le : d'.bytes ≤ d.bytes := by
  have ht := Map.total_of_gone hn (fun k hk => contains_nodes (hg k hk)) hs.nodes Record.bytes
  have hbody : Record.bytes ∘ Record.body = Record.bytes := rfl
  have hedges := Nat.mul_le_mul_left edgeCost hroots
  rw [hbody] at ht
  rw [bytes, bytes]
  omega

end Sizes

end Sheds

namespace Without

theorem refl (hr : d.flush.Represents d.records order) : Without [] d d where
  nonzero := List.not_mem_nil
  bodies _ _ := (if_neg List.not_mem_nil).symm
  listed := by simpa [forward_all hr] using hr
  metaRoot := by
    have he : (fun r : Record => r.forget [] Hash.zero) = id :=
      funext (Record.forget_nil Hash.zero)
    rw [he, Option.map_id_fun, id]
  fresh k := by simp
  dirtiesSize := rfl
  childrenSize := rfl
  version := rfl
  useless := rfl
  preimages := rfl
  preimagesSize := rfl
  stats := rfl

theorem contains_iff (hw : Without gone d d') (k : Hash) :
    d'.records.contains k ↔ k ∉ gone ∧ d.records.contains k := by
  simp only [Std.ExtTreeMap.contains_eq_isSome_getElem?]
  by_cases hz : k = Hash.zero
  · have hsome := congrArg Option.isSome hw.metaRoot
    rw [Option.isSome_map, Option.isSome_map, Option.isSome_map] at hsome
    rw [hz, hsome]
    exact (and_iff_right hw.nonzero).symm
  · have hsome := congrArg Option.isSome (hw.bodies k hz)
    rw [Option.isSome_map] at hsome
    rw [hsome]
    split
    · next hk => simp [hk]
    · next hk =>
      rw [Option.isSome_map]
      exact (and_iff_right hk).symm

theorem roots_eq (hw : Without gone d d') : d'.roots = Map.eraseAll d.roots gone := by
  have hempty : Map.eraseAll (∅ : HashMap Nat) gone = ∅ := by
    apply Std.ExtTreeMap.ext_getElem?
    intro a
    rw [Map.get_eraseAll, Std.ExtTreeMap.getElem?_empty, ite_self]
  have hr := hw.metaRoot
  rw [roots, roots]
  cases hg : d.records[Hash.zero]? with
  | none =>
    rw [hg, Option.map_none, Option.map_none, Option.map_eq_none_iff] at hr
    rw [hr, hempty]
  | some r =>
    rw [hg, Option.map_some, Option.map_some, Option.map_eq_some_iff] at hr
    obtain ⟨r', hr', he⟩ := hr
    have hedges : r'.edges = r.edges.map fun edges => Map.eraseAll edges gone := by
      have he' := congrArg Record.edges he
      rwa [Record.forget, if_pos rfl] at he'
    rw [hr']
    dsimp only
    rw [hedges]
    cases r.edges with
    | none => exact hempty.symm
    | some edges => rfl

theorem append (h₁ : Without gone d d') (h₂ : Without gone' d' d'')
    (hdis : ∀ k ∈ gone', k ∉ gone) : Without (gone ++ gone') d d'' where
  toSheds := h₁.toSheds.append h₂.toSheds
  metaRoot := by
    have he : (fun r : Record => r.forget (gone ++ gone') Hash.zero) =
        (·.forget gone' Hash.zero) ∘ (·.forget gone Hash.zero) :=
      funext fun r => (Record.forget_append gone gone' Hash.zero r).symm
    rw [h₂.metaRoot, h₁.metaRoot, he, ← Option.map_map]
  fresh k := by rw [h₂.fresh, h₁.fresh, List.mem_append, not_or, and_assoc]
  dirtiesSize := by
    have he : gone'.map d'.payloadOf = gone'.map d.payloadOf := by
      apply List.map_congr_left
      intro k hk
      have hz := ne_of_mem_of_not_mem hk h₂.nonzero
      exact congrArg (·.getD 0) (h₁.map_eq hz (hdis k hk) Record.payload)
    rw [h₂.dirtiesSize, h₁.dirtiesSize, he, List.map_append, List.sum_append, Nat.sub_sub]
  childrenSize := by
    have he : gone'.map d'.edgesSizeOf = gone'.map d.edgesSizeOf := by
      apply List.map_congr_left
      intro k hk
      have hz := ne_of_mem_of_not_mem hk h₂.nonzero
      have hedges := congrArg (·.getD 0) (h₁.map_eq hz (hdis k hk) Record.edgesSize)
      have hroot : d'.roots.contains k = d.roots.contains k := by
        rw [h₁.roots_eq, Std.ExtTreeMap.contains_eq_isSome_getElem?, Map.get_eraseAll,
          if_neg (hdis k hk), ← Std.ExtTreeMap.contains_eq_isSome_getElem?]
      rw [edgesSizeOf, edgesSizeOf, hroot]
      exact congrArg (· + _) hedges
    rw [h₂.childrenSize, h₁.childrenSize, he, List.map_append, List.sum_append, Nat.sub_sub]
  version := h₂.version.trans h₁.version
  useless := h₂.useless.trans h₁.useless
  preimages := h₂.preimages.trans h₁.preimages
  preimagesSize := h₂.preimagesSize.trans h₁.preimagesSize
  stats := h₂.stats.trans h₁.stats

theorem perm (hw : Without gone d d') (hp : gone.Perm gone') : Without gone' d d' where
  toSheds := hw.toSheds.perm hp
  metaRoot := by
    have he : (fun r : Record => r.forget gone' Hash.zero) = (·.forget gone Hash.zero) :=
      funext fun r => (Record.forget_congr (fun _ => hp.mem_iff) Hash.zero r).symm
    rw [hw.metaRoot, he]
  fresh k := by rw [hw.fresh, hp.mem_iff]
  dirtiesSize := by rw [hw.dirtiesSize, (hp.map _).sum_eq]
  childrenSize := by rw [hw.childrenSize, (hp.map _).sum_eq]
  version := hw.version
  useless := hw.useless
  preimages := hw.preimages
  preimagesSize := hw.preimagesSize
  stats := hw.stats

theorem unique (h₁ : Without gone d d') (h₂ : Without gone' d d'') (hp : gone'.Perm gone) :
    d'' = d' := by
  have h₃ := h₂.perm hp
  have hbodies : ∀ k : Hash,
      d''.records[k]?.map Record.body = d'.records[k]?.map Record.body := by
    intro k
    by_cases hz : k = Hash.zero
    · rw [hz, h₃.metaRoot, h₁.metaRoot]
    · rw [h₃.bodies k hz, h₁.bodies k hz]
  obtain ⟨hflush, hrecords⟩ := h₁.listed.unique h₃.listed hbodies
  apply Dirty.ext
  case records => exact hrecords
  case flush => exact hflush
  case fresh => exact Std.ExtTreeSet.ext_mem fun k => (h₃.fresh k).trans (h₁.fresh k).symm
  case version => exact h₃.version.trans h₁.version.symm
  case useless => exact h₃.useless.trans h₁.useless.symm
  case preimages => exact h₃.preimages.trans h₁.preimages.symm
  case dirtiesSize => exact h₃.dirtiesSize.trans h₁.dirtiesSize.symm
  case childrenSize => exact h₃.childrenSize.trans h₁.childrenSize.symm
  case preimagesSize => exact h₃.preimagesSize.trans h₁.preimagesSize.symm
  case stats => exact h₃.stats.trans h₁.stats.symm

end Without

end TrieCache.Dirty
