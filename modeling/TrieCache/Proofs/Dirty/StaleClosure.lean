import TrieCache.Proofs.Dirty.Postorder
import TrieCache.Proofs.Dirty.Shrinks

namespace TrieCache.Dirty

section Graph

variable {next : Hash → Option (List Hash)} {gone children : List Hash} {h k : Hash}

/-- Nothing that can be entered from the nodes `gone` lies outside of them. -/
def Closed (next : Hash → Option (List Hash)) (gone : List Hash) : Prop :=
  ∀ h ∈ gone, ∀ k, Reaches next h k → k ∈ gone

theorem Reaches.trans {a : Hash} (h₁ : Reaches next h a) (h₂ : Reaches next a k) :
    Reaches next h k := by
  induction h₁ with
  | refl _ => exact h₂
  | head hn hc _ ih => exact .head hn hc (ih h₂)

theorem Reaches.of_restrict {p : Hash → Prop} [DecidablePred p]
    (hr : Reaches (restrict p next) h k) : Reaches next h k :=
  hr.mono fun _ children hn => ⟨children, (restrict_eq_some.1 hn).2, List.Subset.refl _⟩

theorem Reaches.avoid (hr : Reaches next h k) (hc : Closed next gone) (hk : k ∉ gone) :
    Reaches (restrict (· ∉ gone) next) h k := by
  induction hr with
  | @refl h hs =>
    refine .refl ?_
    rw [restrict, if_pos hk]
    exact hs
  | @head h c k children hn hm hr ih =>
    have hh : h ∉ gone := fun hh => hk (hc h hh k (.head hn hm hr))
    exact .head (restrict_eq_some.2 ⟨hh, hn⟩) hm (ih hk)

theorem Acyclic.to_restrict {p : Hash → Prop} [DecidablePred p] (ha : Acyclic next h) :
    Acyclic (restrict p next) h :=
  fun a children c hr hn hc hback =>
    ha a children c hr.of_restrict (restrict_eq_some.1 hn).2 hc hback.of_restrict

theorem Acyclic.of_restrict (hc : Closed next gone)
    (hgone : ∀ a ∈ gone, Acyclic next a)
    (ha : Acyclic (restrict (· ∉ gone) next) h) : Acyclic next h := by
  intro a children c hr hn hm hback
  have hs : (next a).isSome := by rw [hn, Option.isSome_some]
  by_cases hg : a ∈ gone
  · exact hgone a hg a children c (.refl hs) hn hm hback
  · exact ha a children c (hr.avoid hc hg) (restrict_eq_some.2 ⟨hg, hn⟩) hm (hback.avoid hc hg)

theorem Acyclic.reached (ha : Acyclic next h) (hr : Reaches next h k) : Acyclic next k :=
  fun a children c hr' => ha a children c (hr.trans hr')

theorem Acyclic.of_children (hn : next h = some children) (hc : ∀ c ∈ children, Acyclic next c) :
    Acyclic next h := by
  intro a children' c hr hn' hm hback
  cases hr with
  | refl _ =>
    -- A cycle through `h` leads through the child it goes on to.
    rw [hn, Option.some.injEq] at hn'
    subst hn'
    exact hc c hm _ _ c hback hn hm hback
  | head hn'' hm' hr =>
    rw [hn, Option.some.injEq] at hn''
    subst hn''
    exact hc _ hm' a children' c hr hn' hm hback

theorem Acyclic.of_none (hn : next h = none) : Acyclic next h := by
  intro a children c hr
  cases hr with
  | refl hs =>
    rw [hn] at hs
    cases hs
  | head hn' _ _ =>
    rw [hn] at hn'
    cases hn'

end Graph

def Sweep.stale? (d : Dirty) (h : Hash) : Option Record :=
  (met? d h).filter fun r => decide (r.version < d.version)

/-- The children of a stale node. -/
def staleEdges (d : Dirty) (h : Hash) : Option (List Hash) :=
  (Sweep.stale? d h).map Record.children

/-- Whether the node under `h` is cached and not a raw blob. -/
def isCollapsed (d : Dirty) (h : Hash) : Bool := d.records[h]?.any fun r => !r.isRaw

variable {d d' : Dirty} {gone gone' : List Hash} {h k : Hash} {r : Record}

theorem stale_of_stale? (hs : Sweep.stale? d h = some r) :
    d.Stale h ∧ d.records[h]? = some r := by
  rw [Sweep.stale?, Option.filter_eq_some_iff, decide_eq_true_eq] at hs
  exact stale_of_met? hs.1 hs.2

theorem staleEdges_congr (hf : d'.fresh = d.fresh) (hv : d'.version = d.version)
    (hb : d'.records[h]?.map Record.body = d.records[h]?.map Record.body) :
    d'.staleEdges h = d.staleEdges h := by
  rw [staleEdges, staleEdges, Sweep.stale?, Sweep.stale?, Sweep.met?, Sweep.met?, hf, hv]
  split
  · rfl
  · cases hg : d.records[h]? with
    | none =>
      rw [hg, Option.map_none, Option.map_eq_none_iff] at hb
      rw [hb]
    | some r =>
      rw [hg, Option.map_some, Option.map_eq_some_iff] at hb
      obtain ⟨r', hg', hb⟩ := hb
      have hversion : r'.body.version = r.body.version := by rw [hb]
      have hchildren : r'.body.children = r.body.children := by rw [hb]
      change r'.version = r.version at hversion
      rw [hg', Option.filter_some, Option.filter_some, hversion]
      split
      · exact congrArg some hchildren
      · rfl

theorem staleEdges_unlink (d : Dirty) (h : Hash) : (d.unlink h).staleEdges = d.staleEdges :=
  funext fun k => staleEdges_congr rfl rfl (FlushList.body_unlink k)

theorem isSome_staleEdges_iff : (d.staleEdges h).isSome ↔ d.Stale h := by
  rw [staleEdges, Option.isSome_map]
  constructor
  · intro hs
    obtain ⟨r, hs⟩ := Option.isSome_iff_exists.1 hs
    exact (stale_of_stale? hs).1
  · rintro ⟨hz, hf, r, hr, hv⟩
    rw [Sweep.stale?, Sweep.met?, if_neg, hr, Option.filter_some, if_pos (decide_eq_true hv),
      Option.isSome_some]
    simp [Hash.isZero, hz, hf]

theorem staleEdges_of_none (hn : d.records[h]? = none) : d.staleEdges h = none := by
  rw [staleEdges, Sweep.stale?, Sweep.met?, hn]
  split <;> rfl

theorem mem_keys_of_staleEdges (hs : (d.staleEdges h).isSome) : h ∈ d.records.keys := by
  refine mem_keys_of_isSome (f := Record.body) ?_
  rw [Option.isSome_map]
  cases hg : d.records[h]? with
  | none =>
    rw [staleEdges_of_none hg] at hs
    cases hs
  | some r => rfl

namespace Sweep

variable {s s' s'' : Sweep} {starts : List Hash}

/-- Just the nodes `gone` have been dropped. The others keep all but their links, and nothing else
has changed but the sums. -/
structure Drops (gone : List Hash) (s s' : Sweep) : Prop where
  bodies : ∀ k : Hash, s'.dirty.records[k]?.map Record.body =
    if k ∈ gone then none else s.dirty.records[k]?.map Record.body
  stale : ∀ k ∈ gone, (s.dirty.staleEdges k).isSome
  nodup : gone.Nodup
  rest : s'.dirty = { s.dirty with
    records := s'.dirty.records
    flush := s'.dirty.flush
    dirtiesSize := s'.dirty.dirtiesSize
    childrenSize := s'.dirty.childrenSize }
  dropped : s'.dropped = gone.filter s.dirty.isCollapsed ++ s.dropped

theorem isCollapsed_congr (hb : d'.records[h]?.map Record.body = d.records[h]?.map Record.body) :
    d'.isCollapsed h = d.isCollapsed h := by
  have hany : ∀ o : Option Record,
      o.any (fun r => !r.isRaw) = (o.map Record.body).any fun r => !r.isRaw := by
    intro o
    cases o <;> rfl
  rw [isCollapsed, isCollapsed, hany, hb, ← hany]

namespace Drops

theorem refl (s : Sweep) : Drops [] s s where
  bodies _ := (if_neg List.not_mem_nil).symm
  stale := nofun
  nodup := List.nodup_nil
  rest := rfl
  dropped := rfl

theorem fresh (hd : Drops gone s s') : s'.dirty.fresh = s.dirty.fresh := by rw [hd.rest]

theorem version (hd : Drops gone s s') : s'.dirty.version = s.dirty.version := by rw [hd.rest]

theorem bodies_eq (hd : Drops gone s s') (hk : k ∉ gone) :
    s'.dirty.records[k]?.map Record.body = s.dirty.records[k]?.map Record.body := by
  rw [hd.bodies, if_neg hk]

theorem staleEdges_eq (hd : Drops gone s s') :
    s'.dirty.staleEdges = restrict (· ∉ gone) s.dirty.staleEdges := by
  funext k
  rw [restrict]
  split
  · next hk => exact staleEdges_congr hd.fresh hd.version (hd.bodies_eq hk)
  · next hk =>
    have hb := hd.bodies k
    rw [if_pos (not_not.1 hk), Option.map_eq_none_iff] at hb
    exact staleEdges_of_none hb

theorem trans (h₁ : Drops gone s s') (h₂ : Drops gone' s' s'') : Drops (gone' ++ gone) s s'' := by
  have hnew : ∀ k ∈ gone', k ∉ gone ∧ (s.dirty.staleEdges k).isSome := by
    intro k hk
    have hs := h₂.stale k hk
    rw [h₁.staleEdges_eq, restrict] at hs
    split at hs
    · next hg => exact ⟨hg, hs⟩
    · cases hs
  refine ⟨fun k => ?_, fun k hk => ?_, ?_, ?_, ?_⟩
  · rw [h₂.bodies, h₁.bodies]
    by_cases hk : k ∈ gone' <;> simp [hk]
  · rcases List.mem_append.1 hk with hk | hk
    · exact (hnew k hk).2
    · exact h₁.stale k hk
  · exact h₂.nodup.append h₁.nodup fun k hk' hk => (hnew k hk').1 hk
  · rw [h₂.rest, h₁.rest]
  · have hsame : gone'.filter s'.dirty.isCollapsed = gone'.filter s.dirty.isCollapsed :=
      List.filter_congr fun k hk => isCollapsed_congr (h₁.bodies_eq (hnew k hk).1)
    rw [h₂.dropped, h₁.dropped, List.filter_append, List.append_assoc, hsame]

theorem unlink_drop (hd : Drops gone { s with dirty := s.dirty.unlink h } s')
    (hs : stale? s.dirty h = some r) (hh : h ∉ gone) : Drops (h :: gone) s (s'.drop h) := by
  have hb : ∀ k : Hash, (s.dirty.unlink h).records[k]?.map Record.body =
      s.dirty.records[k]?.map Record.body := FlushList.body_unlink
  obtain ⟨⟨_, hfresh, _⟩, hg⟩ := stale_of_stale? hs
  have hbody := (hd.bodies_eq hh).trans (hb h)
  rw [hg, Option.map_some, Option.map_eq_some_iff] at hbody
  obtain ⟨r', hg', hbody⟩ := hbody
  have hfresh' : s'.dirty.fresh.erase h = s'.dirty.fresh := by
    apply Std.ExtTreeSet.ext_mem
    intro k
    rw [Std.ExtTreeSet.mem_erase, ne_eq, Std.LawfulEqOrd.compare_eq_iff_eq, and_iff_right_iff_imp]
    intro hk he
    exact hfresh (he ▸ hd.fresh ▸ hk)
  refine ⟨fun k => ?_, fun k hk => ?_, List.nodup_cons.2 ⟨hh, hd.nodup⟩, ?_, ?_⟩
  · rw [dirty_drop, records_remove, Map.get_erase]
    by_cases hk : h = k
    · rw [if_pos hk, if_pos (List.mem_cons.2 (.inl hk.symm))]
      rfl
    · rw [if_neg hk, hd.bodies, hb]
      simp only [List.mem_cons, Ne.symm hk, false_or]
  · rcases List.mem_cons.1 hk with rfl | hk
    · rw [staleEdges, hs, Option.map_some, Option.isSome_some]
    · exact s.dirty.staleEdges_unlink h ▸ hd.stale k hk
  · rw [dirty_drop, remove, hg']
    dsimp only
    rw [hfresh', hd.rest]
    rfl
  · have hraw : r'.body.isRaw = r.body.isRaw := by rw [hbody]
    have hsame : gone.filter (s.dirty.unlink h).isCollapsed = gone.filter s.dirty.isCollapsed :=
      List.filter_congr fun k _ => isCollapsed_congr (hb k)
    have hdropped := hd.dropped
    rw [hsame] at hdropped
    change r'.isRaw = r.isRaw at hraw
    rw [drop, hg', List.filter_cons, isCollapsed, hg, Option.any_some, ← hraw, hdropped]
    dsimp only
    cases r'.isRaw <;> rfl

end Drops

/-- The nodes dropped are those that are reached from `starts` through stale nodes. -/
def Covers (starts gone : List Hash) (s : Sweep) : Prop :=
  ∀ k, k ∈ gone ↔ ∃ h ∈ starts, Reaches s.dirty.staleEdges h k

theorem Covers.congr {starts' : List Hash} (hc : Covers starts gone s)
    (hm : ∀ h, h ∈ starts ↔ h ∈ starts') : Covers starts' gone s := by
  intro k
  simp only [← hm]
  exact hc k

theorem Covers.closed (hc : Covers starts gone s) : Closed s.dirty.staleEdges gone := by
  intro a ha k hr
  obtain ⟨h, hh, hr'⟩ := (hc a).1 ha
  exact (hc k).2 ⟨h, hh, hr'.trans hr⟩

/-- Sweeping from one node after the other: what an earlier sweep has dropped is no longer there for
a later one, and need not be. -/
theorem Covers.cons (hd : Drops gone s s') (h₁ : Covers [h] gone s) (h₂ : Covers starts gone' s') :
    Covers (h :: starts) (gone' ++ gone) s := by
  intro k
  rw [List.mem_append, h₂, hd.staleEdges_eq]
  constructor
  · rintro (⟨a, ha, hr⟩ | hk)
    · exact ⟨a, List.mem_cons_of_mem h ha, hr.of_restrict⟩
    · obtain ⟨a, ha, hr⟩ := (h₁ k).1 hk
      rw [List.mem_singleton] at ha
      exact ⟨h, List.mem_cons_self, ha ▸ hr⟩
  · rintro ⟨a, ha, hr⟩
    by_cases hk : k ∈ gone
    · exact .inr hk
    rcases List.mem_cons.1 ha with rfl | ha
    · exact absurd ((h₁ k).2 ⟨a, List.mem_singleton_self a, hr⟩) hk
    · exact .inl ⟨a, ha, hr.avoid h₁.closed hk⟩

theorem Covers.unlink_drop {children : List Hash} (hn : s.dirty.staleEdges h = some children)
    (hc : Covers children gone { s with dirty := s.dirty.unlink h }) :
    Covers [h] (h :: gone) s := by
  intro k
  rw [List.mem_cons, hc, staleEdges_unlink]
  constructor
  · rintro (rfl | ⟨c, hc, hr⟩)
    · exact ⟨k, List.mem_singleton_self k, .refl (by rw [hn, Option.isSome_some])⟩
    · exact ⟨h, List.mem_singleton_self h, .head hn hc hr⟩
  · rintro ⟨a, ha, hr⟩
    obtain rfl := List.mem_singleton.1 ha
    cases hr with
    | refl _ => exact .inl rfl
    | head hn' hm hr =>
      rw [hn, Option.some.injEq] at hn'
      subst hn'
      exact .inr ⟨_, hm, hr⟩

/-- What a sweep from each of `starts` does, and that it only ends if there is no cycle. -/
structure Sweeps (starts : List Hash) (s s' : Sweep) : Prop where
  acyclic : ∀ h ∈ starts, Acyclic s.dirty.staleEdges h
  drops : ∃ gone, Drops gone s s' ∧ Covers starts gone s

/-- There is no limit to the time of a sweep. -/
structure Unhurried (s : Sweep) : Prop where
  left : s.left = none
  going : s.interrupted = false

theorem Unhurried.tick (hu : s.Unhurried) : s.tick = s := by
  rw [Sweep.tick, hu.left]

theorem Unhurried.run {order : Arrangement} {depth : Nat} (hu : s.Unhurried)
    (hr : run order depth s h = some s') : s'.Unhurried := by
  have hstep := rel_run (R := fun s s' => s.Unhurried → s'.Unhurried) (fun _ => id)
    (fun _ _ _ h₁ h₂ hu => h₂ (h₁ hu)) (fun s hu => by rwa [hu.tick]) ?_ hr
  · exact hstep hu
  · intro s h s' _ hs' hu
    obtain ⟨hl, hi⟩ := hs' ⟨hu.left, hu.going⟩
    rw [drop]
    split
    · exact ⟨hl, hi⟩
    · exact ⟨hl, hi⟩

theorem run_unhurried {order : Arrangement} {depth : Nat} (hu : s.Unhurried) :
    run order (depth + 1) s h =
      match stale? s.dirty h with
      | none => some s
      | some r =>
        ((r.arrangedChildren order h).foldlM (run order depth)
          { s with dirty := s.dirty.unlink h }).map (·.drop h) := by
  rw [run, stale?]
  cases met? s.dirty h with
  | none => rfl
  | some r =>
    dsimp only
    rw [hu.tick, hu.going, Bool.false_or, Option.filter_some]
    by_cases hv : r.version < s.dirty.version
    · rw [if_neg (by simpa using hv), if_pos (decide_eq_true hv)]
      dsimp only
      rw [Option.map_eq_bind]
      rfl
    · rw [if_pos (by simpa using hv), if_neg (by simpa using hv)]

theorem sweeps_foldlM {step : Sweep → Hash → Option Sweep}
    (hstep : ∀ s h s', s.Unhurried → step s h = some s' → s'.Unhurried ∧ Sweeps [h] s s')
    (hu : s.Unhurried) (hr : starts.foldlM step s = some s') : Sweeps starts s s' := by
  induction starts generalizing s with
  | nil =>
    cases hr
    exact ⟨nofun, [], .refl _, fun k => by simp⟩
  | cons h starts ih =>
    rw [List.foldlM_cons, Option.bind_eq_bind, Option.bind_eq_some_iff] at hr
    obtain ⟨t, ht, hr⟩ := hr
    obtain ⟨ht, hacyclic, gone, hd, hc⟩ := hstep s h t hu ht
    obtain ⟨hacyclic', gone', hd', hc'⟩ := ih ht hr
    have hh := hacyclic h (List.mem_singleton_self h)
    refine ⟨fun a ha => ?_, gone' ++ gone, hd.trans hd', hc.cons hd hc'⟩
    rcases List.mem_cons.1 ha with rfl | ha
    · exact hh
    · have ha' := hacyclic' a ha
      rw [hd.staleEdges_eq] at ha'
      refine ha'.of_restrict hc.closed fun b hb => ?_
      obtain ⟨c, hc, hr⟩ := (hc b).1 hb
      obtain rfl := List.mem_singleton.1 hc
      exact hh.reached hr

/-- By induction on the depth that is allowed. -/
theorem sweeps_run {order : Arrangement} {depth : Nat} (hu : s.Unhurried)
    (hr : run order depth s h = some s') : Sweeps [h] s s' := by
  induction depth generalizing s h s' with
  | zero => cases hr
  | succ depth ih =>
    rw [run_unhurried hu] at hr
    split at hr
    · next hs =>
      cases hr
      have hn : s.dirty.staleEdges h = none := by rw [staleEdges, hs, Option.map_none]
      refine ⟨fun a ha => ?_, [], .refl s, fun k => ?_⟩
      · obtain rfl := List.mem_singleton.1 ha
        exact .of_none hn
      · refine iff_of_false List.not_mem_nil ?_
        rintro ⟨a, ha, hr⟩
        obtain rfl := List.mem_singleton.1 ha
        have hsome := hr.isSome_left
        rw [hn] at hsome
        cases hsome
    · next r hs =>
      obtain ⟨t, ht, rfl⟩ := Option.map_eq_some_iff.1 hr
      have hn : s.dirty.staleEdges h = some r.children := by rw [staleEdges, hs, Option.map_some]
      have hmem : ∀ c, c ∈ r.arrangedChildren order h ↔ c ∈ r.children :=
        fun c => (r.arrangedChildren_perm order h).mem_iff
      have hu' : Unhurried { s with dirty := s.dirty.unlink h } := ⟨hu.left, hu.going⟩
      obtain ⟨hacyclic, gone, hd, hc⟩ :=
        sweeps_foldlM (fun s h s' hu hr => ⟨hu.run hr, ih hu hr⟩) hu' ht
      rw [staleEdges_unlink] at hacyclic
      have hh := Acyclic.of_children hn fun c hm => hacyclic c ((hmem c).2 hm)
      have hnot : h ∉ gone := by
        intro hg
        obtain ⟨c, hm, hback⟩ := (hc h).1 hg
        rw [staleEdges_unlink] at hback
        exact hh h _ c (.refl (by rw [hn, Option.isSome_some])) hn ((hmem c).1 hm) hback
      refine ⟨fun a ha => ?_, h :: gone, hd.unlink_drop hs hnot, (hc.congr hmem).unlink_drop hn⟩
      obtain rfl := List.mem_singleton.1 ha
      exact hh

section Ends

variable {order : Arrangement} {depth : Nat} {dom : List Hash}

theorem isSome_foldlM (hrun : ∀ s h, s.Unhurried → Acyclic s.dirty.staleEdges h →
      (∀ k, Reaches s.dirty.staleEdges h k → k ∈ dom) → (run order depth s h).isSome)
    (hu : s.Unhurried) (ha : ∀ h ∈ starts, Acyclic s.dirty.staleEdges h)
    (hdom : ∀ h ∈ starts, ∀ k, Reaches s.dirty.staleEdges h k → k ∈ dom) :
    (starts.foldlM (run order depth) s).isSome := by
  induction starts generalizing s with
  | nil => rfl
  | cons h starts ih =>
    obtain ⟨t, ht⟩ := Option.isSome_iff_exists.1
      (hrun s h hu (ha h List.mem_cons_self) (hdom h List.mem_cons_self))
    obtain ⟨_, gone, hd, _⟩ := sweeps_run hu ht
    rw [List.foldlM_cons, ht]
    apply ih (hu.run ht)
    · intro a hm
      rw [hd.staleEdges_eq]
      exact (ha a (List.mem_cons_of_mem h hm)).to_restrict
    · intro a hm k hr
      rw [hd.staleEdges_eq] at hr
      exact hdom a (List.mem_cons_of_mem h hm) k hr.of_restrict

/-- Without a cycle no path is longer than there are nodes to be reached. -/
theorem isSome_run (hu : s.Unhurried) (ha : Acyclic s.dirty.staleEdges h)
    (hdom : ∀ k, Reaches s.dirty.staleEdges h k → k ∈ dom) (hdepth : dom.length < depth) :
    (run order depth s h).isSome := by
  induction depth generalizing s h dom with
  | zero => exact absurd hdepth (Nat.not_lt_zero _)
  | succ depth ih =>
    rw [run_unhurried hu]
    split
    · rfl
    · next r hs =>
      have hn : s.dirty.staleEdges h = some r.children := by rw [staleEdges, hs, Option.map_some]
      have hself : Reaches s.dirty.staleEdges h h := .refl (by rw [hn, Option.isSome_some])
      have hlen := List.length_erase_of_mem (hdom h hself)
      have hpos := List.length_pos_of_mem (hdom h hself)
      have hmem : ∀ c, c ∈ r.arrangedChildren order h → c ∈ r.children :=
        fun c => (r.arrangedChildren_perm order h).mem_iff.1
      rw [Option.isSome_map]
      refine isSome_foldlM
        (fun s c hu ha (hc : ∀ k, _ → k ∈ dom.erase h) => ih hu ha hc (by omega))
        ⟨hu.left, hu.going⟩ ?_ ?_
      · intro c hc
        rw [staleEdges_unlink]
        exact ha.child hn (hmem c hc)
      · intro c hc k hr
        rw [staleEdges_unlink] at hr
        refine (List.mem_erase_of_ne ?_).2 (hdom k (.head hn (hmem c hc) hr))
        rintro rfl
        exact ha k _ c hself hn (hmem c hc) hr

theorem exists_foldlM_of_left {bound left : Nat}
    (hrun : ∀ s h left, s.left = some left → left ≤ bound →
      ∃ s' left', run order depth s h = some s' ∧ s'.left = some left' ∧ left' ≤ left)
    (hl : s.left = some left) (hle : left ≤ bound) :
    ∃ s' left', starts.foldlM (run order depth) s = some s' ∧ s'.left = some left' ∧
      left' ≤ left := by
  induction starts generalizing s left with
  | nil => exact ⟨s, left, rfl, hl, Nat.le_refl left⟩
  | cons h starts ih =>
    obtain ⟨t, left₁, ht, hl₁, hle₁⟩ := hrun s h left hl hle
    obtain ⟨s', left₂, hs', hl₂, hle₂⟩ := ih hl₁ (hle₁.trans hle)
    exact ⟨s', left₂, by rw [List.foldlM_cons, ht]; exact hs', hl₂, hle₂.trans hle₁⟩

/-- As many nodes as there is time for are met, and no path is longer. -/
theorem exists_run_of_left {left : Nat} (hl : s.left = some left) (hdepth : left < depth) :
    ∃ s' left', run order depth s h = some s' ∧ s'.left = some left' ∧ left' ≤ left := by
  induction depth generalizing s h left with
  | zero => exact absurd hdepth (Nat.not_lt_zero _)
  | succ depth ih =>
    rw [run]
    split
    · exact ⟨s, left, rfl, hl, Nat.le_refl left⟩
    · next r _ =>
      dsimp only
      rw [tick, hl]
      cases left with
      | zero => exact ⟨_, 0, rfl, rfl, Nat.le_refl 0⟩
      | succ left =>
        dsimp only
        split
        · exact ⟨_, left, rfl, rfl, Nat.le_succ left⟩
        · obtain ⟨t, left', ht, hl', hle⟩ : ∃ t left',
              (r.arrangedChildren order h).foldlM (run order depth)
                { s with dirty := s.dirty.unlink h, left := some left } = some t ∧
              t.left = some left' ∧ left' ≤ left :=
            exists_foldlM_of_left (fun s c room hl hroom => ih hl (by omega)) rfl
              (Nat.le_refl left)
          refine ⟨t.drop h, left', ?_, ?_, hle.trans (Nat.le_succ left)⟩
          · rw [ht]
            rfl
          · rw [drop]
            split <;> exact hl'

end Ends

end Sweep

/-- However long paths may be, a sweep without a limit only ends if there is no cycle of stale nodes
below its root, and then it ends. With a limit it always ends. -/
theorem sweep_ends_iff (d : Dirty) (order : Arrangement) (left : Option Nat) (root : Hash) :
    (d.sweep order left root).isSome ↔ left.isSome ∨ Acyclic d.staleEdges root := by
  cases left with
  | some left =>
    obtain ⟨s, _, hs, _⟩ : ∃ s left',
        Sweep.run order (left + 1) { dirty := d, left := some left } root = some s ∧
          s.left = some left' ∧ left' ≤ left :=
      Sweep.exists_run_of_left rfl (Nat.lt_succ_self left)
    rw [sweep, Option.getD_some, hs]
    exact iff_of_true rfl (.inl rfl)
  | none =>
    rw [Option.isSome_none, Bool.false_eq_true, false_or]
    constructor
    · intro hs
      obtain ⟨s, hs⟩ := Option.isSome_iff_exists.1 hs
      exact (Sweep.sweeps_run ⟨rfl, rfl⟩ hs).acyclic root (List.mem_singleton_self root)
    · intro ha
      refine Sweep.isSome_run ⟨rfl, rfl⟩ ha (fun k hr => mem_keys_of_staleEdges hr.isSome_right) ?_
      exact d.length_keys_lt

end TrieCache.Dirty
