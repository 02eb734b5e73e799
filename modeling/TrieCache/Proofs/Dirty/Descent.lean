import TrieCache.Proofs.Dirty.Postorder

namespace TrieCache.Dirty

variable {σ ε : Type}

/-- A walk down from some nodes, one after the other, from a state to an outcome. `next` gives the
children of the nodes that can be entered by then; `leave` is done when a node is left, and stops
the walk if it fails. The set has the nodes met so far; those that cannot be entered may be in
it. -/
inductive Descends (next : σ → Hash → Option (List Hash)) (leave : σ → Hash → Except ε σ) :
    HashSet → σ → List Hash → Except ε (HashSet × σ) → Prop
  | done (met : HashSet) (s : σ) : Descends next leave met s [] (.ok (met, s))
  | known {met : HashSet} {s : σ} {h : Hash} {rest : List Hash} {outcome} :
    h ∈ met → Descends next leave met s rest outcome →
    Descends next leave met s (h :: rest) outcome
  | closed {met met' : HashSet} {s : σ} {h : Hash} {rest : List Hash} {outcome} :
    h ∉ met → next s h = none → met' = met ∨ met' = met.insert h →
    Descends next leave met' s rest outcome → Descends next leave met s (h :: rest) outcome
  | entered {met met' : HashSet} {s s' s'' : σ} {h : Hash} {children rest : List Hash} {outcome} :
    h ∉ met → next s h = some children →
    Descends next leave (met.insert h) s children (.ok (met', s')) → leave s' h = .ok s'' →
    Descends next leave met' s'' rest outcome → Descends next leave met s (h :: rest) outcome
  | stopped {met : HashSet} {s : σ} {h : Hash} {children rest : List Hash} {e : ε} :
    h ∉ met → next s h = some children →
    Descends next leave (met.insert h) s children (.error e) →
    Descends next leave met s (h :: rest) (.error e)
  | refused {met met' : HashSet} {s s' : σ} {h : Hash} {children rest : List Hash} {e : ε} :
    h ∉ met → next s h = some children →
    Descends next leave (met.insert h) s children (.ok (met', s')) → leave s' h = .error e →
    Descends next leave met s (h :: rest) (.error e)

/-- Leaving some nodes does not change the children of the others. -/
def Steady (next : σ → Hash → Option (List Hash)) (leave : σ → Hash → Except ε σ) (start : σ) :
    Prop :=
  ∀ (gone : List Hash) (s : σ), gone.Nodup → (∀ k ∈ gone, (next start k).isSome) →
    gone.foldlM leave start = .ok s → ∀ h, h ∉ gone → next s h = next start h

/-- Where a walk over a changing state is when one over the first state has come to `w`. -/
structure Keeps (next : σ → Hash → Option (List Hash)) (leave : σ → Hash → Except ε σ) (start : σ)
    (w : Walk) (met : HashSet) (s : σ) : Prop where
  known : ∀ k ∈ w.seen, k ∈ met
  closed : ∀ k ∈ met, k ∉ w.seen → next start k = none
  seen : ∀ k ∈ w.left, k ∈ w.seen
  entered : ∀ k ∈ w.left, (next start k).isSome
  nodup : w.left.Nodup
  state : w.left.reverse.foldlM leave start = .ok s

variable {next : σ → Hash → Option (List Hash)} {leave : σ → Hash → Except ε σ} {start s s' : σ}
  {met met' : HashSet} {w : Walk} {h root : Hash} {starts children dom : List Hash} {depth : Nat}
  {outcome : Except ε (HashSet × σ)} {result : Except ε σ} {e : ε}

theorem mem_insert_iff {k : Hash} : k ∈ met.insert h ↔ h = k ∨ k ∈ met := by
  rw [Std.ExtTreeSet.mem_insert, Std.LawfulEqOrd.compare_eq_iff_eq]

theorem foldlM_concat (gone : List Hash) (h : Hash) :
    (gone ++ [h]).foldlM leave start = gone.foldlM leave start >>= fun s => leave s h := by
  simp only [List.foldlM_append, List.foldlM_cons, List.foldlM_nil, bind_pure]

namespace Keeps

theorem nil (start : σ) : Keeps next leave start {} ∅ start where
  known _ hk := absurd hk Std.ExtTreeSet.not_mem_empty
  closed _ hk := absurd hk Std.ExtTreeSet.not_mem_empty
  seen := nofun
  entered := nofun
  nodup := List.nodup_nil
  state := rfl

theorem next_eq (hk : Keeps next leave start w met s) (hsteady : Steady next leave start)
    (hm : h ∉ met) : next s h = next start h := by
  apply hsteady w.left.reverse s (List.nodup_reverse.2 hk.nodup)
  · exact fun k hl => hk.entered k (List.mem_reverse.1 hl)
  · exact hk.state
  · exact fun hl => hm (hk.known h (hk.seen h (List.mem_reverse.1 hl)))

theorem skip (hk : Keeps next leave start w met s) (hn : next start h = none)
    (hm : met' = met ∨ met' = met.insert h) : Keeps next leave start w met' s := by
  rcases hm with rfl | rfl
  · exact hk
  refine ⟨?_, ?_, hk.seen, hk.entered, hk.nodup, hk.state⟩
  · exact fun k hs => mem_insert_iff.2 (.inr (hk.known k hs))
  · intro k hm hs
    rcases mem_insert_iff.1 hm with rfl | hm
    · exact hn
    · exact hk.closed k hm hs

theorem enter (hk : Keeps next leave start w met s) (h : Hash) :
    Keeps next leave start { w with seen := w.seen.insert h } (met.insert h) s where
  known k hs := mem_insert_iff.2 ((mem_insert_iff.1 hs).imp_right (hk.known k))
  closed k hm hs := by
    have hs' := mt mem_insert_iff.2 hs
    rw [not_or] at hs'
    exact hk.closed k ((mem_insert_iff.1 hm).resolve_left hs'.1) hs'.2
  seen k hl := mem_insert_iff.2 (.inr (hk.seen k hl))
  entered := hk.entered
  nodup := hk.nodup
  state := hk.state

theorem exit (hk : Keeps next leave start w met s) (hs : h ∈ w.seen) (hl : h ∉ w.left)
    (ho : (next start h).isSome) (he : leave s h = .ok s') :
    Keeps next leave start { w with left := h :: w.left } met s' where
  known := hk.known
  closed := hk.closed
  seen := List.forall_mem_cons.2 ⟨hs, hk.seen⟩
  entered := List.forall_mem_cons.2 ⟨ho, hk.entered⟩
  nodup := List.nodup_cons.2 ⟨hl, hk.nodup⟩
  state := by
    rw [List.reverse_cons, foldlM_concat, hk.state]
    exact he

theorem visit_of_met (hk : Keeps next leave start w met s) (hm : h ∈ met) :
    Walk.visit (next start) depth w h = w := by
  cases depth with
  | zero => rfl
  | succ depth =>
    rw [Walk.visit]
    split
    · rfl
    · next hs => rw [hk.closed h hm hs]

theorem visit_of_not_met (hk : Keeps next leave start w met s) (depth : Nat) (hm : h ∉ met)
    (hn : next start h = some children) :
    let below := children.foldl (Walk.visit (next start) depth) { w with seen := w.seen.insert h }
    Walk.visit (next start) (depth + 1) w h = { below with left := h :: below.left } ∧
      h ∈ below.seen ∧ h ∉ below.left ∧ ∀ k ∈ w.seen, k ∈ below.seen := by
  have hs : h ∉ w.seen := fun hs => hm (hk.known h hs)
  obtain ⟨added, ha⟩ := Walk.adds_foldl (fun w h => Walk.adds_visit (next start) depth w h) children
    { w with seen := w.seen.insert h }
  have hin : h ∈ w.seen.insert h := mem_insert_iff.2 (.inl rfl)
  refine ⟨?_, (ha.seen h).2 (.inl hin), ?_, ?_⟩
  · rw [Walk.visit, if_neg (mt Std.ExtTreeSet.contains_iff_mem.1 hs), hn]
  · rw [ha.left, List.mem_append, not_or]
    exact ⟨fun hl => ha.new h hl hin, fun hl => hs (hk.seen h hl)⟩
  · exact fun k hk => (ha.seen k).2 (.inl (mem_insert_iff.2 (.inr hk)))

end Keeps

theorem visit_of_closed (hn : next start h = none) : Walk.visit (next start) depth w h = w := by
  cases depth with
  | zero => rfl
  | succ depth => rw [Walk.visit, hn, ite_self]

/-- The outcome of a walk over a changing state when one over the first state comes to `w`. -/
inductive Meets (next : σ → Hash → Option (List Hash)) (leave : σ → Hash → Except ε σ) (start : σ)
    (w : Walk) : Except ε (HashSet × σ) → Prop
  | ok {met : HashSet} {s : σ} : Keeps next leave start w met s →
    Meets next leave start w (.ok (met, s))
  | error {e : ε} : w.left.reverse.foldlM leave start = .error e →
    Meets next leave start w (.error e)

namespace Meets

theorem result_eq (hm : Meets next leave start w outcome) :
    outcome.map Prod.snd = w.left.reverse.foldlM leave start := by
  cases hm with
  | ok hk => exact hk.state.symm
  | error he => exact he.symm

theorem error_append (he : w.left.reverse.foldlM leave start = .error e) (added : List Hash) :
    (added ++ w.left).reverse.foldlM leave start = .error e := by
  rw [List.reverse_append, List.foldlM_append, he]
  rfl

theorem error_foldl (he : w.left.reverse.foldlM leave start = .error e) :
    Meets next leave start (starts.foldl (Walk.visit (next start) depth) w) (.error e) := by
  obtain ⟨added, ha⟩ := Walk.adds_foldl (fun w h => Walk.adds_visit (next start) depth w h) starts w
  apply error
  rw [ha.left]
  exact error_append he added

end Meets

section Steady

variable (hsteady : Steady next leave start) (hdom : ∀ k, (next start k).isSome → k ∈ dom)
include hsteady hdom

/-- Both walks enter the same nodes, and one node less is left to enter then. -/
theorem Keeps.next_start (hk : Keeps next leave start w met s) (hm : h ∉ met)
    (hn : next s h = some children) (hdepth : Walk.unseen dom w.seen < depth) :
    next start h = some children ∧
      ∃ shallower, depth = shallower + 1 ∧ Walk.unseen dom (w.seen.insert h) < shallower := by
  have hn' : next start h = some children := hk.next_eq hsteady hm ▸ hn
  have hlt := Walk.unseen_insert_lt (hdom h (by rw [hn', Option.isSome_some]))
    fun hs => hm (hk.known h hs)
  exact ⟨hn', depth - 1, by omega, by omega⟩

theorem Descends.meets (hd : Descends next leave met s starts outcome)
    (hk : Keeps next leave start w met s) (hdepth : Walk.unseen dom w.seen < depth) :
    Meets next leave start (starts.foldl (Walk.visit (next start) depth) w) outcome := by
  induction hd generalizing w depth with
  | done met s => exact .ok hk
  | known hm _ ih =>
    rw [List.foldl_cons, hk.visit_of_met hm]
    exact ih hk hdepth
  | closed hm hn hmet _ ih =>
    have hn' := hk.next_eq hsteady hm ▸ hn
    rw [List.foldl_cons, visit_of_closed hn']
    exact ih (hk.skip hn' hmet) hdepth
  | entered hm hn _ hleave _ ih₁ ih₂ =>
    obtain ⟨hn', depth, rfl, hlt⟩ := hk.next_start hsteady hdom hm hn hdepth
    obtain ⟨hvisit, hseen, hleft, hmono⟩ := hk.visit_of_not_met depth hm hn'
    obtain ⟨hbelow⟩ := ih₁ (hk.enter _) hlt
    rw [List.foldl_cons, hvisit]
    apply ih₂ (hbelow.exit hseen hleft (by rw [hn', Option.isSome_some]) hleave)
    exact (Walk.unseen_le hmono).trans_lt hdepth
  | @stopped _ _ h _ _ _ hm hn _ ih =>
    obtain ⟨hn', depth, rfl, hlt⟩ := hk.next_start hsteady hdom hm hn hdepth
    obtain ⟨hvisit, _⟩ := hk.visit_of_not_met depth hm hn'
    obtain ⟨_⟩ | he := ih (hk.enter _) hlt
    rw [List.foldl_cons, hvisit]
    exact .error_foldl (Meets.error_append he [h])
  | refused hm hn _ hleave ih =>
    obtain ⟨hn', depth, rfl, hlt⟩ := hk.next_start hsteady hdom hm hn hdepth
    obtain ⟨hvisit, _⟩ := hk.visit_of_not_met depth hm hn'
    obtain ⟨hbelow⟩ := ih (hk.enter _) hlt
    rw [List.foldl_cons, hvisit]
    apply Meets.error_foldl
    rw [List.reverse_cons, foldlM_concat, hbelow.state]
    exact hleave

theorem Descends.exists (hk : Keeps next leave start w met s)
    (hdepth : Walk.unseen dom w.seen < depth) (starts : List Hash) :
    ∃ outcome, Descends next leave met s starts outcome := by
  induction depth generalizing w met s starts with
  | zero => exact absurd hdepth (Nat.not_lt_zero _)
  | succ depth ih =>
    induction starts generalizing w met s with
    | nil => exact ⟨_, .done met s⟩
    | cons h rest ihrest =>
      by_cases hm : h ∈ met
      · obtain ⟨outcome, hd⟩ := ihrest hk hdepth
        exact ⟨outcome, .known hm hd⟩
      cases hn : next s h with
      | none =>
        obtain ⟨outcome, hd⟩ := ihrest hk hdepth
        exact ⟨outcome, .closed hm hn (.inl rfl) hd⟩
      | some children =>
        obtain ⟨hn', _, he, hlt⟩ := hk.next_start hsteady hdom hm hn hdepth
        obtain rfl := Nat.succ.inj he
        obtain ⟨_, hseen, hleft, hmono⟩ := hk.visit_of_not_met depth hm hn'
        obtain ⟨below, hd⟩ := ih (hk.enter h) hlt children
        cases hd.meets hsteady hdom (hk.enter h) hlt with
        | error _ => exact ⟨_, .stopped hm hn hd⟩
        | @ok met' s' hbelow =>
          cases hleave : leave s' h with
          | error e => exact ⟨_, .refused hm hn hd hleave⟩
          | ok s'' =>
            have hexit := hbelow.exit hseen hleft (by rw [hn', Option.isSome_some]) hleave
            obtain ⟨outcome, hrest⟩ := ihrest hexit ((Walk.unseen_le hmono).trans_lt hdepth)
            exact ⟨outcome, .entered hm hn hd hleave hrest⟩

/-- A walk over a changing state ends in one way only: with the nodes left in postorder. -/
theorem descends_iff (hdepth : dom.length < depth) :
    (∃ outcome, Descends next leave ∅ start [root] outcome ∧ outcome.map Prod.snd = result) ↔
      (postorder (next start) depth root).foldlM leave start = result := by
  have hunseen : Walk.unseen dom ({} : Walk).seen < depth := List.countP_le_length.trans_lt hdepth
  have hends : ∀ {outcome}, Descends next leave ∅ start [root] outcome →
      outcome.map Prod.snd = (postorder (next start) depth root).foldlM leave start :=
    fun hd => (hd.meets hsteady hdom (.nil start) hunseen).result_eq
  constructor
  · rintro ⟨outcome, hd, hr⟩
    exact (hends hd).symm.trans hr
  · intro hr
    obtain ⟨outcome, hd⟩ := Descends.exists hsteady hdom (.nil start) hunseen [root]
    exact ⟨outcome, hd, (hends hd).trans hr⟩

end Steady

end TrieCache.Dirty
