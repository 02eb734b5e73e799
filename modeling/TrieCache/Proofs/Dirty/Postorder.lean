import Mathlib.Data.List.Nodup
import TrieCache.Proofs.Dirty.Walk

namespace TrieCache.Dirty

def restrict (p : Hash → Prop) [DecidablePred p] (next : Hash → Option (List Hash)) (h : Hash) :
    Option (List Hash) :=
  if p h then next h else none

/-- No node that is reached from `root` has a path of one or more edges back to itself. -/
def Acyclic (next : Hash → Option (List Hash)) (root : Hash) : Prop :=
  ∀ h children c, Reaches next root h → next h = some children → c ∈ children → ¬Reaches next c h

variable {next next' : Hash → Option (List Hash)} {p q : Hash → Prop} [DecidablePred p]
  [DecidablePred q] {h c k root : Hash} {children starts : List Hash}

theorem restrict_eq_some : restrict p next h = some children ↔ p h ∧ next h = some children := by
  rw [restrict, ite_eq_iff]
  simp

namespace Reaches

theorem tail (hr : Reaches next h k) (hn : next k = some children) (hc : c ∈ children)
    (hs : (next c).isSome) : Reaches next h c := by
  induction hr with
  | refl _ => exact .head hn hc (.refl hs)
  | head hn' hc' _ ih => exact .head hn' hc' (ih hn)

theorem mono_restrict (hr : Reaches (restrict p next) h k)
    (hn : ∀ h children, next h = some children →
      ∃ children', next' h = some children' ∧ children ⊆ children') :
    Reaches (restrict p next') h k := by
  apply hr.mono
  intro h children hh
  obtain ⟨hm, hh⟩ := restrict_eq_some.1 hh
  obtain ⟨children', hh', hsub⟩ := hn h children hh
  exact ⟨children', restrict_eq_some.2 ⟨hm, hh'⟩, hsub⟩

theorem relax (hr : Reaches (restrict p next) h k) (hpq : ∀ a, p a → q a) :
    Reaches (restrict q next) h k := by
  apply hr.mono
  intro h children hh
  obtain ⟨hm, hh⟩ := restrict_eq_some.1 hh
  exact ⟨children, restrict_eq_some.2 ⟨hpq h hm, hh⟩, List.Subset.refl _⟩

end Reaches

theorem Acyclic.child (ha : Acyclic next h) (hn : next h = some children) (hc : c ∈ children) :
    Acyclic next c :=
  fun k _ _ hr => ha k _ _ (.head hn hc hr)

theorem acyclic_of_rank (rank : Hash → Nat) (hrank : ∀ h children, next h = some children →
    ∀ c ∈ children, rank c < rank h) : Acyclic next root := by
  have hle : ∀ {h k : Hash}, Reaches next h k → rank k ≤ rank h := by
    intro h k hr
    induction hr with
    | refl _ => exact Nat.le_refl _
    | head hn hc _ ih => exact ih.trans (Nat.le_of_lt (hrank _ _ hn _ hc))
  intro h children c _ hn hc hback
  exact absurd (hrank h children hn c hc) (Nat.not_lt.2 (hle hback))

namespace Walk

variable {w w' w'' : Walk} {added added' : List Hash} {depth : Nat}

/-- A walk down from `starts` has left `added`, the last one first. Each of the nodes left in the
end is reached through such nodes alone. -/
structure Adds (next : Hash → Option (List Hash)) (starts : List Hash) (w w' : Walk)
    (added : List Hash) : Prop where
  left : w'.left = added ++ w.left
  seen : ∀ k, k ∈ w'.seen ↔ k ∈ w.seen ∨ k ∈ added
  new : ∀ k ∈ added, k ∉ w.seen
  nodup : added.Nodup
  reached : ∀ late early, added = late ++ early →
    ∀ k ∈ late, ∃ h ∈ starts, Reaches (restrict (· ∈ late) next) h k

namespace Adds

theorem nil (next : Hash → Option (List Hash)) (starts : List Hash) (w : Walk) :
    Adds next starts w w [] where
  left := rfl
  seen k := by simp
  new := nofun
  nodup := List.nodup_nil
  reached late early he k hk := by
    obtain ⟨rfl, _⟩ := List.append_eq_nil_iff.1 he.symm
    cases hk

theorem cons (h₁ : Adds next [h] w w' added) (h₂ : Adds next starts w' w'' added') :
    Adds next (h :: starts) w w'' (added' ++ added) where
  left := by rw [h₂.left, h₁.left, List.append_assoc]
  seen k := by
    rw [h₂.seen, h₁.seen, List.mem_append, or_assoc, or_comm (a := k ∈ added)]
  new k hk := by
    rcases List.mem_append.1 hk with hk | hk
    · exact fun hs => h₂.new k hk ((h₁.seen k).2 (.inl hs))
    · exact h₁.new k hk
  nodup := by
    have hdis : added'.Disjoint added := fun k hk' hk => h₂.new k hk' ((h₁.seen k).2 (.inr hk))
    exact h₂.nodup.append h₁.nodup hdis
  reached late early he k hk := by
    have hlater : ∀ late' early', added' = late' ++ early' → late' ⊆ late → k ∈ late' →
        ∃ a ∈ h :: starts, Reaches (restrict (· ∈ late) next) a k := by
      intro late' early' he' hsub hk'
      obtain ⟨a, ha, hr⟩ := h₂.reached late' early' he' k hk'
      exact ⟨a, List.mem_cons_of_mem _ ha, hr.relax fun _ hm => hsub hm⟩
    rcases List.append_eq_append_iff.1 he with ⟨late', rfl, he₁⟩ | ⟨early', he₂, _⟩
    · rcases List.mem_append.1 hk with hk | hk
      · exact hlater added' [] (List.append_nil _).symm (List.subset_append_left _ _) hk
      · obtain ⟨a, ha, hr⟩ := h₁.reached late' early he₁ k hk
        rw [List.mem_singleton] at ha
        subst ha
        exact ⟨a, List.mem_cons_self, hr.relax fun _ hm => List.subset_append_right _ _ hm⟩
    · exact hlater late early' he₂ (List.Subset.refl _) hk

theorem enter (hn : next h = some children) (hs : h ∉ w.seen)
    (ha : Adds next children { w with seen := w.seen.insert h } w' added) :
    Adds next [h] w { w' with left := h :: w'.left } (h :: added) := by
  have hmem : ∀ k, k ∈ w.seen.insert h ↔ h = k ∨ k ∈ w.seen := by
    intro k
    rw [Std.ExtTreeSet.mem_insert, Std.LawfulEqOrd.compare_eq_iff_eq]
  refine ⟨?_, ?_, ?_, ?_, ?_⟩
  · exact congrArg (h :: ·) ha.left
  · intro k
    rw [ha.seen, hmem, List.mem_cons, or_assoc, or_left_comm, eq_comm]
  · intro k hk
    rcases List.mem_cons.1 hk with rfl | hk
    · exact hs
    · exact fun hm => ha.new k hk ((hmem k).2 (.inr hm))
  · exact List.nodup_cons.2 ⟨fun hm => ha.new h hm ((hmem h).2 (.inl rfl)), ha.nodup⟩
  · intro late early he k hk
    cases late with
    | nil => cases hk
    | cons a late =>
      rw [List.cons_append, List.cons.injEq] at he
      obtain ⟨rfl, he⟩ := he
      have hnext : restrict (· ∈ h :: late) next h = some children :=
        restrict_eq_some.2 ⟨List.mem_cons_self, hn⟩
      refine ⟨h, List.mem_singleton_self h, ?_⟩
      rcases List.mem_cons.1 hk with rfl | hk
      · exact .refl (by rw [hnext, Option.isSome_some])
      · obtain ⟨c, hc, hr⟩ := ha.reached late early he k hk
        exact .head hnext hc (hr.relax fun _ hm => List.mem_cons_of_mem _ hm)

end Adds

theorem adds_foldl (hvisit : ∀ w h, ∃ added, Adds next [h] w (visit next depth w h) added)
    (starts : List Hash) (w : Walk) :
    ∃ added, Adds next starts w (starts.foldl (visit next depth) w) added := by
  induction starts generalizing w with
  | nil => exact ⟨[], .nil next [] w⟩
  | cons h starts ih =>
    obtain ⟨added, h₁⟩ := hvisit w h
    obtain ⟨added', h₂⟩ := ih (visit next depth w h)
    exact ⟨added' ++ added, h₁.cons h₂⟩

theorem adds_visit (next : Hash → Option (List Hash)) (depth : Nat) (w : Walk) (h : Hash) :
    ∃ added, Adds next [h] w (visit next depth w h) added := by
  induction depth generalizing w h with
  | zero => exact ⟨[], .nil next [h] w⟩
  | succ depth ih =>
    rw [visit]
    split
    · exact ⟨[], .nil next [h] w⟩
    · next hs =>
      cases hn : next h with
      | none => exact ⟨[], .nil next [h] w⟩
      | some children =>
        obtain ⟨added, ha⟩ := adds_foldl ih children { w with seen := w.seen.insert h }
        exact ⟨h :: added, .enter hn hs ha⟩

/-- Every child was left before its parent, where the last one left comes first. -/
def ChildrenFirst (next : Hash → Option (List Hash)) : List Hash → Prop
  | [] => True
  | h :: rest =>
    (∀ children, next h = some children → ∀ c ∈ children, (next c).isSome → c ∈ rest) ∧
      ChildrenFirst next rest

theorem ChildrenFirst.of_append {late early : List Hash}
    (hl : ChildrenFirst next (late ++ early)) : ChildrenFirst next early := by
  induction late with
  | nil => exact hl
  | cons h late ih => exact ih hl.2

/-- The nodes that were entered and not left yet are those from which the walk has come to `h`. -/
def Below (next : Hash → Option (List Hash)) (w : Walk) (h : Hash) : Prop :=
  ∀ a ∈ w.seen, a ∉ w.left → (next h).isSome → Reaches next a h

variable {dom : List Hash}

theorem Below.explores (hb : Below next w h) (he : Explores next starts w w') :
    Below next w' h := by
  intro a ha hl
  have hleft := mt (he.left a).2 hl
  rw [not_or, not_and_not_right] at hleft
  exact hb a (hleft.2 ha) hleft.1

theorem childrenFirst_foldl (hdom : ∀ k, (next k).isSome → k ∈ dom)
    (hvisit : ∀ w h, unseen dom w.seen < depth → Acyclic next h → Below next w h →
      ChildrenFirst next w.left → ChildrenFirst next (visit next depth w h).left)
    (hw : unseen dom w.seen < depth) (ha : ∀ h ∈ starts, Acyclic next h)
    (hb : ∀ h ∈ starts, Below next w h) (hl : ChildrenFirst next w.left) :
    ChildrenFirst next (starts.foldl (visit next depth) w).left := by
  induction starts generalizing w with
  | nil => exact hl
  | cons h starts ih =>
    have he : Explores next [h] w (visit next depth w h) := explores_visit hdom hw
    apply ih ((unseen_le he.seen).trans_lt hw)
    · exact fun k hk => ha k (List.mem_cons_of_mem h hk)
    · exact fun k hk => (hb k (List.mem_cons_of_mem h hk)).explores he
    · exact hvisit w h hw (ha h List.mem_cons_self) (hb h List.mem_cons_self) hl

theorem childrenFirst_visit (hdom : ∀ k, (next k).isSome → k ∈ dom)
    (hw : unseen dom w.seen < depth) (ha : Acyclic next h) (hb : Below next w h)
    (hl : ChildrenFirst next w.left) : ChildrenFirst next (visit next depth w h).left := by
  induction depth generalizing w h with
  | zero => exact hl
  | succ depth ih =>
    rw [visit]
    split
    · exact hl
    next hs =>
    cases hn : next h with
    | none => exact hl
    | some children =>
      have hsome : (next h).isSome := by rw [hn, Option.isSome_some]
      have hlt := unseen_insert_lt (hdom h hsome) hs
      let w₀ : Walk := { w with seen := w.seen.insert h }
      have hw₀ : unseen dom w₀.seen < depth := by
        dsimp only [w₀]
        omega
      -- While the children are visited, `h` and what is above it are entered and not left.
      have habove : ∀ a ∈ w₀.seen, a ∉ w₀.left → Reaches next a h := by
        intro a hm hleft
        rw [Std.ExtTreeSet.mem_insert, Std.LawfulEqOrd.compare_eq_iff_eq] at hm
        rcases hm with rfl | hm
        · exact .refl hsome
        · exact hb a hm hleft hsome
      have hbelow : ∀ c ∈ children, Below next w₀ c := by
        intro c hc a hm hleft hcs
        exact (habove a hm hleft).tail hn hc hcs
      have he : Explores next children w₀ (children.foldl (visit next depth) w₀) :=
        explores_foldl (fun w h => explores_visit hdom) hw₀
      have hfold := childrenFirst_foldl hdom (fun w h => ih) hw₀ (fun c => ha.child hn) hbelow hl
      refine ⟨?_, hfold⟩
      intro children' hn' c hc hcs
      rw [hn, Option.some.injEq] at hn'
      subst hn'
      -- A child that is not left would be above `h`, on a cycle.
      by_contra hleft
      have hseen := he.roots c hc hcs
      have hnot := mt (he.left c).2 hleft
      rw [not_or, not_and_not_right] at hnot
      exact ha h children c (.refl hsome) hn hc (habove c (hnot.2 hseen) hnot.1)

end Walk

section Postorder

variable {depth : Nat} {dom early late : List Hash}

theorem nodup_postorder (next : Hash → Option (List Hash)) (depth : Nat) (root : Hash) :
    (postorder next depth root).Nodup := by
  obtain ⟨added, ha⟩ := Walk.adds_visit next depth {} root
  have hleft : (Walk.visit next depth {} root).left = added := ha.left.trans (List.append_nil _)
  rw [postorder, hleft, List.nodup_reverse]
  exact ha.nodup

theorem reaches_of_mem_late (hp : postorder next depth root = early ++ late) (hk : k ∈ late) :
    Reaches (restrict (· ∈ late) next) root k := by
  obtain ⟨added, ha⟩ := Walk.adds_visit next depth {} root
  have hleft : (Walk.visit next depth {} root).left = added := ha.left.trans (List.append_nil _)
  rw [postorder, hleft, List.reverse_eq_iff, List.reverse_append] at hp
  obtain ⟨h, hh, hr⟩ := ha.reached _ _ hp k (List.mem_reverse.2 hk)
  rw [List.mem_singleton] at hh
  subst hh
  exact hr.relax fun _ hm => List.mem_reverse.1 hm

/-- Without the nodes that were left early a walk enters the others, whatever cycles there are. -/
theorem mem_late_iff (hdom : ∀ k, (next k).isSome → k ∈ dom) (hdepth : dom.length < depth)
    (hp : postorder next depth root = early ++ late) :
    k ∈ late ↔ Reaches (restrict (· ∉ early) next) root k := by
  constructor
  · intro hk
    have hn := nodup_postorder next depth root
    rw [hp] at hn
    exact (reaches_of_mem_late hp hk).relax fun h hm he => List.disjoint_of_nodup_append hn he hm
  · intro hr
    have hnext : Reaches next root k := by
      apply hr.mono
      intro h children hh
      exact ⟨children, (restrict_eq_some.1 hh).2, List.Subset.refl _⟩
    have hm := (mem_postorder_iff hdom hdepth).2 hnext
    obtain ⟨children, hk⟩ := Option.isSome_iff_exists.1 hr.isSome_right
    rw [hp, List.mem_append] at hm
    exact hm.resolve_left (restrict_eq_some.1 hk).1

theorem child_mem_early (hdom : ∀ k, (next k).isSome → k ∈ dom) (hdepth : dom.length < depth)
    (ha : Acyclic next root) (hp : postorder next depth root = early ++ h :: late)
    (hn : next h = some children) (hc : c ∈ children) (hs : (next c).isSome) : c ∈ early := by
  have hw : Walk.unseen dom ({} : Walk).seen < depth := List.countP_le_length.trans_lt hdepth
  have hbelow : Walk.Below next {} root := fun a hm => absurd hm Std.ExtTreeSet.not_mem_empty
  have hl := Walk.childrenFirst_visit hdom hw ha hbelow trivial
  rw [postorder, List.reverse_eq_iff] at hp
  have hsplit : (Walk.visit next depth {} root).left = late.reverse ++ h :: early.reverse := by
    rw [hp]
    simp
  rw [hsplit] at hl
  exact List.mem_reverse.1 (hl.of_append.1 children hn c hc hs)

end Postorder

section Fresh

/-- The children of the fresh nodes. -/
def freshEdges (d : Dirty) : Hash → Option (List Hash) :=
  restrict (· ∈ d.fresh) d.cachedChildren

variable {d : Dirty} {order : Arrangement} {early late : List Hash}

theorem freshEdges_eq_some : d.freshEdges h = some children ↔
    h ∈ d.fresh ∧ ∃ r, d.records[h]? = some r ∧ children = r.children := by
  rw [freshEdges, restrict_eq_some, cachedChildren, Option.map_eq_some_iff]
  simp only [eq_comm]

theorem isSome_freshEdges (d : Dirty) (h : Hash) :
    (d.freshEdges h).isSome ↔ h ∈ d.fresh ∧ d.records.contains h := by
  rw [Option.isSome_iff_exists, Map.contains_iff]
  simp only [freshEdges_eq_some]
  constructor
  · rintro ⟨_, hf, r, hr, _⟩
    exact ⟨hf, r, hr⟩
  · rintro ⟨hf, r, hr⟩
    exact ⟨_, hf, r, hr, rfl⟩

theorem freshChildren_perm (d : Dirty) (order : Arrangement) (h : Hash) :
    (d.freshChildren order h = none ∧ d.freshEdges h = none) ∨
      ∃ children children', d.freshChildren order h = some children' ∧
        d.freshEdges h = some children ∧ children'.Perm children := by
  rw [freshEdges, restrict, freshChildren, arrangedChildren, cachedChildren]
  by_cases hf : h ∈ d.fresh
  · rw [if_pos (Std.ExtTreeSet.contains_iff_mem.2 hf), if_pos hf]
    cases d.records[h]? with
    | none => exact .inl ⟨rfl, rfl⟩
    | some r => exact .inr ⟨_, _, rfl, rfl, r.arrangedChildren_perm order h⟩
  · rw [if_neg (mt Std.ExtTreeSet.contains_iff_mem.1 hf), if_neg hf]
    exact .inl ⟨rfl, rfl⟩

theorem subset_freshChildren (order : Arrangement) (he : d.freshEdges h = some children) :
    ∃ children', d.freshChildren order h = some children' ∧ children ⊆ children' := by
  rcases d.freshChildren_perm order h with ⟨_, hn⟩ | ⟨cs, cs', hc, hn, hp⟩
  · rw [hn] at he
    cases he
  · rw [hn, Option.some.injEq] at he
    exact ⟨cs', hc, he ▸ hp.symm.subset⟩

theorem subset_freshEdges (hc : d.freshChildren order h = some children) :
    ∃ children', d.freshEdges h = some children' ∧ children ⊆ children' := by
  rcases d.freshChildren_perm order h with ⟨hn, _⟩ | ⟨cs, cs', hn, he, hp⟩
  · rw [hn] at hc
    cases hc
  · rw [hn, Option.some.injEq] at hc
    exact ⟨cs, he, hc ▸ hp.subset⟩

theorem reaches_freshChildren_iff :
    Reaches (d.freshChildren order) h k ↔ Reaches d.freshEdges h k :=
  ⟨fun hr => hr.mono fun _ _ => subset_freshEdges, fun hr => hr.mono fun _ _ =>
    subset_freshChildren order⟩

theorem mem_freshClosure : k ∈ d.freshClosure order root ↔ Reaches d.freshEdges root k :=
  (mem_freshClosure_iff d order root k).trans reaches_freshChildren_iff

theorem nodup_freshClosure (d : Dirty) (order : Arrangement) (root : Hash) :
    (d.freshClosure order root).Nodup :=
  nodup_postorder ..

/-- What is written late is reached without what was written early. -/
theorem mem_late_freshClosure (hp : d.freshClosure order root = early ++ late) :
    k ∈ late ↔ Reaches (restrict (· ∉ early) d.freshEdges) root k := by
  rw [mem_late_iff (fun _ => mem_keys_of_freshChildren) d.length_keys_lt hp]
  constructor
  · exact fun hr => hr.mono_restrict fun _ _ => subset_freshEdges
  · exact fun hr => hr.mono_restrict fun _ _ => subset_freshChildren order

theorem Acyclic.arrange (ha : Acyclic d.freshEdges root) (order : Arrangement) :
    Acyclic (d.freshChildren order) root := by
  intro h children c hr hc hm hback
  obtain ⟨children', he, hsub⟩ := subset_freshEdges hc
  exact ha h children' c (reaches_freshChildren_iff.1 hr) he (hsub hm)
    (reaches_freshChildren_iff.1 hback)

theorem child_mem_early_freshClosure (ha : Acyclic d.freshEdges root)
    (hp : d.freshClosure order root = early ++ h :: late) (hn : d.freshEdges h = some children)
    (hc : c ∈ children) (hs : (d.freshEdges c).isSome) : c ∈ early := by
  obtain ⟨children', hn', hsub⟩ := subset_freshChildren order hn
  obtain ⟨cs, he⟩ := Option.isSome_iff_exists.1 hs
  obtain ⟨cs', hcs, _⟩ := subset_freshChildren order he
  exact child_mem_early (fun _ => mem_keys_of_freshChildren) d.length_keys_lt (ha.arrange order) hp
    hn' (hsub hc) (by rw [hcs, Option.isSome_some])

end Fresh

end TrieCache.Dirty
