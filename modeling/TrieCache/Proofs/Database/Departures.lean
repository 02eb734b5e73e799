import TrieCache.Proofs.Database.Conservation

namespace TrieCache

namespace Command

/-- The root below which a command drops what is stale. -/
def swept : Command → Option Hash
  | dereference root _ _ => some root
  | dereferenceStored root _ _ => some root
  | _ => none

def commits : Command → Bool
  | commit .. => true
  | _ => false

/-- Whether a command takes away the meta-root's edge to `h`: dropping what is stale does so for its
root, and a commit for each node that leaves memory with it. -/
def forgets (c : Command) (d d' : Dirty) (h : Hash) : Bool :=
  !d'.records.contains h && (c.swept = some h || c.commits && d.records.contains h)

theorem swept_of_insertion {c : Command} {node : Hash × Dirty.Content × Nat}
    (hi : c.insertion = some node) : c.swept = none ∧ c.commits = false := by
  cases c with
  | insert => exact ⟨rfl, rfl⟩
  | insertBlob => exact ⟨rfl, rfl⟩
  | insertNode => exact ⟨rfl, rfl⟩
  | _ => cases hi

end Command

namespace Dirty

/-- What a record has to do with edges: how many are counted to it, and its own. -/
def Record.ties (r : Record) : Nat × Option (HashMap Nat) := (r.parents, r.edges)

/-- No node has come to memory, those that have stayed have their edges still, and so has the
meta-root but for those that it is to forget. -/
structure Departs (c : Command) (d d' : Dirty) : Prop where
  kept : ∀ (k : Hash) (r' : Record), k ≠ Hash.zero → d'.records[k]? = some r' →
    ∃ r, d.records[k]? = some r ∧ r'.ties = r.ties
  roots : ∀ k : Hash, d'.roots[k]? = if c.forgets d d' k then none else d.roots[k]?

/-- What a command does to the edges. -/
inductive Change (c : Command) (d : Dirty) : Dirty → Prop
  | inserted {h : Hash} {content : Content} {size : Nat} :
    c.insertion = some (h, content, size) → Change c d (d.insert h content size)
  | referenced {child parent : Hash} :
    c = .reference child parent → Change c d (d.reference child parent)
  | departed {d' : Dirty} : c.insertion = none → Departs c d d' → Change c d d'

variable {c : Command} {d d' : Dirty} {h k : Hash}

theorem ties_of_body {rs rs' : Records}
    (hb : rs'[k]?.map Record.body = rs[k]?.map Record.body) :
    rs'[k]?.map Record.ties = rs[k]?.map Record.ties := by
  have he := congrArg (Option.map Record.ties) hb
  rwa [Option.map_map, Option.map_map] at he

theorem ties_stamp (d : Dirty) (arrangement : Arrangement) (root k : Hash) :
    (d.stamp arrangement root).records[k]?.map Record.ties = d.records[k]?.map Record.ties := by
  rw [get_stamp, Option.map_map]
  congr 1
  funext r
  rw [Function.comp]
  split <;> rfl

theorem ties_insert (d : Dirty) (h : Hash) (content : Content) (size : Nat) (k : Hash) :
    (d.insert h content size).records[k]?.map Record.ties =
      if d.records.contains h = false ∧ h = k then some (0, none)
      else d.records[k]?.map Record.ties := by
  rw [insert]
  cases hc : d.records.contains h with
  | true => simp
  | false =>
    rw [if_neg Bool.false_ne_true]
    apply (ties_of_body (FlushList.body_pushBack k)).trans
    rw [Map.get_insert]
    by_cases hk : h = k
    · rw [if_pos hk, if_pos ⟨rfl, hk⟩]
      rfl
    · rw [if_neg hk, if_neg fun he => hk he.2]

theorem roots_insert (hz : d.records.contains Hash.zero) (h : Hash) (content : Content)
    (size : Nat) : (d.insert h content size).roots = d.roots := by
  have hne : ¬(d.records.contains h = false ∧ h = Hash.zero) := by
    rintro ⟨hh, rfl⟩
    rw [hz] at hh
    cases hh
  have he := congrArg (Option.map Prod.snd) (d.ties_insert h content size Hash.zero)
  rw [if_neg hne, Option.map_map, Option.map_map] at he
  exact roots_of_edges he

theorem roots_reference (hz : d.records.contains Hash.zero) (child parent : Hash) :
    (d.reference child parent).roots =
      if d.tracks child && parent.isZero then
        d.roots.insert child (min (d.roots.getD child 0 + 1) maxEdgeCount)
      else d.roots := by
  by_cases ht : d.tracks child
  · have hchild : child ≠ Hash.zero := by
      rw [tracks, Bool.and_eq_true, Bool.not_eq_true'] at ht
      exact of_decide_eq_false ht.1
    by_cases hp : parent = Hash.zero
    · subst hp
      obtain ⟨p, hp⟩ := Map.contains_iff.1 hz
      have hroots : d.roots = p.edges.getD ∅ := by rw [roots, hp]
      rw [if_pos (by rw [ht]; rfl), hroots, reference, if_pos ht, hp]
      dsimp only
      rw [if_neg (by simp [Hash.isZero]), roots, Map.get_modify, if_neg hchild, Map.get_modify,
        if_pos rfl, hp]
      rfl
    · have hzero : parent.isZero = false := decide_eq_false hp
      rw [hzero, Bool.and_false, if_neg Bool.false_ne_true]
      rcases reference_cases d child parent with he | ⟨_, _, _, _, he⟩
      · rw [he]
      · rw [he]
        apply roots_of_edges
        dsimp only
        rw [Map.get_modify, if_neg hchild, Map.get_modify, if_neg hp]
  · rw [Bool.not_eq_true] at ht
    rw [reference, ht, if_neg Bool.false_ne_true, Bool.false_and, if_neg Bool.false_ne_true]

namespace Departs

theorem of_ties (hc : c.swept = none) (hn : c.commits = false)
    (ht : ∀ k : Hash, d'.records[k]?.map Record.ties = d.records[k]?.map Record.ties) :
    Departs c d d' where
  kept k r' _ hr' := by
    have hk := ht k
    rw [hr', Option.map_some, eq_comm, Option.map_eq_some_iff] at hk
    obtain ⟨r, hr, he⟩ := hk
    exact ⟨r, hr, he.symm⟩
  roots k := by
    have he := congrArg (Option.map Prod.snd) (ht Hash.zero)
    rw [Option.map_map, Option.map_map] at he
    have hforgets : c.forgets d d' k = false := by simp [Command.forgets, hc, hn]
    rw [hforgets, if_neg Bool.false_ne_true, roots_of_edges he]

theorem of_loses (hl : d.Loses d')
    (hr : ∀ k : Hash, d'.roots[k]? = if c.forgets d d' k then none else d.roots[k]?) :
    Departs c d d' where
  kept k r' hz hr' := by
    obtain ⟨r, hr, _, hb⟩ := hl.kept k r' hr'
    have ht : r'.body.ties = r.body.ties := by rw [hb hz]
    exact ⟨r, hr, ht⟩
  roots := hr

theorem contains (hd : Departs c d d') (hz : k ≠ Hash.zero) (hk : d'.records.contains k) :
    d.records.contains k := by
  obtain ⟨r', hr'⟩ := Map.contains_iff.1 hk
  obtain ⟨r, hr, _⟩ := hd.kept k r' hz hr'
  exact Map.contains_of_get hr

theorem congr {d'' : Dirty} (hd : Departs c d d') (hr : d''.records = d'.records) :
    Departs c d d'' where
  kept := hr ▸ hd.kept
  roots k := by
    have hroots : d''.roots = d'.roots := by rw [Dirty.roots, Dirty.roots, hr]
    rw [hroots, hd.roots, Command.forgets, Command.forgets, hr]

/-- A commit takes nodes out of memory one by one, each with the meta-root's edge to it. -/
theorem of_without {gone : List Hash} (hw : d.Without gone d') (hc : c.commits)
    (hn : c.swept = none) (hgone : ∀ k ∈ gone, k ≠ Hash.zero ∧ d.records.contains k) :
    Departs c d d' where
  kept k r' hz hr' := by
    have hk := ((hw.contains_iff k).1 (Map.contains_of_get hr')).1
    have ht := ties_of_body (hw.body_eq hz hk)
    rw [hr', Option.map_some, eq_comm, Option.map_eq_some_iff] at ht
    obtain ⟨r, hr, he⟩ := ht
    exact ⟨r, hr, he.symm⟩
  roots k := by
    have hforgets : c.forgets d d' k ↔ k ∈ gone := by
      have hk := hw.contains_iff k
      rw [← not_iff_not] at hk
      simp only [Command.forgets, hc, hn, Bool.true_and, Bool.and_eq_true, Bool.not_eq_true',
        ← Bool.not_eq_true, hk, reduceCtorEq, decide_false, Bool.false_or, not_and_or, not_not]
      constructor
      · rintro ⟨hm | hk, hd⟩
        · exact hm
        · exact absurd hd hk
      · exact fun hm => ⟨.inl hm, (hgone k hm).2⟩
    rw [hw.roots_eq, Map.get_eraseAll]
    exact if_congr hforgets.symm rfl rfl

theorem roots_of_contains (hd : Departs c d d') (hk : d'.records.contains k) :
    d'.roots[k]? = d.roots[k]? := by
  have hforgets : c.forgets d d' k = false := by simp [Command.forgets, hk]
  rw [hd.roots, hforgets, if_neg Bool.false_ne_true]

end Departs

namespace Sweep

variable {s s' : Sweep} {arrangement : Arrangement} {depth : Nat}

theorem roots_run (hr : run arrangement depth s h = some s') : s'.dirty.roots = s.dirty.roots := by
  apply rel_run (R := fun s s' => s'.dirty.roots = s.dirty.roots) (fun _ => rfl)
    (fun _ _ _ h₁ h₂ => h₂.trans h₁) (fun s => by rw [dirty_tick]) ?_ hr
  intro s h s' hs hroots
  rw [dirty_drop, roots_remove _ hs.1, hroots, roots_unlink]

end Sweep

end Dirty

namespace Database

open Dirty (Change Departs)

variable {db db' : Database} {c : Command} {order : List Hash} {arrangement : Dirty.Arrangement}
  {clock : List Duration} {root : Hash}

theorem departs_sweep {result : Except Error (List Hash)} (hc : c.swept = some root)
    (hn : c.commits = false) (hw : db.dirty.WellFormed order)
    (hs : db.sweep arrangement clock root = some (result, db')) : Departs c db.dirty db'.dirty := by
  have hforgets : ∀ (d' : Dirty) (k : Hash), c.forgets db.dirty d' k =
      (!d'.records.contains k && decide (root = k)) := by
    intro d' k
    simp [Command.forgets, hc, hn]
  rw [sweep] at hs
  split at hs
  · next hz =>
    cases hs
    have hroots : ∀ k : Hash, db.dirty.roots[k]? =
        if c.forgets db.dirty db.dirty k then none else db.dirty.roots[k]? := by
      intro k
      rw [hforgets, of_decide_eq_true hz]
      by_cases hk : Hash.zero = k
      · rw [← hk, hw.rooted.contains, Bool.not_true, Bool.false_and, if_neg Bool.false_ne_true]
      · rw [decide_eq_false hk, Bool.and_false, if_neg Bool.false_ne_true]
    exact .of_loses (.refl db.dirty) hroots
  · rw [Option.bind_eq_bind, Option.bind_eq_some_iff] at hs
    obtain ⟨s, hsweep, hs⟩ := hs
    cases hs
    have hp := progress_of_sweep hsweep
    have hroots : s.dirty.roots = db.dirty.roots := Dirty.Sweep.roots_run hsweep
    have hd : Departs c db.dirty (s.dirty.forgetRoot root) := by
      apply Departs.of_loses (hp.toLoses.trans (.forgetRoot s.dirty root))
      intro k
      rw [hforgets, Dirty.roots_forgetRoot, Dirty.contains_forgetRoot, hroots]
      by_cases hk : root = k
      · subst hk
        cases s.dirty.records.contains root with
        | true => rfl
        | false => simp
      · rw [decide_eq_false hk, Bool.and_false, if_neg Bool.false_ne_true]
        split
        · rfl
        · rw [Map.get_erase, if_neg hk]
    exact hd.congr rfl

theorem departs_dereference {result : Except Error Unit} (hw : db.dirty.WellFormed order)
    (hs : db.dereference arrangement clock root = some (result, db')) :
    Departs (.dereference root arrangement clock) db.dirty db'.dirty := by
  rw [dereference, Option.bind_eq_bind, Option.bind_eq_some_iff] at hs
  obtain ⟨⟨r, db₁⟩, hs, he⟩ := hs
  cases he
  exact departs_sweep rfl rfl hw hs

theorem departs_dereferenceStored {result : Except Error Unit} (hw : db.dirty.WellFormed order)
    (hs : db.dereferenceStored arrangement clock root = some (result, db')) :
    Departs (.dereferenceStored root arrangement clock) db.dirty db'.dirty := by
  rw [dereferenceStored, Option.bind_eq_bind, Option.bind_eq_some_iff] at hs
  obtain ⟨⟨r, db₁⟩, hs, he⟩ := hs
  have hd : Departs (.dereferenceStored root arrangement clock) db.dirty db₁.dirty :=
    departs_sweep rfl rfl hw hs
  cases r <;> cases he <;> exact hd.congr rfl

theorem departs_cap (hw : db.dirty.WellFormed order) (arrangement : Dirty.Arrangement)
    (limit : Nat) :
    Departs (.cap limit arrangement) db.dirty (db.cap arrangement limit).2.dirty := by
  cases hc : db.cap arrangement limit with
  | mk result db' =>
    cases result with
    | error e =>
      obtain ⟨_, _, _, hd, _⟩ := cap_error hc
      exact .of_ties rfl rfl fun k => by rw [hd]
    | ok u =>
      obtain ⟨_, _, _, stats, hd⟩ := cap_ok hc
      let evicted := db.cleared.evict (db.leaving limit) (db.dirty.overflow limit).2
      have hzero : Hash.zero ∉ (db.leaving limit).map Prod.fst := by
        intro hm
        obtain ⟨n, hn, he⟩ := List.mem_map.1 hm
        exact (get_of_mem_leaving hw hn).1 he
      have hroots : evicted.roots = db.dirty.roots := by
        have hb := Dirty.body_evict db.cleared (db.leaving limit) (db.dirty.overflow limit).2
          Hash.zero
        rw [if_neg hzero, records_cleared] at hb
        have he := congrArg (Option.map Dirty.Record.edges) hb
        rw [Option.map_map, Option.map_map] at he
        exact Dirty.roots_of_edges he
      have hkept := (shrinks_evict_leaving hw limit).kept
      rw [records_cleared] at hkept
      have hdeparts : Departs (.cap limit arrangement) db.dirty evicted := by
        constructor
        · intro k r' hz hr'
          obtain ⟨r, hr, _, hb⟩ := hkept k r' hr'
          have ht : r'.body.ties = r.body.ties := by rw [hb hz]
          exact ⟨r, hr, ht⟩
        · intro k
          have hforgets : Command.forgets (.cap limit arrangement) db.dirty evicted k = false := by
            simp [Command.forgets, Command.swept, Command.commits]
          rw [hforgets, if_neg Bool.false_ne_true, hroots]
      exact hdeparts.congr (by rw [hd])

theorem departs_commit (hw : db.dirty.WellFormed order) (arrangement : Dirty.Arrangement)
    (root : Hash) (report uncache : Bool) :
    Departs (.commit root report uncache arrangement) db.dirty
      (db.commit arrangement root report uncache).2.dirty := by
  obtain ⟨nodes, _, d, hcommits, hleft, hends⟩ :=
    commits_of_commit hw (Prod.mk.eta (p := db.commit arrangement root report uncache)).symm
  have hgone : ∀ k ∈ leavers uncache nodes, k ≠ Hash.zero ∧ db.dirty.records.contains k := by
    intro k hk
    rw [leavers] at hk
    split at hk
    · obtain ⟨n, hn, rfl⟩ := List.mem_map.1 hk
      exact cached_of_mem_pending hw n (hcommits.first.subset hn)
    · cases hk
  have hd : Departs (.commit root report uncache arrangement) db.dirty d :=
    .of_without hleft rfl rfl hgone
  rcases hends with ⟨_, _, he⟩ | ⟨_, _, _, he⟩
  · exact hd.congr (congrArg Dirty.records he)
  · exact hd.congr ((congrArg Dirty.records he).trans (records_clearPreimages d))

end Database

open Dirty (Change Departs)

variable {db db' : Database} {c : Command} {order : List Hash}

/-- Every command changes the edges in one of these ways. -/
theorem Command.change (hw : db.dirty.WellFormed order) (he : c.exec db = some db') :
    Change c db.dirty db'.dirty := by
  cases c with
  | insert h size node =>
    cases he
    exact db.dirty_insertContent .. ▸ .inserted rfl
  | insertBlob h blob =>
    cases he
    exact db.dirty_insertContent .. ▸ .inserted rfl
  | insertNode node =>
    cases he
    exact db.dirty_insertContent .. ▸ .inserted rfl
  | insertPreimage h preimage =>
    cases he
    exact .departed rfl (.of_ties rfl rfl fun k => by
      rw [Database.insertPreimage, Dirty.records_insertPreimage])
  | reference child parent =>
    cases he
    exact db.dirty_reference child parent ▸ .referenced rfl
  | stamp root arrangement elapsed =>
    cases he
    exact db.dirty_stamp arrangement elapsed root ▸
      .departed rfl (.of_ties rfl rfl (db.dirty.ties_stamp arrangement root))
  | nextVersion =>
    cases he
    exact .departed rfl (.of_ties rfl rfl fun _ => rfl)
  | dereference root arrangement clock =>
    obtain ⟨⟨result, db₁⟩, hd, rfl⟩ := Option.map_eq_some_iff.1 he
    exact .departed rfl (Database.departs_dereference hw hd)
  | dereferenceStored root arrangement clock =>
    obtain ⟨⟨result, db₁⟩, hd, rfl⟩ := Option.map_eq_some_iff.1 he
    exact .departed rfl (Database.departs_dereferenceStored hw hd)
  | collect count arrangement =>
    cases he
    exact .departed rfl (.of_ties rfl rfl fun k => by rw [db.records_collect])
  | forgetUseless =>
    cases he
    exact .departed rfl (.of_ties rfl rfl fun _ => rfl)
  | cap limit arrangement =>
    cases he
    exact .departed rfl (Database.departs_cap hw arrangement limit)
  | commit root report uncache arrangement =>
    cases he
    exact .departed rfl (Database.departs_commit hw arrangement root report uncache)
  | readNode h =>
    cases he
    exact .departed rfl (.of_ties rfl rfl fun k => by
      rw [Database.node, (Database.Reads.lookup db h).dirty])
  | readBlob h =>
    cases he
    exact .departed rfl (.of_ties rfl rfl fun k => by
      rw [Database.blob, (Database.Reads.lookup db h).dirty])
  | readPreimage h =>
    cases he
    exact .departed rfl (.of_ties rfl rfl fun k => by rw [(Database.Reads.preimage db h).dirty])
  | arm faults =>
    cases he
    exact .departed rfl (.of_ties rfl rfl fun _ => rfl)

end TrieCache
