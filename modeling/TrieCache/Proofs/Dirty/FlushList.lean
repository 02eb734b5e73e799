import Mathlib.Data.List.Basic
import Mathlib.Data.List.Induction
import Mathlib.Data.List.Nodup
import TrieCache.Dirty.FlushList
import TrieCache.Proofs.Map

namespace TrieCache.Dirty

section Neighbours

variable {α : Type} [DecidableEq α] {p q order : List α} {h x : α}

def after : List α → α → Option α
  | [], _ => none
  | a :: rest, h => if a = h then rest.head? else after rest h

def before (order : List α) (h : α) : Option α := after order.reverse h

theorem after_of_not_mem (hx : x ∉ p) : after p x = none := by
  induction p with
  | nil => rfl
  | cons a p ih =>
    rw [List.mem_cons, not_or] at hx
    rw [after, if_neg (Ne.symm hx.1), ih hx.2]

theorem after_append_of_not_mem (hx : x ∉ p) : after (p ++ q) x = after q x := by
  induction p with
  | nil => rfl
  | cons a p ih =>
    rw [List.mem_cons, not_or] at hx
    rw [List.cons_append, after, if_neg (Ne.symm hx.1), ih hx.2]

theorem after_append_cons (hh : h ∉ p) : after (p ++ h :: q) h = q.head? := by
  rw [after_append_of_not_mem hh, after, if_pos rfl]

theorem mem_of_after (hx : after p x = some h) : h ∈ p := by
  induction p with
  | nil => cases hx
  | cons a p ih =>
    rw [after] at hx
    split at hx
    · exact List.mem_cons_of_mem _ (List.mem_of_mem_head? hx)
    · exact List.mem_cons_of_mem _ (ih hx)

theorem after_append (hn : (p ++ q).Nodup) :
    after (p ++ q) x = if p.getLast? = some x then q.head? else (after p x).or (after q x) := by
  induction p with
  | nil => simp [after]
  | cons a p ih =>
    rw [List.cons_append, List.nodup_cons] at hn
    rw [List.cons_append, after, ih hn.2]
    cases p with
    | nil =>
      by_cases he : a = x
      · simp [he]
      · simp [he, after]
    | cons b p =>
      have hl : (a :: b :: p).getLast? = (b :: p).getLast? := List.getLast?_cons_cons
      have ha : (b :: p).getLast? ≠ some a := by
        intro he
        exact hn.1 (List.mem_append_left _ (List.mem_of_getLast? he))
      have hc : after (a :: b :: p) x = if a = x then some b else after (b :: p) x := rfl
      rw [hl, hc]
      by_cases he : a = x
      · subst x
        simp [ha]
      · simp [he]

theorem after_append_of_cons (hn : (p ++ h :: q).Nodup) (hx : x ≠ h) :
    after (p ++ q) x = if p.getLast? = some x then q.head? else after (p ++ h :: q) x := by
  have hs : (p ++ q).Nodup := hn.sublist ((List.sublist_cons_self h q).append_left p)
  rw [after_append hs, after_append hn]
  have hq : after (h :: q) x = after q x := by rw [after, if_neg (Ne.symm hx)]
  rw [hq]
  split <;> rfl

theorem before_append_of_cons (hn : (p ++ h :: q).Nodup) (hx : x ≠ h) :
    before (p ++ q) x = if q.head? = some x then p.getLast? else before (p ++ h :: q) x := by
  have hn' : (q.reverse ++ h :: p.reverse).Nodup := by
    simpa using List.nodup_reverse.2 hn
  simpa [before] using after_append_of_cons hn' hx

theorem before_append_cons (hh : h ∉ q) : before (p ++ h :: q) h = p.getLast? := by
  have hh' : h ∉ q.reverse := mt List.mem_reverse.1 hh
  simpa [before] using after_append_cons (q := p.reverse) hh'

theorem before_of_not_mem (hx : x ∉ p) : before p x = none :=
  after_of_not_mem (mt List.mem_reverse.1 hx)

theorem mem_of_before (hx : before p x = some h) : h ∈ p :=
  List.mem_reverse.1 (mem_of_after hx)

theorem after_concat (hn : (p ++ [h]).Nodup) :
    after (p ++ [h]) x = if p.getLast? = some x then some h else after p x := by
  have hs : after [h] x = none := by
    rw [after]
    split <;> rfl
  rw [after_append hn, hs, Option.or_none]
  rfl

theorem before_concat : before (p ++ [h]) x = if x = h then p.getLast? else before p x := by
  rw [before, List.reverse_append, List.reverse_singleton, List.singleton_append, after]
  split
  · next he => rw [if_pos he.symm, List.head?_reverse]
  · next he => rw [if_neg (Ne.symm he), before]

theorem before_of_append (hn : (p ++ q).Nodup) (hx : x ∉ p) :
    before q x = if q.head? = some x then none else before (p ++ q) x := by
  have hn' : (q.reverse ++ p.reverse).Nodup := by
    simpa using List.nodup_reverse.2 hn
  have ha := after_append (x := x) hn'
  rw [after_of_not_mem (mt List.mem_reverse.1 hx), Option.or_none, List.getLast?_reverse] at ha
  by_cases he : q.head? = some x
  · rw [if_pos he]
    cases q with
    | nil => cases he
    | cons a q =>
      rw [List.head?_cons, Option.some.injEq] at he
      subst he
      have hq : a ∉ q := (List.nodup_cons.1 (List.nodup_append.1 hn).2.1).1
      exact before_append_cons (p := []) hq
  · rw [if_neg he, before, before, List.reverse_append, ha, if_neg he]

end Neighbours

namespace Record

variable (r : Record) (p n p' n' : Option Hash)

def relink : Record := { r with prev := p, next := n }

/-- A record without its links. -/
def body : Record := r.relink none none

def links : Option Hash × Option Hash := (r.prev, r.next)

@[simp] theorem relink_prev : (r.relink p n).prev = p := rfl

@[simp] theorem relink_next : (r.relink p n).next = n := rfl

@[simp] theorem relink_relink : (r.relink p n).relink p' n' = r.relink p' n' := rfl

@[simp] theorem links_relink : (r.relink p n).links = (p, n) := rfl

@[simp] theorem body_relink : (r.relink p n).body = r.body := rfl

@[simp] theorem relink_self : r.relink r.prev r.next = r := rfl

end Record

namespace FlushList

/-- The links of the records chain a list, whose ends are those of the flush list. -/
structure Represents (l : FlushList) (rs : Records) (order : List Hash) : Prop where
  nodup : order.Nodup
  oldest : l.oldest = order.head?
  newest : l.newest = order.getLast?
  cached : ∀ h ∈ order, rs.contains h
  links : ∀ h r, rs[h]? = some r → r.links = (before order h, after order h)

variable {l : FlushList} {rs rs' : Records} {order p q : List Hash} {h : Hash} {r : Record}

theorem get_setPrev (rs : Records) (h k : Hash) (prev : Option Hash) :
    (setPrev rs h prev)[k]? =
      rs[k]?.map fun r => r.relink (if h = k then prev else r.prev) r.next := by
  rw [setPrev, Map.get_modify]
  by_cases he : h = k <;> simp [he, Record.relink]

theorem get_setNext (rs : Records) (h k : Hash) (next : Option Hash) :
    (setNext rs h next)[k]? =
      rs[k]?.map fun r => r.relink r.prev (if h = k then next else r.next) := by
  rw [setNext, Map.get_modify]
  by_cases he : h = k <;> simp [he, Record.relink]

@[simp] theorem contains_setPrev (k : Hash) (prev : Option Hash) :
    (setPrev rs h prev).contains k = rs.contains k :=
  Std.ExtTreeMap.contains_modify

@[simp] theorem contains_setNext (k : Hash) (next : Option Hash) :
    (setNext rs h next).contains k = rs.contains k :=
  Std.ExtTreeMap.contains_modify

@[simp] theorem neighbour_setPrev (prev link : Option Hash) :
    neighbour (setPrev rs h prev) link = neighbour rs link := by
  simp only [neighbour, contains_setPrev]

@[simp] theorem neighbour_setNext (next link : Option Hash) :
    neighbour (setNext rs h next) link = neighbour rs link := by
  simp only [neighbour, contains_setNext]

theorem neighbour_of_contains {link : Option Hash} (hl : ∀ a, link = some a → rs.contains a) :
    neighbour rs link = link := by
  cases link with
  | none => rfl
  | some a => rw [neighbour, Option.filter_some_pos (hl a rfl)]

/-- Following one kind of links from the first entry of a list that they chain. -/
theorem follow_eq_take {link : Record → Option Hash} {seq : List Hash} (hn : seq.Nodup)
    (hc : ∀ h ∈ seq, rs.contains h) (hl : ∀ h r, rs[h]? = some r → link r = after seq h)
    (limit : Nat) : follow link rs limit seq.head? = seq.take limit := by
  suffices hs : ∀ p q, seq = p ++ q → follow link rs limit q.head? = q.take limit from hs [] seq rfl
  induction limit with
  | zero =>
    intro p q he
    rw [follow, List.take_zero]
  | succ limit ih =>
    intro p q he
    cases q with
    | nil => rw [List.head?_nil, follow, List.take_nil]
    | cons h q =>
      subst he
      obtain ⟨r, hr⟩ := Map.contains_iff.1 (hc h (by simp))
      have hp : h ∉ p := fun hm => List.disjoint_of_nodup_append hn hm List.mem_cons_self
      have hnext : rs[h]?.bind link = q.head? := by
        rw [hr, Option.bind_some, hl h r hr, after_append_cons hp]
      rw [List.head?_cons, follow, hnext, List.take_succ_cons, ih (p ++ [h]) q (by simp)]

namespace Represents

theorem forward (hr : Represents l rs order) (limit : Nat) :
    l.forward rs limit = order.take limit := by
  rw [FlushList.forward, hr.oldest]
  exact follow_eq_take hr.nodup hr.cached (fun h r hg => congrArg Prod.snd (hr.links h r hg)) limit

theorem backward (hr : Represents l rs order) (limit : Nat) :
    l.backward rs limit = order.reverse.take limit := by
  rw [FlushList.backward, hr.newest, ← List.head?_reverse]
  apply follow_eq_take (List.nodup_reverse.2 hr.nodup)
  · intro h hm
    exact hr.cached h (List.mem_reverse.1 hm)
  · intro h r hg
    exact congrArg Prod.fst (hr.links h r hg)

theorem links_of_not_mem (hr : Represents l rs order) (hh : h ∉ order) (hg : rs[h]? = some r) :
    r.links = (none, none) := by
  rw [hr.links h r hg, before_of_not_mem hh, after_of_not_mem hh]

theorem empty (hl : ∀ (h : Hash) (r : Record), rs[h]? = some r → r.links = (none, none)) :
    Represents .empty rs [] where
  nodup := List.nodup_nil
  oldest := rfl
  newest := rfl
  cached := nofun
  links := hl

theorem congr (hr : Represents l rs order)
    (hk : ∀ k : Hash, rs'[k]?.map Record.links = rs[k]?.map Record.links) :
    Represents l rs' order where
  nodup := hr.nodup
  oldest := hr.oldest
  newest := hr.newest
  cached h hm := by
    obtain ⟨r, hg⟩ := Map.contains_iff.1 (hr.cached h hm)
    have he := hk h
    rw [hg, Option.map_some, Option.map_eq_some_iff] at he
    obtain ⟨r', hg', _⟩ := he
    exact Map.contains_of_get hg'
  links h r' hg' := by
    have he := hk h
    rw [hg', Option.map_some, eq_comm, Option.map_eq_some_iff] at he
    obtain ⟨r, hg, he⟩ := he
    rw [← he, hr.links h r hg]

theorem insert (hr : Represents l rs order) (hh : rs[h]? = none) (hl : r.links = (none, none)) :
    Represents l (rs.insert h r) order where
  nodup := hr.nodup
  oldest := hr.oldest
  newest := hr.newest
  cached k hm := by
    rw [Std.ExtTreeMap.contains_insert, hr.cached k hm, Bool.or_true]
  links k s hs := by
    rw [Map.get_insert] at hs
    split at hs
    · next he =>
      cases hs
      have hm : k ∉ order := by
        intro hm
        obtain ⟨s, hs⟩ := Map.contains_iff.1 (hr.cached k hm)
        rw [← he, hh] at hs
        cases hs
      rw [hl, before_of_not_mem hm, after_of_not_mem hm]
    · exact hr.links k s hs

theorem erase (hr : Represents l rs order) (hh : h ∉ order) : Represents l (rs.erase h) order where
  nodup := hr.nodup
  oldest := hr.oldest
  newest := hr.newest
  cached k hm := by
    obtain ⟨s, hs⟩ := Map.contains_iff.1 (hr.cached k hm)
    have hne : h ≠ k := fun he => hh (he ▸ hm)
    rw [Map.contains_iff]
    exact ⟨s, by rw [Map.get_erase, if_neg hne, hs]⟩
  links k s hs := by
    rw [Map.get_erase] at hs
    split at hs
    · cases hs
    · exact hr.links k s hs

theorem unique {l' : FlushList} (hr : Represents l rs order) (hr' : Represents l' rs' order)
    (hb : ∀ k : Hash, rs'[k]?.map Record.body = rs[k]?.map Record.body) : l' = l ∧ rs' = rs := by
  constructor
  · have ho : l'.oldest = l.oldest := hr'.oldest.trans hr.oldest.symm
    have hn : l'.newest = l.newest := hr'.newest.trans hr.newest.symm
    cases l
    cases l'
    cases ho
    cases hn
    rfl
  · apply Std.ExtTreeMap.ext_getElem?
    intro k
    have hk := hb k
    cases hg : rs[k]? with
    | none =>
      rw [hg, Option.map_none, Option.map_eq_none_iff] at hk
      exact hk
    | some r =>
      rw [hg, Option.map_some, Option.map_eq_some_iff] at hk
      obtain ⟨r', hg', he⟩ := hk
      have hlinks : r'.links = r.links := (hr'.links k r' hg').trans (hr.links k r hg).symm
      have hrelink : r'.body.relink r'.links.1 r'.links.2 = r.body.relink r.links.1 r.links.2 := by
        rw [he, hlinks]
      exact hg'.trans (congrArg some hrelink)

theorem neighbours_cached (hr : Represents l rs order) (hg : rs[h]? = some r) :
    (∀ a, r.prev = some a → rs.contains a) ∧ ∀ a, r.next = some a → rs.contains a := by
  have hl := hr.links h r hg
  constructor
  · intro a ha
    exact hr.cached a (mem_of_before ((congrArg Prod.fst hl).symm.trans ha))
  · intro a ha
    exact hr.cached a (mem_of_after ((congrArg Prod.snd hl).symm.trans ha))

end Represents

section PushBack

variable (hl : ∀ a, l.newest = some a → rs.contains a)
include hl

theorem pushBack_ends :
    (l.pushBack rs h).1 = ⟨if l.newest = none then some h else l.oldest, some h⟩ := by
  simp only [pushBack, neighbour_setPrev, neighbour_setNext, neighbour_of_contains hl]
  cases l.newest <;> rfl

theorem get_pushBack (k : Hash) :
    (l.pushBack rs h).2[k]? = rs[k]?.map fun r =>
      r.relink (if h = k then l.newest else r.prev)
        (if l.newest = some k then some h else if h = k then none else r.next) := by
  simp only [pushBack, neighbour_setPrev, neighbour_setNext, neighbour_of_contains hl]
  cases l.newest <;> simp [get_setNext, get_setPrev, Function.comp_def]

end PushBack

section Unlink

variable (hg : rs[h]? = some r) (hp : ∀ a, r.prev = some a → rs.contains a)
  (hn : ∀ a, r.next = some a → rs.contains a)
include hg hp hn

theorem unlink_ends :
    (l.unlink rs h).1 =
      ⟨if r.prev = none ∧ l.oldest = some h then r.next else l.oldest,
        if r.next = none ∧ l.newest = some h then r.prev else l.newest⟩ := by
  rw [unlink, hg]
  simp only [neighbour_setPrev, neighbour_setNext, neighbour_of_contains hp]
  cases r.prev with
  | none =>
    simp only [neighbour_setPrev, neighbour_setNext, neighbour_of_contains hn]
    cases r.next <;> simp
  | some older =>
    simp only [neighbour_setPrev, neighbour_setNext, neighbour_of_contains hn]
    cases r.next <;> simp

theorem get_unlink (k : Hash) :
    (l.unlink rs h).2[k]? = rs[k]?.map fun s =>
      s.relink (if r.next = some k then r.prev else if h = k then none else s.prev)
        (if r.prev = some k then r.next else if h = k then none else s.next) := by
  rw [unlink, hg]
  simp only [neighbour_setPrev, neighbour_setNext, neighbour_of_contains hp]
  cases r.prev with
  | none =>
    simp only [neighbour_setPrev, neighbour_setNext, neighbour_of_contains hn]
    cases r.next <;> simp [get_setNext, get_setPrev, Function.comp_def]
  | some older =>
    simp only [neighbour_setPrev, neighbour_setNext, neighbour_of_contains hn]
    cases r.next <;> simp [get_setNext, get_setPrev, Function.comp_def]

end Unlink

namespace Represents

theorem newest_cached (hr : Represents l rs order) : ∀ a, l.newest = some a → rs.contains a := by
  intro a ha
  rw [hr.newest] at ha
  exact hr.cached a (List.mem_of_getLast? ha)

theorem pushBack (hr : Represents l rs order) (hc : rs.contains h) (hh : h ∉ order) :
    Represents (l.pushBack rs h).1 (l.pushBack rs h).2 (order ++ [h]) := by
  have hn : (order ++ [h]).Nodup := by
    rw [List.nodup_append]
    exact ⟨hr.nodup, List.nodup_singleton h, fun a ha b hb he => by
      rw [List.mem_singleton] at hb
      exact hh (hb ▸ he ▸ ha)⟩
  rw [pushBack_ends hr.newest_cached]
  refine ⟨hn, ?_, ?_, ?_, ?_⟩
  · rw [hr.newest, hr.oldest]
    cases order <;> simp
  · simp
  · intro k hk
    rw [Std.ExtTreeMap.contains_eq_isSome_getElem?, get_pushBack hr.newest_cached,
      Option.isSome_map, ← Std.ExtTreeMap.contains_eq_isSome_getElem?]
    rcases List.mem_append.1 hk with hk | hk
    · exact hr.cached k hk
    · rw [List.mem_singleton] at hk
      exact hk ▸ hc
  · intro k s hs
    rw [get_pushBack hr.newest_cached, Option.map_eq_some_iff] at hs
    obtain ⟨s, hs, rfl⟩ := hs
    have hls := hr.links k s hs
    rw [Record.links, Prod.mk.injEq] at hls
    rw [Record.links_relink, before_concat, after_concat hn, hr.newest, hls.1, hls.2]
    by_cases he : h = k
    · subst k
      rw [if_pos rfl, if_pos rfl, after_of_not_mem hh]
    · rw [if_neg he, if_neg he, if_neg (Ne.symm he)]

theorem unlink_of_split (hr : Represents l rs (p ++ h :: q)) (hg : rs[h]? = some r) :
    Represents (l.unlink rs h).1 (l.unlink rs h).2 (p ++ q) := by
  obtain ⟨hp, hn⟩ := hr.neighbours_cached hg
  have hdis := List.nodup_append.1 hr.nodup
  have hhp : h ∉ p := fun hm => hdis.2.2 h hm h List.mem_cons_self rfl
  have hhq : h ∉ q := (List.nodup_cons.1 hdis.2.1).1
  have hlr := hr.links h r hg
  rw [before_append_cons hhq, after_append_cons hhp, Record.links, Prod.mk.injEq] at hlr
  rw [unlink_ends hg hp hn, hr.oldest, hr.newest, hlr.1, hlr.2]
  refine ⟨hr.nodup.sublist ((List.sublist_cons_self h q).append_left p), ?_, ?_, ?_, ?_⟩
  · cases p <;> simp
  · cases q <;> simp
  · intro k hk
    rw [Std.ExtTreeMap.contains_eq_isSome_getElem?, get_unlink hg hp hn, Option.isSome_map,
      ← Std.ExtTreeMap.contains_eq_isSome_getElem?]
    exact hr.cached k (((List.sublist_cons_self h q).append_left p).subset hk)
  · intro k s hs
    rw [get_unlink hg hp hn, Option.map_eq_some_iff] at hs
    obtain ⟨s, hs, rfl⟩ := hs
    have hls := hr.links k s hs
    rw [Record.links, Prod.mk.injEq] at hls
    rw [Record.links_relink, hlr.1, hlr.2, hls.1, hls.2]
    by_cases hk : h = k
    · subst k
      have hpq : h ∉ p ++ q := fun hm => (List.mem_append.1 hm).elim hhp hhq
      have hlast : p.getLast? ≠ some h := fun hl => hhp (List.mem_of_getLast? hl)
      have hhead : q.head? ≠ some h := fun hl => hhq (List.mem_of_mem_head? hl)
      rw [if_neg hhead, if_neg hlast, if_pos rfl, if_pos rfl, before_of_not_mem hpq,
        after_of_not_mem hpq]
    · rw [if_neg hk, if_neg hk, before_append_of_cons hr.nodup (Ne.symm hk),
        after_append_of_cons hr.nodup (Ne.symm hk)]

theorem unlink_of_not_mem (hr : Represents l rs order) (hm : h ∉ order) (hg : rs[h]? = some r) :
    Represents (l.unlink rs h).1 (l.unlink rs h).2 order := by
  obtain ⟨hp, hn⟩ := hr.neighbours_cached hg
  have hlr := hr.links_of_not_mem hm hg
  rw [Record.links, Prod.mk.injEq] at hlr
  have hends : (l.unlink rs h).1 = l := by
    have ho : l.oldest ≠ some h := by
      rw [hr.oldest]
      exact fun ho => hm (List.mem_of_mem_head? ho)
    have hw : l.newest ≠ some h := by
      rw [hr.newest]
      exact fun hw => hm (List.mem_of_getLast? hw)
    rw [unlink_ends hg hp hn, if_neg (fun hc => ho hc.2), if_neg (fun hc => hw hc.2)]
  rw [hends]
  apply hr.congr
  intro k
  rw [get_unlink hg hp hn, hlr.1, hlr.2, Option.map_map]
  by_cases hk : h = k
  · subst k
    simp [hg, Record.links, hlr]
  · simp only [hk, reduceCtorEq, ↓reduceIte]
    rfl

/-- Taking a key off the list, wherever it stands and whether or not it is there at all. -/
theorem unlink (hr : Represents l rs order) (h : Hash) :
    Represents (l.unlink rs h).1 (l.unlink rs h).2 (order.erase h) := by
  cases hg : rs[h]? with
  | none =>
    have hm : h ∉ order := by
      intro hm
      obtain ⟨r, hr⟩ := Map.contains_iff.1 (hr.cached h hm)
      rw [hg] at hr
      cases hr
    rw [List.erase_of_not_mem hm, FlushList.unlink, hg]
    exact hr
  | some r =>
    by_cases hm : h ∈ order
    · obtain ⟨p, q, rfl⟩ := List.append_of_mem hm
      have hhp : h ∉ p := fun hm =>
        (List.nodup_append.1 hr.nodup).2.2 h hm h List.mem_cons_self rfl
      rw [List.erase_append_right _ hhp, List.erase_cons_head]
      exact hr.unlink_of_split hg
    · rw [List.erase_of_not_mem hm]
      exact hr.unlink_of_not_mem hm hg

theorem truncateFront (hr : Represents l rs (p ++ q))
    (hg : ∀ k : Hash, rs'[k]? = if k ∈ p then none else rs[k]?) :
    Represents (l.truncateFront rs' q.head?).1 (l.truncateFront rs' q.head?).2 q := by
  have hdis := List.nodup_append.1 hr.nodup
  have hc : ∀ k ∈ q, rs'.contains k := by
    intro k hk
    obtain ⟨s, hs⟩ := Map.contains_iff.1 (hr.cached k (List.mem_append_right _ hk))
    have hkp : k ∉ p := fun hm => hdis.2.2 k hm k hk rfl
    exact Map.contains_iff.2 ⟨s, by rw [hg, if_neg hkp, hs]⟩
  have hrest : ∀ k s, rs'[k]? = some s → k ∉ p ∧ rs[k]? = some s := by
    intro k s hs
    rw [hg] at hs
    split at hs
    · cases hs
    · next hk => exact ⟨hk, hs⟩
  have hn : neighbour rs' q.head? = q.head? :=
    neighbour_of_contains fun a ha => hc a (List.mem_of_mem_head? ha)
  rw [FlushList.truncateFront, hn]
  cases q with
  | nil =>
    refine ⟨List.nodup_nil, rfl, rfl, nofun, ?_⟩
    intro k s hs
    obtain ⟨hk, hs⟩ := hrest k s hs
    rw [List.append_nil] at hr
    exact hr.links_of_not_mem hk hs
  | cons a q =>
    change Represents ⟨some a, l.newest⟩ (setPrev rs' a none) (a :: q)
    refine ⟨hdis.2.1, rfl, ?_, ?_, ?_⟩
    · rw [hr.newest, List.getLast?_append_of_ne_nil _ (List.cons_ne_nil a q)]
    · intro k hk
      rw [contains_setPrev]
      exact hc k hk
    · intro k s hs
      rw [get_setPrev, Option.map_eq_some_iff] at hs
      obtain ⟨s, hs, rfl⟩ := hs
      obtain ⟨hk, hs⟩ := hrest k s hs
      have hls := hr.links k s hs
      rw [Record.links, Prod.mk.injEq, after_append_of_not_mem hk] at hls
      rw [Record.links_relink, before_of_append hr.nodup hk, hls.1, hls.2]
      simp only [List.head?_cons, Option.some.injEq]

end Represents

section Bodies

theorem body_setPrev (k : Hash) (prev : Option Hash) :
    (setPrev rs h prev)[k]?.map Record.body = rs[k]?.map Record.body := by
  exact Map.map_modify _ h k fun _ => rfl

theorem body_setNext (k : Hash) (next : Option Hash) :
    (setNext rs h next)[k]?.map Record.body = rs[k]?.map Record.body := by
  exact Map.map_modify _ h k fun _ => rfl

theorem body_pushBack (k : Hash) :
    (l.pushBack rs h).2[k]?.map Record.body = rs[k]?.map Record.body := by
  rw [pushBack]
  split <;> simp only [body_setNext, body_setPrev]

theorem body_unlink (k : Hash) :
    (l.unlink rs h).2[k]?.map Record.body = rs[k]?.map Record.body := by
  rw [unlink]
  cases rs[h]? with
  | none => rfl
  | some r =>
    dsimp only
    cases neighbour (setNext (setPrev rs h none) h none) r.prev with
    | none =>
      dsimp only
      split <;> simp only [body_setNext, body_setPrev]
    | some older =>
      dsimp only
      split <;> simp only [body_setNext, body_setPrev]

theorem body_truncateFront (head : Option Hash) (k : Hash) :
    (l.truncateFront rs head).2[k]?.map Record.body = rs[k]?.map Record.body := by
  rw [truncateFront]
  split
  · rw [body_setPrev]
  · rfl

end Bodies

/-- The same keys, and under each of them the same record but for its links. -/
def SameBodies (rs rs' : Records) : Prop :=
  ∀ k : Hash, rs'[k]?.map Record.body = rs[k]?.map Record.body

/-- A key that is not in the list is not there to be taken off: there is one list for an order. -/
theorem Represents.unlink_eq_self (hr : Represents l rs order) (hh : h ∉ order) :
    l.unlink rs h = (l, rs) := by
  have hr' := hr.unlink h
  rw [List.erase_of_not_mem hh] at hr'
  obtain ⟨hl, hrs⟩ := hr.unique hr' body_unlink
  exact Prod.ext hl hrs

theorem Represents.links_unlink (hr : Represents l rs order)
    (hg : (l.unlink rs h).2[h]? = some r) : r.links = (none, none) :=
  (hr.unlink h).links_of_not_mem (List.Nodup.not_mem_erase hr.nodup) hg

/-- A flush list is the list that its links chain: it is walked in that order from either end, and
what is done to it is done to the list. No record changes but in its links. -/
theorem behaves_as_list (hr : Represents l rs order) :
    (∀ limit, l.forward rs limit = order.take limit ∧
      l.backward rs limit = order.reverse.take limit) ∧
    (∀ h, rs.contains h → h ∉ order →
      Represents (l.pushBack rs h).1 (l.pushBack rs h).2 (order ++ [h]) ∧
        SameBodies rs (l.pushBack rs h).2) ∧
    (∀ h, Represents (l.unlink rs h).1 (l.unlink rs h).2 (order.erase h) ∧
      (h ∉ order → l.unlink rs h = (l, rs)) ∧
      (∀ r, (l.unlink rs h).2[h]? = some r → r.links = (none, none)) ∧
      SameBodies rs (l.unlink rs h).2) ∧
    ∀ p q, order = p ++ q →
      let left := Map.eraseAll rs p
      Represents (l.truncateFront left q.head?).1 (l.truncateFront left q.head?).2 q ∧
        SameBodies left (l.truncateFront left q.head?).2 := by
  refine ⟨fun limit => ⟨hr.forward limit, hr.backward limit⟩, fun h hc hh => ?_, fun h => ?_, ?_⟩
  · exact ⟨hr.pushBack hc hh, body_pushBack⟩
  · exact ⟨hr.unlink h, hr.unlink_eq_self, fun r => hr.links_unlink, body_unlink⟩
  · rintro p q rfl
    exact ⟨hr.truncateFront fun k => Map.get_eraseAll rs p k, body_truncateFront _⟩

def pushBlob (s : FlushList × Records) (h : Hash) : FlushList × Records :=
  s.1.pushBack (s.2.insert h { content := .raw [], size := 0, version := 0 }) h

def ofKeys (order : List Hash) : FlushList × Records := order.foldl pushBlob (.empty, ∅)

theorem represents_ofKeys (hn : order.Nodup) :
    Represents (ofKeys order).1 (ofKeys order).2 order ∧
      ∀ h ∉ order, (ofKeys order).2[h]? = none := by
  induction order using List.reverseRecOn with
  | nil => exact ⟨.empty nofun, fun h _ => Std.ExtTreeMap.getElem?_empty⟩
  | append_singleton order h ih =>
    have hh : h ∉ order := fun hm =>
      (List.nodup_append.1 hn).2.2 h hm h (List.mem_singleton_self h) rfl
    obtain ⟨hr, hnone⟩ := ih (List.nodup_append.1 hn).1
    rw [ofKeys, List.foldl_concat, ← ofKeys, pushBlob]
    refine ⟨(hr.insert (hnone h hh) rfl).pushBack ?_ hh, fun k hk => ?_⟩
    · exact Map.contains_iff.2 ⟨_, Std.ExtTreeMap.getElem?_insert_self⟩
    · rw [List.mem_append, not_or, List.mem_singleton] at hk
      rw [← Option.map_eq_none_iff, body_pushBack, Map.get_insert, if_neg (Ne.symm hk.2),
        hnone k hk.1, Option.map_none]

/-- Three blobs in a row, and the one in the middle taken off. -/
theorem behaves_as_list_of_three :
    let s := ofKeys [.fill 1, .fill 2, .fill 3]
    Represents s.1 s.2 [.fill 1, .fill 2, .fill 3] ∧
      s.1.backward s.2 2 = [.fill 3, .fill 2] ∧
      Represents (s.1.unlink s.2 (.fill 2)).1 (s.1.unlink s.2 (.fill 2)).2 [.fill 1, .fill 3] := by
  have hn : [Hash.fill 1, .fill 2, .fill 3].Nodup := by decide
  obtain ⟨hr, _⟩ := represents_ofKeys hn
  obtain ⟨hwalk, _, hunlink, _⟩ := behaves_as_list hr
  exact ⟨hr, (hwalk 2).2, (hunlink (.fill 2)).1⟩

end FlushList

end TrieCache.Dirty
