import TrieCache.Proofs.Clean.Recency

namespace TrieCache.Clean

/-- What is asked of a cache. To load a journal is to start anew with what it holds. -/
inductive Request
  | get (h : Hash)
  | contains (h : Hash)
  | set (h : Hash) (blob : Bytes)
  | remove (h : Hash)
  | load (d : Directory) (path place : String)

inductive Answer
  | blob (found : Option Bytes)
  | held (found : Bool)
  | done
deriving DecidableEq

def serveAll {σ : Type} (serve : σ → Request → Answer × σ) : σ → List Request → List Answer × σ
  | s, [] => ([], s)
  | s, request :: requests =>
    let (answer, s) := serve s request
    let (answers, s) := serveAll serve s requests
    (answer :: answers, s)

def Cache.serve (maxBytes : Nat) (c : Cache) : Request → Answer × Cache
  | .get h => let (found, c) := c.get h; (.blob found, c)
  | .contains h => (.held (c.contains h), c)
  | .set h blob => (.done, c.set h blob)
  | .remove h => (.done, c.remove h)
  | .load d path place => (.done, (Cache.load d path place maxBytes).1)

/-- The first entries of a list, as many of them as are within a budget. -/
def fitting : (budget : Nat) → List Entry → List Entry
  | _, [] => []
  | budget, e :: rest => if weight e ≤ budget then e :: fitting (budget - weight e) rest else []

/-- The entries of each shard, most recently used first. -/
abbrev Lists := Fin shardCount → List Entry

namespace Lists

open Cache (shardOf)

def empty : Lists := fun _ => []

def find? (ls : Lists) (h : Hash) : Option Bytes :=
  ((ls (shardOf h)).find? (·.1 = h)).map (·.2)

def others (ls : Lists) (h : Hash) : List Entry := (ls (shardOf h)).filter (·.1 ≠ h)

def put (ls : Lists) (h : Hash) (entries : List Entry) : Lists :=
  fun i => if shardOf h = i then entries else ls i

def touch (ls : Lists) (h : Hash) : Lists :=
  match ls.find? h with
  | none => ls
  | some blob => ls.put h ((h, blob) :: ls.others h)

def remove (ls : Lists) (h : Hash) : Lists := ls.put h (ls.others h)

/-- Puts an entry to the front, and keeps what fits. One that is over budget changes nothing. -/
def set (budget : Nat) (ls : Lists) (e : Entry) : Lists :=
  if budget < weight e then ls else ls.put e.1 (fitting budget (e :: ls.others e.1))

def restore (budget : Nat) (d : Directory) (path : String) : Lists :=
  match d.read path with
  | .error _ => empty
  | .ok bytes =>
    match Journal.decode bytes with
    | .error _ => empty
    | .ok entries => entries.foldl (set budget) empty

def serve (budget : Nat) (ls : Lists) : Request → Answer × Lists
  | .get h => (.blob (ls.find? h), ls.touch h)
  | .contains h => (.held ((ls (shardOf h)).any (·.1 = h)), ls)
  | .set h blob => (.done, ls.set budget (h, blob))
  | .remove h => (.done, ls.remove h)
  | .load d path _ => (.done, restore budget d path)

theorem put_self (ls : Lists) (h : Hash) : ls.put h (ls (shardOf h)) = ls := by
  funext i
  rw [put]
  split
  · next hi => rw [hi]
  · rfl

end Lists

theorem longestRun_fitting (budget : Nat) (entries : List Entry) :
    LongestRun budget entries (fitting budget entries) := by
  induction entries generalizing budget with
  | nil => exact .all (Nat.zero_le _)
  | cons e entries ih =>
    rw [fitting]
    split
    · next hw =>
      have ih := ih (budget - weight e)
      refine ⟨List.cons_prefix_cons.2 ⟨rfl, ih.start⟩, ?_, fun other hp how => ?_⟩
      · have hwithin := ih.within
        rw [weigh_cons]
        omega
      · obtain rfl | ⟨rest, rfl, hrest⟩ := List.prefix_cons_iff.1 hp
        · exact List.nil_prefix
        · rw [weigh_cons] at how
          exact List.cons_prefix_cons.2 ⟨rfl, ih.longest rest hrest (by omega)⟩
    · next hw =>
      refine ⟨List.nil_prefix, Nat.zero_le _, fun other hp how => ?_⟩
      obtain rfl | ⟨rest, rfl, hrest⟩ := List.prefix_cons_iff.1 hp
      · exact List.nil_prefix
      · rw [weigh_cons] at how
        exact absurd ((Nat.le_add_right _ _).trans how) hw

theorem LongestRun.head {budget : Nat} {e : Entry} {entries run : List Entry}
    (h : LongestRun budget (e :: entries) run) (hw : weight e ≤ budget) :
    ∃ rest, run = e :: rest := by
  have hsingle : [e] <+: run := by
    apply h.longest
    · exact List.cons_prefix_cons.2 ⟨rfl, List.nil_prefix⟩
    · simpa using hw
  obtain ⟨rest, rfl⟩ := hsingle
  exact ⟨rest, rfl⟩

theorem eq_nil_of_weigh_le {entries : List Entry} (hw : weigh entries ≤ 1) : entries = [] := by
  cases entries with
  | nil => rfl
  | cons e entries =>
    rw [weigh_cons, weight] at hw
    omega

namespace Cache

variable {c : Cache} {maxBytes : Nat} {h : Hash} {blob : Bytes} {ls : Lists}

def lists (c : Cache) : Lists := fun i => (c.shards.get i).entries

theorem lists_update (c : Cache) (h : Hash) (f : Shard → Shard) :
    (c.update h f).lists = c.lists.put h (f (c.shard h)).entries := by
  funext i
  change (c.update h f).shards[i].entries = _
  rw [getElem_update, Lists.put]
  split
  · next hi =>
    subst hi
    rfl
  · rfl

theorem lists_new (maxBytes : Nat) : (new maxBytes).lists = Lists.empty := by
  funext i
  change (new maxBytes).shards[i].entries = _
  rw [getElem_new]
  rfl

theorem lists_get (c : Cache) (h : Hash) : (c.get h).2.lists = c.lists.touch h := by
  have hfind : c.lists.find? h = (c.shard h).find? h := rfl
  rw [get, lists_update, Shard.touch, Lists.touch, hfind]
  cases (c.shard h).find? h with
  | none => exact Lists.put_self c.lists h
  | some blob => rfl

theorem lists_remove (c : Cache) (h : Hash) : (c.remove h).lists = c.lists.remove h := by
  rw [remove, lists_update, Shard.entries_remove]
  rfl

theorem set_of_over (hb : c.shardBudget < wordMax) (hw : c.shardBudget < weight (h, blob)) :
    c.set h blob = c := by
  rw [set, update, Shard.insert_of_over hw hb, shard]
  simp

section Set

variable (hc : c.Sound) (hb : c.shardBudget + c.shardBudget < wordMax)
include hc hb

theorem lists_set (h : Hash) (blob : Bytes) :
    (c.set h blob).lists = c.lists.set c.shardBudget (h, blob) := by
  rw [Lists.set]
  split
  · next hw => rw [set_of_over (by omega) hw]
  · next hw =>
    obtain ⟨hrun, _⟩ :=
      Shard.longestRun_insert (hc.shard (shardOf h)) (Nat.le_of_lt hb) (Nat.not_lt.1 hw)
    rw [set, lists_update]
    exact congrArg (c.lists.put h) (hrun.unique (longestRun_fitting _ _))

theorem lists_setAll (entries : List Entry) :
    (c.setAll entries).lists = entries.foldl (Lists.set c.shardBudget) c.lists := by
  induction entries generalizing c with
  | nil => rfl
  | cons e entries ih =>
    rw [List.foldl_cons, ← lists_set hc hb]
    exact ih (hc.set hb e.1 e.2) hb

end Set

theorem lists_load (hm : maxBytes ≤ wordMax) (d : Directory) (path place : String) :
    (load d path place maxBytes).1.lists = Lists.restore (new maxBytes).shardBudget d path := by
  rw [load, Lists.restore]
  cases d.read path with
  | error e => cases e <;> exact lists_new maxBytes
  | ok bytes =>
    dsimp only
    cases Journal.decode bytes with
    | error e => exact lists_new maxBytes
    | ok entries =>
      dsimp only
      rw [lists_setAll (sound_new maxBytes) (shardBudget_new hm), lists_new]

theorem Reached.serve (hc : Reached maxBytes c) (request : Request) :
    Reached maxBytes (c.serve maxBytes request).2 := by
  cases request with
  | get h => exact hc.get h
  | contains h => exact hc
  | set h blob => exact hc.set h blob
  | remove h => exact hc.remove h
  | load d path place => exact .load d path place

/-- A cache answers a request as its lists do, and then has the lists that they become. -/
theorem serve_lists (hm : maxBytes ≤ wordMax) (hc : Reached maxBytes c) (request : Request) :
    c.lists.serve (new maxBytes).shardBudget request =
      ((c.serve maxBytes request).1, (c.serve maxBytes request).2.lists) := by
  have hb := shardBudget_new hm
  cases request with
  | get h =>
    rw [Lists.serve, ← lists_get]
    rfl
  | contains h => rfl
  | set h blob =>
    rw [← hc.shardBudget] at hb ⊢
    rw [Lists.serve, ← lists_set (hc.sound hm) hb]
    rfl
  | remove h =>
    rw [Lists.serve, ← lists_remove]
    rfl
  | load d path place =>
    rw [Lists.serve, ← lists_load hm d path place]
    rfl

theorem serveAll_lists (hm : maxBytes ≤ wordMax) (hc : Reached maxBytes c)
    (requests : List Request) :
    ∃ answers c', serveAll (serve maxBytes) c requests = (answers, c') ∧
      serveAll (Lists.serve (new maxBytes).shardBudget) c.lists requests = (answers, c'.lists) ∧
      Reached maxBytes c' := by
  induction requests generalizing c with
  | nil => exact ⟨[], c, rfl, rfl, hc⟩
  | cons request requests ih =>
    obtain ⟨answers, c', hserve, hlists, hc'⟩ := ih (hc.serve request)
    refine ⟨(c.serve maxBytes request).1 :: answers, c', ?_, ?_, hc'⟩
    · simp only [serveAll, hserve]
    · simp only [serveAll, serve_lists hm hc, hlists]

theorem size_eq (c : Cache) :
    c.size = ((List.finRange shardCount).map fun i => (c.shards.get i).bytes).sum := by
  rw [size, ← Vector.foldl_toList, toList_shards, List.foldl_map, List.sum_eq_foldl, List.foldl_map]
  rfl

theorem Reached.bytes_le (hc : Reached maxBytes c) (hm : maxBytes ≤ wordMax)
    (i : Fin shardCount) : (c.shards.get i).bytes ≤ maxBytes / shardCount := by
  have hs := (hc.sound hm).shard i
  have hbudget : c.shardBudget = max (maxBytes / shardCount) 1 := hc.shardBudget
  have hwithin := hs.within
  rw [hbudget] at hwithin
  change c.shards[i].bytes ≤ _
  rw [hs.counted]
  -- A budget of one byte is more than a sixteenth of fewer than sixteen, but nothing fits it.
  by_cases hone : weigh c.shards[i].entries ≤ 1
  · rw [eq_nil_of_weigh_le hone]
    exact Nat.zero_le _
  · omega

theorem Reached.size_le (hc : Reached maxBytes c) (hm : maxBytes ≤ wordMax) :
    c.size ≤ maxBytes := by
  have hsum : ((List.finRange shardCount).map fun i => (c.shards.get i).bytes).sum ≤
      ((List.finRange shardCount).map fun i => (c.shards.get i).bytes).length •
        (maxBytes / shardCount) := by
    apply List.sum_le_card_nsmul
    intro bytes hb
    obtain ⟨i, _, rfl⟩ := List.mem_map.1 hb
    exact hc.bytes_le hm i
  rw [List.length_map, List.length_finRange] at hsum
  rw [size_eq]
  exact hsum.trans (Nat.mul_div_le maxBytes shardCount)

/-- The lists of a cache are in order and within the budget, and all their bytes are counted. -/
structure Shows (maxBytes : Nat) (c : Cache) (ls : Lists) : Prop where
  lists : c.lists = ls
  nodup : ∀ i, ((ls i).map Prod.fst).Nodup
  placed : ∀ i, ∀ e ∈ ls i, shardOf e.1 = i
  bytes : ∀ i, (c.shards.get i).bytes = weigh (ls i)
  within : ∀ i, weigh (ls i) ≤ (new maxBytes).shardBudget
  size : c.size = ((List.finRange shardCount).map fun i => weigh (ls i)).sum
  sizeLe : c.size ≤ maxBytes

theorem Reached.shows (hc : Reached maxBytes c) (hm : maxBytes ≤ wordMax) :
    c.Shows maxBytes c.lists where
  lists := rfl
  nodup i := ((hc.sound hm).shard i).nodup
  placed := (hc.sound hm).placed
  bytes i := ((hc.sound hm).shard i).counted
  within i := hc.shardBudget ▸ ((hc.sound hm).shard i).within
  size := by
    rw [size_eq]
    exact congrArg List.sum (List.map_congr_left fun i _ => ((hc.sound hm).shard i).counted)
  sizeLe := hc.size_le hm

theorem set_of_fits (hc : c.Sound) (hb : c.shardBudget + c.shardBudget < wordMax)
    (hw : weight (h, blob) ≤ c.shardBudget) :
    LongestRun c.shardBudget ((h, blob) :: c.lists.others h) ((c.set h blob).lists (shardOf h)) ∧
      (c.set h blob).find? h = some blob ∧
      ∀ i, i ≠ shardOf h → (c.set h blob).lists i = c.lists i := by
  have hset : (c.set h blob).lists =
      c.lists.put h (fitting c.shardBudget ((h, blob) :: c.lists.others h)) := by
    rw [lists_set hc hb, Lists.set, if_neg (Nat.not_lt.2 hw)]
  have hrun := longestRun_fitting c.shardBudget ((h, blob) :: c.lists.others h)
  have hhere : (c.set h blob).lists (shardOf h) =
      fitting c.shardBudget ((h, blob) :: c.lists.others h) := by
    rw [hset, Lists.put, if_pos rfl]
  refine ⟨hhere ▸ hrun, ?_, ?_⟩
  · obtain ⟨rest, hrest⟩ := hrun.head hw
    have hfind : (c.set h blob).find? h =
        (((c.set h blob).lists (shardOf h)).find? (·.1 = h)).map (·.2) := rfl
    rw [hfind, hhere, hrest]
    simp
  · intro i hi
    rw [hset, Lists.put, if_neg (Ne.symm hi)]

end Cache

/-- Whatever is asked of a cache, it answers as lists do of which each is cut down to the longest
first part within its budget when an entry has been put to its front. -/
theorem requests_are_served_by_lists {maxBytes : Nat} (hm : maxBytes ≤ wordMax)
    (requests : List Request) :
    ∃ answers c ls, serveAll (Cache.serve maxBytes) (.new maxBytes) requests = (answers, c) ∧
      serveAll (Lists.serve (max (maxBytes / shardCount) 1)) .empty requests = (answers, ls) ∧
      c.Shows maxBytes ls ∧
      ∀ h blob,
        (max (maxBytes / shardCount) 1 < 32 + blob.length → c.set h blob = c) ∧
        (32 + blob.length ≤ max (maxBytes / shardCount) 1 →
          LongestRun (max (maxBytes / shardCount) 1) ((h, blob) :: ls.others h)
            ((c.set h blob).lists (Cache.shardOf h)) ∧
          (c.set h blob).find? h = some blob ∧
          ∀ i, i ≠ Cache.shardOf h → (c.set h blob).lists i = ls i) := by
  obtain ⟨answers, c, hserve, hlists, hc⟩ := Cache.serveAll_lists hm .new requests
  rw [Cache.lists_new] at hlists
  have hb := Cache.shardBudget_new hm
  rw [← hc.shardBudget] at hb
  have hbudget : max (maxBytes / shardCount) 1 = c.shardBudget := hc.shardBudget.symm
  refine ⟨answers, c, c.lists, hserve, hlists, hc.shows hm, ?_⟩
  intro h blob
  rw [hbudget]
  exact ⟨Cache.set_of_over (by omega), Cache.set_of_fits (hc.sound hm) hb⟩

/-- Three blobs for a shard that has room for two; one of them is used before the last one comes.
Then a blob that no shard has room for, and a journal. -/
def overfillShard : List Request :=
  [.set (.fill 1) [1, 2, 3], .set (.fill 17) [4], .get (.fill 1), .set (.fill 33) [5, 6],
    .contains (.fill 17), .contains (.fill 33), .set (.fill 1) (List.replicate 50 7),
    .get (.fill 1),
    .load (.insert {} ["journal".toList] (Journal.encode [(.fill 17, [8])])) "journal" "",
    .contains (.fill 1), .get (.fill 17)]

theorem requests_are_served_by_lists_when_overfilled :
    1120 ≤ wordMax ∧ ∃ answers c ls,
      serveAll (Cache.serve 1120) (.new 1120) overfillShard = (answers, c) ∧
      serveAll (Lists.serve 70) .empty overfillShard = (answers, ls) ∧ c.Shows 1120 ls ∧
      answers = [.done, .done, .blob (some [1, 2, 3]), .done, .held false, .held true, .done,
        .blob (some [1, 2, 3]), .done, .held false, .blob (some [8])] := by
  have hm : 1120 ≤ wordMax := by decide
  obtain ⟨answers, c, ls, hserve, hlists, hshows, _⟩ :=
    requests_are_served_by_lists hm overfillShard
  have hanswers : (serveAll (Cache.serve 1120) (.new 1120) overfillShard).1 =
      [.done, .done, .blob (some [1, 2, 3]), .done, .held false, .held true, .done,
        .blob (some [1, 2, 3]), .done, .held false, .blob (some [8])] := by decide +kernel
  rw [hserve] at hanswers
  exact ⟨hm, answers, c, ls, hserve, hlists, hshows, hanswers⟩

end TrieCache.Clean
