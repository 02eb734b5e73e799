import TrieCache.Proofs.Clean.Requests

namespace TrieCache.Clean

/-- The entries a journal holds, none if it cannot be read. -/
def Journal.recorded (d : Directory) (path : String) : List Entry :=
  match d.read path with
  | .error _ => []
  | .ok bytes =>
    match Journal.decode bytes with
    | .error _ => []
    | .ok entries => entries

/-- What has been set, the last entry first, once a request is made. To load a journal is to set its
entries in a new cache. -/
def Request.sets (earlier : List Entry) : Request → List Entry
  | .set h blob => (h, blob) :: earlier
  | .load d path _ => (Journal.recorded d path).reverse
  | .get _ => earlier
  | .contains _ => earlier
  | .remove _ => earlier

def history (requests : List Request) : List Entry := requests.foldl Request.sets []

/-- The blob that was set last under a hash. -/
def lastSet (h : Hash) (sets : List Entry) : Option Bytes :=
  (sets.find? (·.1 = h)).map (·.2)

variable {h k : Hash} {blob v : Bytes} {sets : List Entry} {budget maxBytes : Nat} {c : Cache}

theorem lastSet_cons (h : Hash) (e : Entry) (sets : List Entry) :
    lastSet h (e :: sets) = if e.1 = h then some e.2 else lastSet h sets := by
  rw [lastSet, List.find?_cons]
  by_cases he : e.1 = h
  · simp [he]
  · simp [he, lastSet]

theorem over_of_lastSet_ne (ha : lastSet h (sets.filter (Shard.fits budget)) = some v)
    (hne : lastSet h sets ≠ some v) :
    ∃ blob, lastSet h sets = some blob ∧ budget < 32 + blob.length := by
  induction sets with
  | nil => cases ha
  | cons e sets ih =>
    rw [lastSet_cons] at hne ⊢
    by_cases hw : weight e ≤ budget
    · rw [List.filter_cons_of_pos (show Shard.fits budget e from decide_eq_true hw),
        lastSet_cons] at ha
      split
      · next he =>
        rw [if_pos he] at ha hne
        exact absurd ha hne
      · next he =>
        rw [if_neg he] at ha hne
        exact ih ha hne
    · rw [List.filter_cons_of_neg (by simpa [Shard.fits] using hw)] at ha
      split
      · exact ⟨e.2, rfl, Nat.lt_of_not_le hw⟩
      · next he =>
        rw [if_neg he] at hne
        exact ih ha hne

theorem fits_of_lastSet (ha : lastSet h (sets.filter (Shard.fits budget)) = some v) :
    32 + v.length ≤ budget := by
  obtain ⟨e, he, rfl⟩ := Option.map_eq_some_iff.1 ha
  have hm := List.mem_of_find?_eq_some he
  exact of_decide_eq_true (List.mem_filter.1 hm).2

namespace Cache

/-- Whatever is found is what was accepted last. -/
def FindsAccepted (budget : Nat) (sets : List Entry) (c : Cache) : Prop :=
  ∀ h v, c.find? h = some v → lastSet h (sets.filter (Shard.fits budget)) = some v

namespace FindsAccepted

theorem new (maxBytes budget : Nat) : FindsAccepted budget [] (new maxBytes) := by
  intro h v hv
  rw [find?_new] at hv
  cases hv

theorem get (hf : FindsAccepted budget sets c) (h : Hash) :
    FindsAccepted budget sets (c.get h).2 :=
  fun k v hv => hf k v (find?_get hv)

theorem remove (hf : FindsAccepted budget sets c) (h : Hash) :
    FindsAccepted budget sets (c.remove h) :=
  fun k v hv => hf k v (find?_remove hv)

section Set

variable (hc : c.Sound) (hb : c.shardBudget + c.shardBudget < wordMax)
include hc hb

theorem set (hf : FindsAccepted c.shardBudget sets c) (h : Hash) (blob : Bytes) :
    FindsAccepted c.shardBudget ((h, blob) :: sets) (c.set h blob) := by
  intro k v hv
  by_cases hw : weight (h, blob) ≤ c.shardBudget
  · rw [List.filter_cons_of_pos (show Shard.fits c.shardBudget (h, blob) from decide_eq_true hw),
      lastSet_cons]
    obtain ⟨_, hself, _⟩ := set_of_fits hc hb hw
    split
    · next hk =>
      change h = k at hk
      subst hk
      exact hself.symm.trans hv
    · next hk =>
      refine hf k v ((find?_set hv).resolve_left ?_)
      rintro ⟨rfl, _⟩
      exact hk rfl
  · rw [List.filter_cons_of_neg (by simpa [Shard.fits] using hw)]
    rw [set_of_over (by omega) (by omega)] at hv
    exact hf k v hv

theorem setAll (hf : FindsAccepted c.shardBudget sets c) (entries : List Entry) :
    FindsAccepted c.shardBudget (entries.reverse ++ sets) (c.setAll entries) := by
  induction entries generalizing c sets with
  | nil => exact hf
  | cons e entries ih =>
    rw [List.reverse_cons, List.append_assoc]
    exact ih (hc.set hb e.1 e.2) hb (hf.set hc hb e.1 e.2)

end Set

end FindsAccepted

theorem load_eq_setAll (d : Directory) (path place : String) (maxBytes : Nat) :
    (load d path place maxBytes).1 = (new maxBytes).setAll (Journal.recorded d path) := by
  rw [load, Journal.recorded]
  cases d.read path with
  | error e => cases e <;> rfl
  | ok bytes =>
    dsimp only
    cases Journal.decode bytes <;> rfl

theorem findsAccepted_serve (hm : maxBytes ≤ wordMax) (hc : Reached maxBytes c)
    (hf : FindsAccepted (new maxBytes).shardBudget sets c) (request : Request) :
    FindsAccepted (new maxBytes).shardBudget (request.sets sets) (c.serve maxBytes request).2 := by
  have hb := shardBudget_new hm
  cases request with
  | get h => exact hf.get h
  | contains h => exact hf
  | set h blob =>
    rw [← hc.shardBudget] at hf hb ⊢
    exact hf.set (hc.sound hm) hb h blob
  | remove h => exact hf.remove h
  | load d path place =>
    have hall := (FindsAccepted.new maxBytes _).setAll (sound_new maxBytes) hb
      (Journal.recorded d path)
    rw [List.append_nil, ← load_eq_setAll d path place] at hall
    exact hall

theorem findsAccepted_serveAll (hm : maxBytes ≤ wordMax) (hc : Reached maxBytes c)
    (hf : FindsAccepted (new maxBytes).shardBudget sets c) (requests : List Request) :
    ∃ answers c', serveAll (serve maxBytes) c requests = (answers, c') ∧ Reached maxBytes c' ∧
      FindsAccepted (new maxBytes).shardBudget (requests.foldl Request.sets sets) c' := by
  induction requests generalizing c sets with
  | nil => exact ⟨[], c, rfl, hc, hf⟩
  | cons request requests ih =>
    obtain ⟨answers, c', hserve, hc', hf'⟩ :=
      ih (hc.serve request) (findsAccepted_serve hm hc hf request)
    refine ⟨(c.serve maxBytes request).1 :: answers, c', ?_, hc', hf'⟩
    simp only [serveAll, hserve]

theorem contains_iff_find? : c.contains h ↔ ∃ v, c.find? h = some v := by
  rw [← Option.isSome_iff_exists, find?, Shard.find?, Option.isSome_map, List.find?_isSome,
    contains, Shard.contains, List.any_eq_true]

theorem find?_set_self (hc : c.Sound) (hb : c.shardBudget + c.shardBudget < wordMax) (h : Hash)
    (blob : Bytes) : (c.set h blob).find? h =
      if c.shardBudget < 32 + blob.length then c.find? h else some blob := by
  split
  · next hw => rw [set_of_over (by omega) hw]
  · next hw =>
    obtain ⟨_, hself, _⟩ := set_of_fits hc hb (Nat.le_of_not_lt hw)
    exact hself

end Cache

/-- Whatever has been asked of a cache, it returns under a hash nothing or the blob that was set
last of those within the budget. It returns an overwritten blob just if the blob that was set last
is over the budget of a shard while one before it is still cached: such a set leaves the older blob
there. -/
theorem overwritten_blob_returned_iff (hm : maxBytes ≤ wordMax) (requests : List Request)
    (h : Hash) :
    ∃ answers c, serveAll (Cache.serve maxBytes) (.new maxBytes) requests = (answers, c) ∧
      (∀ blob, (c.get h).1 = some blob →
        lastSet h ((history requests).filter
          (Shard.fits (max (maxBytes / shardCount) 1))) = some blob) ∧
      ((∃ blob, (c.get h).1 = some blob ∧ lastSet h (history requests) ≠ some blob) ↔
        c.contains h ∧ ∃ blob, lastSet h (history requests) = some blob ∧
          max (maxBytes / shardCount) 1 < 32 + blob.length) ∧
      ∀ blob, ((c.set h blob).get h).1 =
        if max (maxBytes / shardCount) 1 < 32 + blob.length then (c.get h).1 else some blob := by
  obtain ⟨answers, c, hserve, hc, hf⟩ :=
    Cache.findsAccepted_serveAll hm .new (.new maxBytes _) requests
  have hb := Cache.shardBudget_new hm
  have hbudget : max (maxBytes / shardCount) 1 = c.shardBudget := hc.shardBudget.symm
  rw [← hc.shardBudget] at hf hb
  rw [hbudget]
  refine ⟨answers, c, hserve, hf h, ⟨?_, ?_⟩, Cache.find?_set_self (hc.sound hm) hb h⟩
  · rintro ⟨blob, hget, hne⟩
    exact ⟨Cache.contains_iff_find?.2 ⟨blob, hget⟩, over_of_lastSet_ne (hf h blob hget) hne⟩
  · rintro ⟨hcontains, blob, hlast, hover⟩
    obtain ⟨v, hv⟩ := Cache.contains_iff_find?.1 hcontains
    refine ⟨v, hv, fun he => ?_⟩
    have hw := fits_of_lastSet (hf h v hv)
    rw [hlast, Option.some.injEq] at he
    subst he
    omega

/-- A blob, and then one for the same hash that no shard has room for. -/
def replaceByOversizedBlob : List Request :=
  [.set (.fill 1) [1], .set (.fill 1) (List.replicate 50 7)]

theorem overwritten_blob_returned_after_oversized_set :
    1120 ≤ wordMax ∧ ∃ answers c,
      serveAll (Cache.serve 1120) (.new 1120) replaceByOversizedBlob = (answers, c) ∧
      lastSet (.fill 1) ((history replaceByOversizedBlob).filter (Shard.fits 70)) = some [1] ∧
      ∃ blob, (c.get (.fill 1)).1 = some blob ∧
        lastSet (.fill 1) (history replaceByOversizedBlob) ≠ some blob := by
  have hm : 1120 ≤ wordMax := by decide
  obtain ⟨answers, c, hserve, _, hiff, _⟩ :=
    overwritten_blob_returned_iff hm replaceByOversizedBlob (.fill 1)
  have hcontains : (serveAll (Cache.serve 1120) (.new 1120) replaceByOversizedBlob).2.contains
      (.fill 1) := by
    decide +kernel
  rw [hserve] at hcontains
  exact ⟨hm, answers, c, hserve, by decide, hiff.2 ⟨hcontains, List.replicate 50 7, by decide,
    by decide⟩⟩

/-- The blob that was overwritten is returned. -/
theorem overwritten_blob_returned :
    lastSet (.fill 1) (history replaceByOversizedBlob) = some (List.replicate 50 7) ∧
    (serveAll (Cache.serve 1120) (.new 1120) (replaceByOversizedBlob ++ [.get (.fill 1)])).1 =
      [.done, .done, .blob (some [1])] := by
  decide +kernel

end TrieCache.Clean
