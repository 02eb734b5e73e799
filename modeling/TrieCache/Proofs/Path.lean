import Mathlib.Data.List.Basic
import TrieCache.Path
import TrieCache.Proofs.Rlp

namespace TrieCache.Path

/-- All elements are nibbles, but for a terminator at the end. -/
def WellFormed (p : Path) : Prop := ∀ n ∈ p.body, n < 16

instance (p : Path) : Decidable p.WellFormed := List.decidableBAll _ p.body

/-- What compact forms look like: the first byte holds two flags, and a nibble only if the number of
nibbles is odd. -/
def IsCompact : Bytes → Prop
  | [] => False
  | first :: _ => first &&& 0xc0 = 0 ∧ (first &&& 0x10 = 0 → first &&& 0xf = 0)

def plainHead (first : UInt8) : UInt8 := first &&& if first &&& 0x10 = 0 then 0x20 else 0x3f

def ofBody (terminated : Bool) (nibbles : List UInt8) : Path :=
  ⟨nibbles ++ if terminated then [terminator] else []⟩

variable {p : Path} {nibbles : List UInt8} {first n : UInt8} {rest c : Bytes}

section Nibbles

theorem byte_forall {P : UInt8 → Prop} {bound : Nat} (h : ∀ i < bound, P (UInt8.ofNat i))
    (b : UInt8) (hb : b.toNat < bound) : P b := by
  have hp := h b.toNat hb
  rwa [UInt8.ofNat_toNat] at hp

theorem join_split (b : UInt8) : (b >>> 4) <<< 4 ||| (b &&& 0xf) = b :=
  byte_forall (P := fun b => (b >>> 4) <<< 4 ||| (b &&& 0xf) = b) (by decide +kernel) b b.toNat_lt

theorem split_join {high low : UInt8} (hh : high < 16) (hl : low < 16) :
    split ((high <<< 4) ||| low) = [high, low] := by
  have hall : ∀ i < 16, ∀ j < 16, split ((UInt8.ofNat i <<< 4) ||| UInt8.ofNat j) =
      [UInt8.ofNat i, UInt8.ofNat j] := by decide +kernel
  apply byte_forall (P := fun high => split ((high <<< 4) ||| low) = [high, low]) ?_ high hh
  exact fun i hi => byte_forall (P := fun low => split ((UInt8.ofNat i <<< 4) ||| low) =
    [UInt8.ofNat i, low]) (hall i hi) low hl

theorem lt_of_mem_split {b : UInt8} (hn : n ∈ split b) : n < 16 := by
  have hall : (split b).all (· < 16) :=
    byte_forall (P := fun b => (split b).all (· < 16)) (by decide +kernel) b b.toNat_lt
  exact of_decide_eq_true (List.all_eq_true.1 hall n hn)

theorem length_flatMap_split (bytes : Bytes) :
    (bytes.flatMap split).length = 2 * bytes.length := by
  induction bytes with
  | nil => rfl
  | cons b bytes ih =>
    have hb : (split b).length = 2 := rfl
    rw [List.flatMap_cons, List.length_append, ih, hb, List.length_cons]
    omega

theorem pack_flatMap_split (bytes : Bytes) : pack (bytes.flatMap split) = bytes := by
  induction bytes with
  | nil => rfl
  | cons b bytes ih =>
    change ((b >>> 4) <<< 4 ||| (b &&& 0xf)) :: pack (bytes.flatMap split) = b :: bytes
    rw [join_split, ih]

theorem flatMap_split_pack (hn : ∀ n ∈ nibbles, n < 16) (hl : nibbles.length % 2 = 0) :
    (pack nibbles).flatMap split = nibbles := by
  induction nibbles using pack.induct with
  | case1 => rfl
  | case2 high => cases hl
  | case3 high low rest ih =>
    have hrest : rest.length % 2 = 0 := by
      simp only [List.length_cons] at hl
      omega
    rw [pack, List.flatMap_cons, split_join (hn _ (by simp)) (hn _ (by simp)),
      ih (fun n hm => hn n (by simp [hm])) hrest]
    rfl

end Nibbles

section Body

theorem ofBody_body (p : Path) : ofBody p.terminated p.body = p := by
  rw [ofBody, body]
  split
  · next ht =>
    have hlast := List.dropLast_append_getLast? _ (of_decide_eq_true ht)
    rw [hlast]
  · rw [List.append_nil]

theorem terminated_ofBody (hn : ∀ n ∈ nibbles, n < 16) (t : Bool) :
    (ofBody t nibbles).terminated = t := by
  cases t with
  | true => simp [ofBody, terminated]
  | false =>
    apply decide_eq_false
    intro hlast
    have hm := List.mem_of_getLast? hlast
    rw [ofBody, if_neg Bool.false_ne_true, List.append_nil] at hm
    exact absurd (hn _ hm) (by decide)

theorem body_ofBody (hn : ∀ n ∈ nibbles, n < 16) (t : Bool) :
    (ofBody t nibbles).body = nibbles := by
  rw [body, terminated_ofBody hn]
  cases t <;> simp [ofBody]

theorem wellFormed_ofBody (hn : ∀ n ∈ nibbles, n < 16) (t : Bool) :
    (ofBody t nibbles).WellFormed := by
  rw [WellFormed, body_ofBody hn]
  exact hn

theorem wellFormed_iff (p : Path) : p.WellFormed ↔
    (∀ n ∈ p.nibbles.dropLast, n < 16) ∧ ∀ n ∈ p.nibbles.getLast?, n ≤ 16 := by
  obtain ⟨elements⟩ := p
  rcases List.eq_nil_or_concat elements with rfl | ⟨init, last, rfl⟩
  · exact iff_of_true nofun ⟨nofun, nofun⟩
  · rw [WellFormed, body, terminated]
    by_cases hlast : last = terminator
    · have h16 : terminator ≤ 16 := UInt8.le_refl _
      simp [hlast, h16]
    · have h16 : last < 16 ↔ last ≤ 16 :=
        ⟨UInt8.le_of_lt, fun hle => UInt8.lt_of_le_of_ne hle hlast⟩
      simp [hlast, h16, or_imp, forall_and]

end Body

section Compact

def flags (terminated : Bool) : UInt8 := if terminated then 2 else 0

theorem toCompact_even (hl : p.body.length % 2 = 0) :
    p.toCompact = (flags p.terminated <<< 4) :: pack p.body := by
  rw [toCompact]
  cases hb : p.body with
  | nil => rfl
  | cons first rest =>
    have hrest : rest.length % 2 ≠ 0 := by
      rw [hb, List.length_cons] at hl
      omega
    dsimp only
    rw [if_neg hrest, flags]

theorem toCompact_odd (hb : p.body = first :: rest) (hl : rest.length % 2 = 0) :
    p.toCompact = ((flags p.terminated ||| 1) <<< 4 ||| first) :: pack rest := by
  rw [toCompact, hb]
  dsimp only
  rw [if_pos hl, flags]

def endsPath (first : UInt8) : Bool := first >>> 4 &&& 2 ≠ 0

def oddNibble (first : UInt8) : List UInt8 := if first >>> 4 &&& 1 = 0 then [] else [first &&& 0xf]

theorem ofCompact_cons (first : UInt8) (rest : Bytes) :
    ofCompact (first :: rest) =
      ofBody (endsPath first) (oddNibble first ++ rest.flatMap split) := by
  rw [ofCompact, ofBody, endsPath, oddNibble]
  by_cases ht : first >>> 4 &&& 2 = 0 <;> simp [ht]

theorem read_evenHead (t : Bool) :
    endsPath (flags t <<< 4) = t ∧ oddNibble (flags t <<< 4) = [] := by
  cases t <;> exact ⟨rfl, rfl⟩

theorem read_oddHead (t : Bool) (hn : n < 16) : endsPath ((flags t ||| 1) <<< 4 ||| n) = t ∧
    oddNibble ((flags t ||| 1) <<< 4 ||| n) = [n] := by
  have hall : ∀ t : Bool, ∀ i < 16, endsPath ((flags t ||| 1) <<< 4 ||| UInt8.ofNat i) = t ∧
      oddNibble ((flags t ||| 1) <<< 4 ||| UInt8.ofNat i) = [UInt8.ofNat i] := by decide +kernel
  exact byte_forall (P := fun n => endsPath ((flags t ||| 1) <<< 4 ||| n) = t ∧
    oddNibble ((flags t ||| 1) <<< 4 ||| n) = [n]) (hall t) n hn

/-- A path is read back from its compact form. -/
theorem ofCompact_toCompact (hp : p.WellFormed) : ofCompact p.toCompact = p := by
  by_cases hl : p.body.length % 2 = 0
  · obtain ⟨ht, hodd⟩ := read_evenHead p.terminated
    rw [toCompact_even hl, ofCompact_cons, flatMap_split_pack hp hl, ht, hodd, List.nil_append,
      ofBody_body]
  · cases hb : p.body with
    | nil => exact absurd (congrArg (List.length · % 2) hb) hl
    | cons first rest =>
      have hrest : rest.length % 2 = 0 := by
        rw [hb, List.length_cons] at hl
        omega
      have hn : ∀ n ∈ first :: rest, n < 16 := hb ▸ hp
      obtain ⟨ht, hodd⟩ := read_oddHead p.terminated (hn first List.mem_cons_self)
      rw [toCompact_odd hb hrest, ofCompact_cons,
        flatMap_split_pack (fun n hm => hn n (List.mem_cons_of_mem _ hm)) hrest, ht, hodd,
        List.singleton_append, ← hb, ofBody_body]

theorem lt_of_mem_ofCompact (hn : n ∈ oddNibble first ++ rest.flatMap split) : n < 16 := by
  rcases List.mem_append.1 hn with hn | hn
  · rw [oddNibble] at hn
    split at hn
    · cases hn
    · rw [List.mem_singleton.1 hn]
      exact lt_of_mem_split (b := first) (List.mem_cons_of_mem _ List.mem_cons_self)
  · obtain ⟨b, _, hn⟩ := List.mem_flatMap.1 hn
    exact lt_of_mem_split hn

theorem wellFormed_ofCompact (c : Bytes) : (ofCompact c).WellFormed := by
  cases c with
  | nil => exact nofun
  | cons first rest =>
    rw [ofCompact_cons]
    exact wellFormed_ofBody (fun _ => lt_of_mem_ofCompact) _

theorem plainHead_even (ho : first >>> 4 &&& 1 = 0) :
    plainHead first = flags (endsPath first) <<< 4 :=
  byte_forall (P := fun b => b >>> 4 &&& 1 = 0 → plainHead b = flags (endsPath b) <<< 4)
    (by decide +kernel) first first.toNat_lt ho

theorem plainHead_odd (ho : first >>> 4 &&& 1 ≠ 0) :
    plainHead first = (flags (endsPath first) ||| 1) <<< 4 ||| (first &&& 0xf) :=
  byte_forall (P := fun b => b >>> 4 &&& 1 ≠ 0 →
    plainHead b = (flags (endsPath b) ||| 1) <<< 4 ||| (b &&& 0xf))
    (by decide +kernel) first first.toNat_lt ho

/-- What is read is written again in the same way, but for what reading passes over. -/
theorem toCompact_ofCompact_cons (first : UInt8) (rest : Bytes) :
    (ofCompact (first :: rest)).toCompact = plainHead first :: rest := by
  have hn : ∀ n ∈ oddNibble first ++ rest.flatMap split, n < 16 := fun _ => lt_of_mem_ofCompact
  have hbody := body_ofBody hn (endsPath first)
  have hterminated := terminated_ofBody hn (endsPath first)
  have hrest : (rest.flatMap split).length % 2 = 0 := by
    rw [length_flatMap_split, Nat.mul_mod_right]
  rw [← ofCompact_cons] at hbody hterminated
  by_cases ho : first >>> 4 &&& 1 = 0
  · rw [oddNibble, if_pos ho, List.nil_append] at hbody
    rw [toCompact_even (hbody ▸ hrest), hterminated, hbody, pack_flatMap_split, plainHead_even ho]
  · rw [oddNibble, if_neg ho, List.singleton_append] at hbody
    rw [toCompact_odd hbody hrest, hterminated, pack_flatMap_split, plainHead_odd ho]

theorem plainHead_eq_iff (first : UInt8) : plainHead first = first ↔
    first &&& 0xc0 = 0 ∧ (first &&& 0x10 = 0 → first &&& 0xf = 0) :=
  byte_forall (P := fun b => plainHead b = b ↔
    b &&& 0xc0 = 0 ∧ (b &&& 0x10 = 0 → b &&& 0xf = 0)) (by decide +kernel) first first.toNat_lt

theorem plainHead_lt (first : UInt8) : plainHead first < 0x80 :=
  byte_forall (P := fun b => plainHead b < 0x80) (by decide +kernel) first first.toNat_lt

theorem toCompact_ofCompact_iff (c : Bytes) : (ofCompact c).toCompact = c ↔ IsCompact c := by
  cases c with
  | nil => exact iff_of_false (List.cons_ne_nil _ _) id
  | cons first rest =>
    rw [toCompact_ofCompact_cons, List.cons.injEq, and_iff_left rfl, plainHead_eq_iff, IsCompact]

theorem isCompact_iff (c : Bytes) : IsCompact c ↔ ∃ first rest, c = first :: rest ∧
    first >>> 4 ≤ 3 ∧ (first >>> 4 &&& 1 = 0 → first &&& 0xf = 0) := by
  have hall : ∀ b : UInt8, (b &&& 0xc0 = 0 ∧ (b &&& 0x10 = 0 → b &&& 0xf = 0)) ↔
      b >>> 4 ≤ 3 ∧ (b >>> 4 &&& 1 = 0 → b &&& 0xf = 0) := fun b =>
    byte_forall (P := fun b => (b &&& 0xc0 = 0 ∧ (b &&& 0x10 = 0 → b &&& 0xf = 0)) ↔
      b >>> 4 ≤ 3 ∧ (b >>> 4 &&& 1 = 0 → b &&& 0xf = 0)) (by decide +kernel) b b.toNat_lt
  cases c with
  | nil => exact iff_of_false id (fun ⟨_, _, hc, _⟩ => List.cons_ne_nil _ _ hc.symm)
  | cons first rest =>
    rw [IsCompact, hall]
    constructor
    · exact fun h => ⟨first, rest, rfl, h⟩
    · rintro ⟨_, _, hc, h⟩
      cases hc
      exact h

theorem isCompact_toCompact (hp : p.WellFormed) : IsCompact p.toCompact := by
  rw [← toCompact_ofCompact_iff, ofCompact_toCompact hp]

theorem length_string_toCompact_le (c : Bytes) :
    (Rlp.string (ofCompact c).toCompact).length ≤ (Rlp.string c).length := by
  match c with
  | [] => exact Nat.le_refl 1
  | [first] =>
    rw [toCompact_ofCompact_cons, Rlp.string, if_pos (plainHead_lt first)]
    exact Rlp.length_le_string [first]
  | first :: second :: rest =>
    have hstring : ∀ b : UInt8, Rlp.string (b :: second :: rest) =
        Rlp.header 0x80 (rest.length + 2) ++ (b :: second :: rest) := fun _ => rfl
    rw [toCompact_ofCompact_cons, hstring, hstring, List.length_append, List.length_append]
    exact Nat.le_refl _

/-- Paths whose elements are nibbles, but for a terminator at the end, and bytes that begin with two
flags and, in the low half, either the odd nibble or nothing, are each other's forms. Any other path
changes when its compact form is read, and any other bytes when they are written again. -/
theorem compact_forms_of_paths (p : Path) (c : Bytes) :
    (ofCompact p.toCompact = p ↔
      (∀ n ∈ p.nibbles.dropLast, n < 16) ∧ ∀ n ∈ p.nibbles.getLast?, n ≤ 16) ∧
    ((∀ n ∈ (ofCompact c).nibbles.dropLast, n < 16) ∧
      ∀ n ∈ (ofCompact c).nibbles.getLast?, n ≤ 16) ∧
    ((ofCompact c).toCompact = c ↔ ∃ first rest, c = first :: rest ∧
      first >>> 4 ≤ 3 ∧ (first >>> 4 &&& 1 = 0 → first &&& 0xf = 0)) := by
  refine ⟨?_, (wellFormed_iff _).1 (wellFormed_ofCompact c), ?_⟩
  · rw [← wellFormed_iff]
    -- Whatever is read from bytes is well formed, so only such a path can come back.
    exact ⟨fun h => h ▸ wellFormed_ofCompact p.toCompact, ofCompact_toCompact⟩
  · rw [toCompact_ofCompact_iff, isCompact_iff]

end Compact

end TrieCache.Path
