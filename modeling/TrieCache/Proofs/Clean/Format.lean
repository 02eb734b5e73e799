import TrieCache.Proofs.Clean.Journal
import TrieCache.Proofs.Except

namespace TrieCache

namespace Varint

/-- Groups of seven bits, lowest first, up to the first byte without its high bit. -/
inductive Spells : Bytes → Nat → Prop
  | last {b : UInt8} : b < 128 → Spells [b] b.toNat
  | more {b : UInt8} {rest : Bytes} {n : Nat} :
      ¬ b < 128 → Spells rest n → Spells (b :: rest) (b.toNat - 128 + 128 * n)

/-- The bytes of a number of `bits` bits, no more of them than it can need. -/
structure Writes (bits : Nat) (bytes : Bytes) (n : Nat) : Prop where
  spelled : Spells bytes n
  short : bytes.length ≤ (bits + 6) / 7
  fits : n < 2 ^ bits

variable {bits room n : Nat} {bytes number rest : Bytes}

theorem decodeGroups_of_spells (hs : Spells number n) (hr : number.length ≤ room) :
    decodeGroups room (number ++ rest) = .ok (n, rest) := by
  induction hs generalizing room with
  | last hb =>
    cases room with
    | zero => cases hr
    | succ room => rw [List.singleton_append, decodeGroups, if_pos hb]
  | more hb _ ih =>
    cases room with
    | zero => cases hr
    | succ room =>
      rw [List.cons_append, decodeGroups, if_neg hb, ih (Nat.le_of_succ_le_succ hr)]
      rfl

theorem spells_of_decodeGroups (hd : decodeGroups room bytes = .ok (n, rest)) :
    ∃ number, Spells number n ∧ number.length ≤ room ∧ bytes = number ++ rest := by
  induction room generalizing bytes n with
  | zero => cases bytes <;> cases hd
  | succ room ih =>
    cases bytes with
    | nil => cases hd
    | cons b bytes =>
      rw [decodeGroups] at hd
      split at hd
      · next hb =>
        cases hd
        exact ⟨[b], .last hb, Nat.le_add_left _ _, rfl⟩
      · next hb =>
        obtain ⟨⟨high, rest'⟩, hg, hd⟩ := bind_eq_ok hd
        cases hd
        obtain ⟨number, hs, hr, rfl⟩ := ih hg
        exact ⟨b :: number, .more hb hs, Nat.succ_le_succ hr, rfl⟩

theorem decode_eq_ok_iff : decode bits bytes = .ok (n, rest) ↔
    ∃ number, Writes bits number n ∧ bytes = number ++ rest := by
  constructor
  · intro hd
    obtain ⟨⟨m, rest'⟩, hg, hd⟩ := bind_eq_ok hd
    dsimp only at hd
    split at hd
    · next hm =>
      cases hd
      rw [Nat.one_shiftLeft] at hm
      obtain ⟨number, hs, hr, rfl⟩ := spells_of_decodeGroups hg
      exact ⟨number, ⟨hs, hr, hm⟩, rfl⟩
    · cases hd
  · rintro ⟨number, hw, rfl⟩
    rw [decode, decodeGroups_of_spells hw.spelled hw.short]
    change (if n < 1 <<< bits then Except.ok (n, rest) else _) = _
    rw [if_pos (by rw [Nat.one_shiftLeft]; exact hw.fits)]

theorem writes_encode (hb : 0 < bits) (hn : n < 2 ^ bits) : Writes bits (encode n) n := by
  obtain ⟨number, hw, he⟩ := decode_eq_ok_iff.1 (decode_encode hb hn [])
  rwa [List.append_cancel_right he]

end Varint

namespace Clean

namespace Journal

/-- The records of entries, whose lengths may be written with leading zero groups. -/
inductive Records : List Entry → Bytes → Prop
  | nil : Records [] []
  | cons {e : Entry} {entries : List Entry} {number records : Bytes} :
      Varint.Writes 64 number e.2.length → Records entries records →
      Records (e :: entries) (recordTag :: (e.1.bytes ++ number ++ e.2 ++ records))

/-- The format of a journal: the magic number, the version, records and the end mark, which anything
may follow. -/
def Format (entries : List Entry) (bytes : Bytes) : Prop :=
  ∃ number records tail, Varint.Writes 32 number version ∧ Records entries records ∧
    bytes = magic ++ number ++ records ++ endTag :: tail

def body (bytes : Bytes) : Except Fault Bytes := do
  let start := bytes.take magic.length
  if start.length < magic.length then .error .truncated
  else if start ≠ magic then .error .badMagic
  else
    let (n, rest) ← decodeNumber 32 (bytes.drop magic.length)
    if n ≠ version then .error (.unsupportedVersion n) else .ok rest

variable {bits n size : Nat} {bytes rest records records' tail tail' : Bytes} {e : Entry}
  {entries entries' : List Entry}

theorem decode_eq_body (bytes : Bytes) :
    decode bytes = body bytes >>= fun rest => decodeEntries rest.length rest := by
  rw [decode, body]
  dsimp only
  split
  · rfl
  · split
    · rfl
    · cases decodeNumber 32 (bytes.drop magic.length) with
      | error e => rfl
      | ok r =>
        change (if r.1 ≠ version then _ else _) = (if r.1 ≠ version then _ else _) >>= _
        split <;> rfl

theorem decodeNumber_eq_ok_iff : decodeNumber bits bytes = .ok (n, rest) ↔
    ∃ number, Varint.Writes bits number n ∧ bytes = number ++ rest := by
  rw [← Varint.decode_eq_ok_iff, decodeNumber]
  cases Varint.decode bits bytes <;> simp

theorem body_eq_ok_iff : body bytes = .ok rest ↔
    ∃ number, Varint.Writes 32 number version ∧ bytes = magic ++ number ++ rest := by
  constructor
  · intro hb
    rw [body] at hb
    dsimp only at hb
    split at hb
    · cases hb
    · split at hb
      · cases hb
      · next hm =>
        obtain ⟨⟨n, rest'⟩, hn, hb⟩ := bind_eq_ok hb
        split at hb
        · cases hb
        · next hv =>
          cases hb
          obtain rfl := not_not.1 hv
          obtain ⟨number, hw, hd⟩ := decodeNumber_eq_ok_iff.1 hn
          refine ⟨number, hw, ?_⟩
          calc bytes = bytes.take magic.length ++ bytes.drop magic.length :=
                (List.take_append_drop _ _).symm
            _ = magic ++ number ++ rest' := by rw [not_not.1 hm, hd, List.append_assoc]
  · rintro ⟨number, hw, rfl⟩
    rw [body, List.append_assoc, List.take_left, List.drop_left, if_neg (Nat.lt_irrefl _),
      if_neg (not_not_intro rfl), decodeNumber_eq_ok_iff.2 ⟨number, hw, rfl⟩]
    rfl

theorem decodeHash_eq_ok_iff {h : Hash} :
    decodeHash bytes = .ok (h, rest) ↔ bytes = h.bytes ++ rest := by
  constructor
  · intro hd
    rw [decodeHash] at hd
    split at hd
    · cases hd
      exact (List.take_append_drop _ _).symm
    · cases hd
  · rintro rfl
    exact decodeHash_bytes h rest

theorem decodeEntry_eq_ok_iff : decodeEntry bytes = .ok (e, rest) ↔
    ∃ number, Varint.Writes 64 number e.2.length ∧
      bytes = e.1.bytes ++ number ++ e.2 ++ rest := by
  constructor
  · intro hd
    obtain ⟨⟨h, bytes'⟩, hh, hd⟩ := bind_eq_ok hd
    obtain ⟨⟨n, rest'⟩, hn, hd⟩ := bind_eq_ok hd
    dsimp only at hn hd
    split at hd
    · next hlen =>
      cases hd
      obtain ⟨number, hw, rfl⟩ := decodeNumber_eq_ok_iff.1 hn
      refine ⟨number, by rwa [hlen], ?_⟩
      rw [decodeHash_eq_ok_iff.1 hh, List.append_assoc, List.append_assoc, List.take_append_drop]
    · cases hd
  · rintro ⟨number, hw, rfl⟩
    rw [decodeEntry, List.append_assoc, List.append_assoc, decodeHash_bytes]
    change (decodeNumber 64 (number ++ (e.2 ++ rest)) >>= _) = _
    rw [decodeNumber_eq_ok_iff.2 ⟨number, hw, rfl⟩]
    change (if ((e.2 ++ rest).take e.2.length).length = e.2.length then _ else _) = _
    rw [List.take_left, List.drop_left, if_pos rfl]

theorem decodeEntry_append {number : Bytes} (hw : Varint.Writes 64 number e.2.length)
    (records tail : Bytes) :
    decodeEntry (e.1.bytes ++ number ++ e.2 ++ records ++ tail) = .ok (e, records ++ tail) :=
  decodeEntry_eq_ok_iff.2 ⟨number, hw, List.append_assoc _ _ _⟩

theorem Records.length_le (hr : Records entries records) : entries.length ≤ records.length := by
  induction hr with
  | nil => exact Nat.le_refl _
  | cons _ _ ih =>
    rw [List.length_cons, List.length_cons, List.length_append]
    omega

theorem decodeEntries_of_records (hr : Records entries records) (hs : entries.length < size) :
    decodeEntries size (records ++ endTag :: tail) = .ok entries := by
  induction hr generalizing size with
  | nil =>
    obtain ⟨size, rfl⟩ := Nat.exists_eq_add_of_lt hs
    rfl
  | @cons e entries number records hw _ ih =>
    cases size with
    | zero => cases hs
    | succ size =>
      rw [List.cons_append, decodeEntries, if_neg (by decide), if_pos rfl,
        decodeEntry_append hw]
      change (decodeEntries size _ >>= _) = _
      rw [ih (Nat.lt_of_succ_lt_succ hs)]
      rfl

theorem records_of_decodeEntries (hd : decodeEntries size bytes = .ok entries) :
    ∃ records tail, Records entries records ∧ bytes = records ++ endTag :: tail := by
  induction size generalizing bytes entries with
  | zero => cases hd
  | succ size ih =>
    cases bytes with
    | nil => cases hd
    | cons tag rest =>
      rw [decodeEntries] at hd
      split at hd
      · next ht =>
        cases hd
        exact ⟨[], rest, .nil, congrArg (· :: rest) ht⟩
      · split at hd
        · next ht =>
          obtain ⟨⟨e, rest'⟩, he, hd⟩ := bind_eq_ok hd
          obtain ⟨entries', hentries, hd⟩ := bind_eq_ok hd
          cases hd
          obtain ⟨records, tail, hr, rfl⟩ := ih hentries
          obtain ⟨number, hw, rfl⟩ := decodeEntry_eq_ok_iff.1 he
          refine ⟨_, tail, .cons hw hr, ?_⟩
          rw [ht, List.cons_append, List.append_assoc _ records]
        · cases hd

/-- Just the bytes that have the format are read. -/
theorem decode_eq_ok_iff : decode bytes = .ok entries ↔ Format entries bytes := by
  rw [decode_eq_body]
  constructor
  · intro hd
    obtain ⟨rest, hb, hd⟩ := bind_eq_ok hd
    obtain ⟨records, tail, hr, rfl⟩ := records_of_decodeEntries hd
    obtain ⟨number, hw, rfl⟩ := body_eq_ok_iff.1 hb
    exact ⟨number, records, tail, hw, hr, (List.append_assoc _ _ _).symm⟩
  · rintro ⟨number, records, tail, hw, hr, rfl⟩
    rw [body_eq_ok_iff.2 ⟨number, hw, List.append_assoc _ _ _⟩]
    refine decodeEntries_of_records hr ?_
    have hlen := hr.length_le
    rw [List.length_append, List.length_cons]
    omega

theorem Records.unique (hr : Records entries records) (hr' : Records entries' records')
    (he : records ++ endTag :: tail = records' ++ endTag :: tail') : tail = tail' := by
  induction hr generalizing entries' records' with
  | nil =>
    cases hr' with
    | nil => exact (List.cons.inj he).2
    | cons _ _ => exact absurd (List.cons.inj he).1 (by decide)
  | @cons e _ number records hw _ ih =>
    cases hr' with
    | nil => exact absurd (List.cons.inj he).1 (by decide)
    | @cons e' _ number' records' hw' hr' =>
      refine ih hr' ?_
      have hread := decodeEntry_append hw records (endTag :: tail)
      have hsame : e.1.bytes ++ number ++ e.2 ++ records ++ endTag :: tail =
        e'.1.bytes ++ number' ++ e'.2 ++ records' ++ endTag :: tail' := (List.cons.inj he).2
      rw [hsame, decodeEntry_append hw'] at hread
      exact (Prod.mk.inj (Except.ok.inj hread)).2.symm

theorem records_encode (he : ∀ e ∈ entries, e.2.length < 2 ^ 64) :
    Records entries (entries.flatMap encodeEntry) := by
  induction entries with
  | nil => exact .nil
  | cons e entries ih =>
    obtain ⟨hhead, htail⟩ := List.forall_mem_cons.1 he
    exact .cons (Varint.writes_encode (by decide) hhead) (ih htail)

theorem not_format_of_cut (he : ∀ e ∈ entries, e.2.length < 2 ^ 64)
    (hp : bytes <+: encode entries) (hne : bytes ≠ encode entries) :
    ∀ entries', ¬ Format entries' bytes := by
  rintro entries' ⟨number, records, tail, hw, hr, rfl⟩
  obtain ⟨lost, hlost⟩ := hp
  have hread : body (encode entries) = .ok (entries.flatMap encodeEntry ++ [endTag]) :=
    body_eq_ok_iff.2
      ⟨Varint.encode version, Varint.writes_encode (by decide) (by decide), List.append_assoc _ _ _⟩
  have hcut : body (magic ++ number ++ records ++ endTag :: tail ++ lost) =
      .ok (records ++ endTag :: (tail ++ lost)) := by
    refine body_eq_ok_iff.2 ⟨number, hw, ?_⟩
    simp only [List.append_assoc, List.cons_append]
  rw [hlost, hread] at hcut
  have hend := (records_encode he).unique hr (Except.ok.inj hcut)
  obtain ⟨_, rfl⟩ := List.append_eq_nil_iff.1 hend.symm
  exact hne ((List.append_nil _).symm.trans hlost)

end Journal

namespace Cache

/-- Reads records, sets each of them as it is read, and counts them. What has been set stays when a
fault is met. -/
def absorb : (size : Nat) → Cache → Bytes → Except Journal.Fault Nat × Cache
  | 0, c, _ => (.error .truncated, c)
  | _ + 1, c, [] => (.error .truncated, c)
  | size + 1, c, tag :: rest =>
    if tag = Journal.endTag then (.ok 0, c)
    else if tag = Journal.recordTag then
      match Journal.decodeEntry rest with
      | .error e => (.error e, c)
      | .ok (entry, rest) =>
        let (result, c) := absorb size (c.set entry.1 entry.2) rest
        (result.map (· + 1), c)
    else (.error (.unexpectedTag tag), c)

def readJournal (c : Cache) (bytes : Bytes) : Except Journal.Fault Nat × Cache :=
  match Journal.body bytes with
  | .error e => (.error e, c)
  | .ok rest => c.absorb rest.length rest

variable {c : Cache} {maxBytes size : Nat} {bytes : Bytes} {d : Directory} {path : String}

theorem absorb_eq (size : Nat) (c : Cache) (bytes : Bytes) :
    ∃ c', c.absorb size bytes = ((Journal.decodeEntries size bytes).map List.length, c') ∧
      ∀ entries, Journal.decodeEntries size bytes = .ok entries → c' = c.setAll entries := by
  induction size generalizing c bytes with
  | zero => exact ⟨c, rfl, fun _ he => by cases he⟩
  | succ size ih =>
    cases bytes with
    | nil => exact ⟨c, rfl, fun _ he => by cases he⟩
    | cons tag rest =>
      rw [Journal.decodeEntries, absorb]
      split
      · exact ⟨c, rfl, fun _ he => by cases he; rfl⟩
      · split
        · cases hentry : Journal.decodeEntry rest with
          | error e => exact ⟨c, rfl, fun _ he => by cases he⟩
          | ok r =>
            obtain ⟨c', habsorb, hset⟩ := ih (c.set r.1.1 r.1.2) r.2
            refine ⟨c', ?_, fun entries he => ?_⟩
            · dsimp only
              rw [habsorb]
              change (Except.map _ (Except.map _ _), c') =
                (Except.map _ (Journal.decodeEntries size r.2 >>= _), c')
              cases Journal.decodeEntries size r.2 <;> rfl
            · obtain ⟨_, hr, he⟩ := bind_eq_ok he
              cases hr
              obtain ⟨entries', hd, he⟩ := bind_eq_ok he
              cases he
              exact hset entries' hd
        · exact ⟨c, rfl, fun _ he => by cases he⟩

/-- To set the entries as they are read, and to give up the cache if that fails, comes to the same
as to read them all first. -/
theorem load_eq_readJournal (hf : d.read path = .ok bytes) (place : String) (maxBytes : Nat) :
    load d path place maxBytes =
      match (new maxBytes).readJournal bytes with
      | (.ok n, c) => (c, .journalLoaded n place)
      | (.error e, _) => (new maxBytes, .journalUnreadable place (.content e)) := by
  have hdecode := Journal.decode_eq_body bytes
  rw [load, hf, readJournal]
  dsimp only
  cases hbody : Journal.body bytes with
  | error e =>
    rw [hbody] at hdecode
    rw [hdecode]
    rfl
  | ok rest =>
    obtain ⟨c, habsorb, hset⟩ := absorb_eq rest.length (new maxBytes) rest
    rw [hbody] at hdecode
    change _ = Journal.decodeEntries rest.length rest at hdecode
    rw [← hdecode] at habsorb hset
    dsimp only
    rw [habsorb]
    cases hd : Journal.decode bytes with
    | error e => rfl
    | ok entries =>
      rw [hset entries hd]
      rfl

/-- A journal is loaded just if it has the format, and then its records are set in a new cache in
their order. Of anything else, such as a journal that has been cut off, nothing is kept, though its
first records were set as they were read. -/
theorem load_iff_format (hf : d.read path = .ok bytes) (place : String) (maxBytes : Nat) :
    (∀ entries, Journal.decode bytes = .ok entries ↔ Journal.Format entries bytes) ∧
    (load d path place maxBytes =
      match (new maxBytes).readJournal bytes with
      | (.ok n, c) => (c, .journalLoaded n place)
      | (.error e, _) => (new maxBytes, .journalUnreadable place (.content e))) ∧
    (∀ entries, Journal.Format entries bytes →
      load d path place maxBytes =
        ((new maxBytes).setAll entries, .journalLoaded entries.length place)) ∧
    ((∀ entries, ¬ Journal.Format entries bytes) →
      ∃ e, load d path place maxBytes = (new maxBytes, .journalUnreadable place (.content e))) ∧
    ∀ m c, m ≤ wordMax → Reached m c → bytes <+: c.journal → bytes ≠ c.journal →
      ∃ e, load d path place maxBytes = (new maxBytes, .journalUnreadable place (.content e)) := by
  have hbad (hno : ∀ entries, ¬ Journal.Format entries bytes) :
      ∃ e, load d path place maxBytes = (new maxBytes, .journalUnreadable place (.content e)) := by
    cases hd : Journal.decode bytes with
    | ok entries => exact absurd (Journal.decode_eq_ok_iff.1 hd) (hno entries)
    | error e =>
      refine ⟨e, ?_⟩
      rw [load, hf]
      dsimp only
      rw [hd]
  refine ⟨fun _ => Journal.decode_eq_ok_iff, load_eq_readJournal hf place maxBytes, ?_, hbad, ?_⟩
  · intro entries hformat
    rw [load, hf]
    dsimp only
    rw [Journal.decode_eq_ok_iff.2 hformat]
  · intro m c hm hc hp hne
    exact hbad (Journal.not_format_of_cut (fun e he => length_lt_of_mem_entries hm hc he) hp hne)

/-- A journal whose numbers have leading zero groups, and something behind its end mark. -/
def padded : Bytes :=
  Journal.magic ++ [0x81, 0x00] ++
    (Journal.recordTag :: ((Hash.fill 0x11).bytes ++ [0x82, 0x80, 0x00] ++ [5, 0] ++ [])) ++
    Journal.endTag :: [9]

def holding (journal : Bytes) : Directory := .insert {} ["cleans".toList] journal

theorem load_iff_format_padded :
    (holding padded).read "cleans" = .ok padded ∧
    (load (holding padded) "cleans" "cleans" 1600 =
      ((new 1600).setAll [(.fill 0x11, [5, 0])], .journalLoaded 1 "cleans")) ∧
    (holding (pair.journal.take 50)).read "cleans" =
      .ok (pair.journal.take 50) ∧
    ∃ e, load (holding (pair.journal.take 50)) "cleans" "cleans" 1600 =
      (new 1600, .journalUnreadable "cleans" (.content e)) := by
  have hread : (holding padded).read "cleans" = .ok padded := rfl
  have hcut : (holding (pair.journal.take 50)).read "cleans" =
    .ok (pair.journal.take 50) := rfl
  have hc : Reached 1600 pair := ((Reached.new.set _ _).get _).set _ _
  have hone : Varint.Spells [0x81, 0x00] 1 := .more (b := 0x81) (by decide) (.last (by decide))
  have htwo : Varint.Spells [0x82, 0x80, 0x00] 2 :=
    .more (b := 0x82) (by decide) (.more (b := 0x80) (by decide) (.last (by decide)))
  have hformat : Journal.Format [(.fill 0x11, [5, 0])] padded :=
    ⟨_, _, [9], ⟨hone, by decide, by decide⟩, .cons ⟨htwo, by decide, by decide⟩ .nil, rfl⟩
  refine ⟨hread, (load_iff_format hread "cleans" 1600).2.2.1 _ hformat, hcut, ?_⟩
  exact (load_iff_format hcut "cleans" 1600).2.2.2.2 1600 pair (by decide) hc
    (List.take_prefix _ _) (by decide +kernel)

end Cache

end Clean

end TrieCache
