import Mathlib.Algebra.Group.Nat.Defs
import Mathlib.Data.List.Induction
import Mathlib.Tactic.SplitIfs
import TrieCache.Rlp

namespace TrieCache

namespace Bytes

variable {bytes : Bytes} {n k : Nat}

theorem bigEndian_ne_nil (hn : n ≠ 0) : bigEndian n ≠ [] := by
  rw [bigEndian, if_neg hn]
  exact List.append_ne_nil_of_right_ne_nil _ (List.cons_ne_nil _ _)

theorem head?_bigEndian (n : Nat) : (bigEndian n).head? ≠ some 0 := by
  induction n using bigEndian.induct with
  | case1 => simp [bigEndian]
  | case2 n hn ih =>
    rw [bigEndian, if_neg hn]
    by_cases hq : n / 256 = 0
    · have hlow : n.toUInt8 ≠ 0 := by
        intro he
        have := congrArg UInt8.toNat he
        simp only [Nat.toUInt8, UInt8.toNat_ofNat', UInt8.toNat_zero] at this
        omega
      rw [hq, bigEndian, if_pos rfl]
      simpa using hlow
    · obtain ⟨c, cs, hc⟩ := List.exists_cons_of_ne_nil (bigEndian_ne_nil hq)
      rw [hc] at ih ⊢
      exact ih

theorem length_bigEndian_le (hn : n < 256 ^ k) : (bigEndian n).length ≤ k := by
  induction k generalizing n with
  | zero =>
    rw [Nat.lt_one_iff.1 hn, bigEndian, if_pos rfl]
    exact Nat.le_refl 0
  | succ k ih =>
    by_cases hz : n = 0
    · rw [hz, bigEndian, if_pos rfl]
      exact Nat.zero_le _
    · have hq : n / 256 < 256 ^ k := by
        rw [Nat.div_lt_iff_lt_mul (by decide), ← Nat.pow_succ]
        exact hn
      rw [bigEndian, if_neg hz, List.length_append, List.length_singleton]
      exact Nat.succ_le_succ (ih hq)

theorem toNat_lt (bytes : Bytes) : toNat bytes < 256 ^ bytes.length := by
  induction bytes using List.reverseRecOn with
  | nil => decide
  | append_singleton bytes b ih =>
    have hb : b.toNat < 256 := b.toNat_lt
    rw [toNat_append_singleton, List.length_append, List.length_singleton, Nat.pow_succ]
    omega

theorem bigEndian_toNat (hh : bytes.head? ≠ some 0) : bigEndian (toNat bytes) = bytes := by
  induction bytes using List.reverseRecOn with
  | nil => simp [toNat, bigEndian]
  | append_singleton bytes b ih =>
    have hb : b.toNat < 256 := b.toNat_lt
    have hrest : bigEndian (toNat bytes) = bytes := by
      apply ih
      intro he
      cases bytes with
      | nil => cases he
      | cons c cs => exact hh he
    have hz : 256 * toNat bytes + b.toNat ≠ 0 := by
      intro hz
      obtain ⟨hbytes, hlow⟩ : toNat bytes = 0 ∧ b.toNat = 0 := by omega
      rw [hbytes, bigEndian, if_pos rfl] at hrest
      subst hrest
      exact hh (congrArg some (UInt8.toNat_inj.1 hlow))
    have hq : (256 * toNat bytes + b.toNat) / 256 = toNat bytes := by omega
    have hlow : (256 * toNat bytes + b.toNat).toUInt8 = b := by
      apply UInt8.toNat_inj.1
      simp only [Nat.toUInt8, UInt8.toNat_ofNat']
      omega
    rw [toNat_append_singleton, bigEndian, if_neg hz, hq, hlow, hrest]

end Bytes

namespace Rlp

variable {bytes item rest p v : Bytes} {e : Extent} {n k : Nat} {is : List Bytes}

/-- An item with nothing missing and nothing after it. -/
def Complete (item : Bytes) : Prop := ∃ e, extent item = some e ∧ e.total = item.length

section Cut

theorem longExtent_append (h : longExtent n rest = some e) (more : Bytes) :
    longExtent n (rest ++ more) = some e := by
  simp only [longExtent] at h ⊢
  split at h
  · cases h
  · next hc =>
    have hn : n ≤ rest.length := by
      simp only [List.length_take] at hc
      omega
    rw [List.take_append_of_le_length hn, if_neg hc]
    exact h

theorem extent_append (h : extent bytes = some e) (more : Bytes) :
    extent (bytes ++ more) = some e := by
  cases bytes with
  | nil => cases h
  | cons tag rest =>
    rw [List.cons_append]
    simp only [extent] at h ⊢
    split_ifs at h ⊢
    · exact h
    · exact h
    · exact longExtent_append h more
    · exact h
    · exact longExtent_append h more

theorem longExtent_take (h : longExtent n rest = some e) (k : Nat) :
    longExtent n (rest.take (n + k)) = some e := by
  have htake : (rest.take (n + k)).take n = rest.take n := by
    rw [List.take_take, Nat.min_eq_left (Nat.le_add_right n k)]
  rw [longExtent] at h ⊢
  rw [htake]
  exact h

theorem longExtent_header_eq (h : longExtent n rest = some e) : e.header = 1 + n := by
  simp only [longExtent] at h
  split at h
  · cases h
  · cases h
    rfl

theorem extent_take (h : extent bytes = some e) : extent (bytes.take e.total) = some e := by
  cases bytes with
  | nil => cases h
  | cons tag rest =>
    obtain ⟨k, hk⟩ := Nat.exists_eq_succ_of_ne_zero (Nat.ne_of_gt (extent_total h))
    rw [hk, List.take_succ_cons]
    have hlong : ∀ {n}, longExtent n rest = some e → longExtent n (rest.take k) = some e := by
      intro n hl
      have hheader := longExtent_header_eq hl
      rw [Extent.total, hheader] at hk
      obtain rfl : k = n + e.payload := by omega
      exact longExtent_take hl _
    simp only [extent] at h ⊢
    split_ifs at h ⊢
    · exact h
    · exact h
    · exact hlong h
    · exact h
    · exact hlong h

theorem cut_append_of_complete (hc : Complete item) (rest : Bytes) :
    cut (item ++ rest) = some (item, rest) := by
  obtain ⟨e, he, hl⟩ := hc
  rw [cut, extent_append he]
  dsimp only
  rw [hl, List.take_left, List.drop_left, if_pos rfl]

theorem complete_of_cut (h : cut bytes = some (item, rest)) : Complete item := by
  rw [cut] at h
  split at h
  · cases h
  · next e he =>
    dsimp only at h
    split at h
    · next hl =>
      cases h
      exact ⟨e, extent_take he, hl.symm⟩
    · cases h

theorem Complete.pos (hc : Complete item) : 0 < item.length := by
  obtain ⟨e, he, hl⟩ := hc
  exact hl ▸ extent_total he

theorem items_flatten (hc : ∀ i ∈ is, Complete i) : items is.flatten = is := by
  induction is with
  | nil => rfl
  | cons i is ih =>
    rw [List.flatten_cons,
      items_of_cut_eq_some (cut_append_of_complete (hc i List.mem_cons_self) _),
      ih fun j hj => hc j (List.mem_cons_of_mem i hj)]

theorem complete_of_mem_items (h : item ∈ items bytes) : Complete item := by
  induction hn : bytes.length using Nat.strongRecOn generalizing bytes with
  | ind n ih =>
    cases hc : cut bytes with
    | none =>
      rw [items_of_cut_eq_none hc] at h
      cases h
    | some cutting =>
      obtain ⟨first, rest⟩ := cutting
      rw [items_of_cut_eq_some hc] at h
      rcases List.mem_cons.1 h with rfl | h
      · exact complete_of_cut hc
      · exact ih _ (hn ▸ cut_shorter hc) h rfl

theorem complete_of_mem_listItems (h : item ∈ listItems bytes) : Complete item := by
  rw [listItems] at h
  split at h
  · split at h
    · cases h
    · next first _ hcut =>
      rcases List.mem_cons.1 h with rfl | h
      · exact complete_of_cut hcut
      · exact complete_of_mem_items h
  · cases h

theorem complete_of_pair {key : Bytes} (hitems : listItems bytes = [key, item]) :
    Complete key ∧ Complete item := by
  have hc : ∀ i ∈ [key, item], Complete i := hitems ▸ fun _ => complete_of_mem_listItems
  rwa [List.forall_mem_cons, List.forall_mem_singleton] at hc

theorem length_flatten_pair {key : Bytes} (hl : isList bytes)
    (hitems : listItems bytes = [key, item]) : key.length + item.length < bytes.length := by
  have hlt := length_flatten_listItems hl
  rwa [hitems, List.flatten_cons, List.flatten_singleton, List.length_append] at hlt

end Cut

section Tags

variable {base tag : UInt8}

def IsBase (base : UInt8) : Prop := base.toNat = 0x80 ∨ base.toNat = 0xc0

theorem toNat_shortTag (hb : IsBase base) (hn : n ≤ 55) :
    (base + n.toUInt8).toNat = base.toNat + n := by
  have hn' : n.toUInt8.toNat = n := Nat.mod_eq_of_lt (by omega)
  have hsum : base.toNat + n < 256 := by rcases hb with hb | hb <;> omega
  rw [UInt8.toNat_add, hn', Nat.mod_eq_of_lt hsum]

theorem toNat_longTag (hb : IsBase base) (hk : k ≤ 8) :
    (base + 55 + k.toUInt8).toNat = base.toNat + 55 + k := by
  have hk' : k.toUInt8.toNat = k := Nat.mod_eq_of_lt (by omega)
  have h55 : (55 : UInt8).toNat = 55 := rfl
  have hsum : base.toNat + 55 + k < 256 := by rcases hb with hb | hb <;> omega
  rw [UInt8.toNat_add, UInt8.toNat_add, hk', h55, Nat.mod_add_mod, Nat.mod_eq_of_lt hsum]

theorem extent_byte (ht : tag < 0x80) (rest : Bytes) : extent (tag :: rest) = some ⟨0, 1⟩ := by
  have ht' : tag.toNat < 0x80 := ht
  rw [extent]
  exact if_pos ht'

theorem extent_short (hb : IsBase base) (hn : n ≤ 55) (rest : Bytes) :
    extent ((base + n.toUInt8) :: rest) = some ⟨1, n⟩ := by
  simp only [extent, toNat_shortTag hb hn]
  rcases hb with hb | hb
  · rw [hb, if_neg (by omega), if_pos (by omega), Nat.add_sub_cancel_left]
  · rw [hb, if_neg (by omega), if_neg (by omega), if_neg (by omega), if_pos (by omega),
      Nat.add_sub_cancel_left]

theorem extent_long (hb : IsBase base) (hk : 0 < k) (hk' : k ≤ 8) (rest : Bytes) :
    extent ((base + 55 + k.toUInt8) :: rest) = longExtent k rest := by
  simp only [extent, toNat_longTag hb hk']
  rcases hb with hb | hb
  · have hle : 0x80 + 55 + k - 0xb7 = k := by omega
    rw [hb, if_neg (by omega), if_neg (by omega), if_pos (by omega), hle]
  · have hle : 0xc0 + 55 + k - 0xf7 = k := by omega
    rw [hb, if_neg (by omega), if_neg (by omega), if_neg (by omega), if_neg (by omega), hle]

theorem tag_cases (tag : UInt8) : tag < 0x80 ∨ ∃ base, IsBase base ∧
    (base = 0xc0 ↔ 0xc0 ≤ tag) ∧ ((∃ n ≤ 55, tag = base + n.toUInt8) ∨
      ∃ k, 0 < k ∧ k ≤ 8 ∧ tag = base + 55 + k.toUInt8) := by
  have ht : tag.toNat < 256 := tag.toNat_lt
  have hlt : ∀ b : UInt8, tag < b ↔ tag.toNat < b.toNat := fun _ => Iff.rfl
  have hle : ∀ b : UInt8, b ≤ tag ↔ b.toNat ≤ tag.toNat := fun _ => Iff.rfl
  by_cases hbyte : tag < 0x80
  · exact .inl hbyte
  right
  obtain ⟨base, hb, hlist, hrange⟩ : ∃ base, IsBase base ∧ (base = 0xc0 ↔ 0xc0 ≤ tag) ∧
      base.toNat ≤ tag.toNat ∧ tag.toNat < base.toNat + 64 := by
    by_cases hl : 0xc0 ≤ tag
    · refine ⟨0xc0, .inr rfl, iff_of_true rfl hl, ?_⟩
      rw [hle] at hl
      simp only [UInt8.reduceToNat] at hl ⊢
      omega
    · refine ⟨0x80, .inl rfl, iff_of_false (by decide) hl, ?_⟩
      rw [hle] at hl
      rw [hlt] at hbyte
      simp only [UInt8.reduceToNat] at hl hbyte ⊢
      omega
  refine ⟨base, hb, hlist, ?_⟩
  by_cases hshort : tag.toNat ≤ base.toNat + 55
  · refine .inl ⟨tag.toNat - base.toNat, by omega, UInt8.toNat_inj.1 ?_⟩
    rw [toNat_shortTag hb (by omega)]
    omega
  · refine .inr ⟨tag.toNat - base.toNat - 55, by omega, by omega, UInt8.toNat_inj.1 ?_⟩
    rw [toNat_longTag hb (by omega)]
    omega

theorem longExtent_bigEndian (hn : 55 < n) (rest : Bytes) :
    longExtent (Bytes.bigEndian n).length (Bytes.bigEndian n ++ rest) =
      some ⟨1 + (Bytes.bigEndian n).length, n⟩ := by
  have hc : ¬((Bytes.bigEndian n).length < (Bytes.bigEndian n).length ∨
      (Bytes.bigEndian n).head? = some 0 ∨ n ≤ 55) := by
    rintro (hl | hl | hl)
    · exact Nat.lt_irrefl _ hl
    · exact Bytes.head?_bigEndian n hl
    · omega
  simp only [longExtent, List.take_left, Bytes.toNat_bigEndian]
  rw [if_neg hc]

theorem extent_header (hb : IsBase base) (hn : n < UInt64.size) (rest : Bytes) :
    extent (header base n ++ rest) = some ⟨(header base n).length, n⟩ := by
  rw [header]
  split
  · next hshort => exact extent_short hb hshort rest
  · next hlong =>
    have hpos : 0 < (Bytes.bigEndian n).length :=
      List.length_pos_iff.2 (Bytes.bigEndian_ne_nil (by omega))
    have hle : (Bytes.bigEndian n).length ≤ 8 := Bytes.length_bigEndian_le hn
    dsimp only
    rw [List.cons_append, extent_long hb hpos hle, longExtent_bigEndian (by omega),
      List.length_cons, Nat.add_comm 1]

theorem complete_cases (hc : Complete item) : (∃ b, b < 0x80 ∧ item = [b]) ∨
    ∃ base p, IsBase base ∧ (base = 0xc0 ↔ isList item) ∧ p.length < UInt64.size ∧
      item = header base p.length ++ p := by
  obtain ⟨e, he, hl⟩ := hc
  cases item with
  | nil => cases he
  | cons tag rest =>
    rcases tag_cases tag with ht | ⟨base, hb, hlist, ⟨n, hn, rfl⟩ | ⟨k, hpos, hk, rfl⟩⟩
    · rw [extent_byte ht] at he
      cases he
      simp only [Extent.total, List.length_cons] at hl
      have hrest : rest = [] := List.eq_nil_of_length_eq_zero (by omega)
      exact .inl ⟨tag, ht, congrArg (tag :: ·) hrest⟩
    · rw [extent_short hb hn] at he
      cases he
      simp only [Extent.total, List.length_cons] at hl
      obtain rfl : n = rest.length := by omega
      refine .inr ⟨base, rest, hb, ?_, Nat.lt_of_le_of_lt hn (by decide), ?_⟩
      · rw [isList, decide_eq_true_iff]
        exact hlist
      · rw [header, if_pos hn]
        rfl
    · rw [extent_long hb hpos hk] at he
      simp only [longExtent] at he
      split at he
      · cases he
      next hc =>
      cases he
      rw [not_or, not_or] at hc
      obtain ⟨hsize, hhead, hlong⟩ := hc
      simp only [Extent.total, List.length_cons] at hl
      have hlength : (rest.take k).length = k := by
        rw [List.length_take] at hsize ⊢
        omega
      have hpayload : Bytes.toNat (rest.take k) = (rest.drop k).length := by
        rw [List.length_drop]
        omega
      refine .inr ⟨base, rest.drop k, hb, ?_, ?_, ?_⟩
      · rw [isList, decide_eq_true_iff]
        exact hlist
      · rw [← hpayload]
        apply Nat.lt_of_lt_of_le (Bytes.toNat_lt _)
        rw [hlength]
        exact Nat.pow_le_pow_right (by decide) hk
      · rw [header, if_neg (hpayload ▸ hlong), ← hpayload]
        dsimp only
        rw [Bytes.bigEndian_toNat hhead, hlength, List.cons_append, List.take_append_drop]

end Tags

section Payload

variable {base b : UInt8}

theorem complete_byte (hb : b < 0x80) : Complete [b] := ⟨_, extent_byte hb [], rfl⟩

theorem payload_byte (hb : b < 0x80) : payload [b] = [b] := by
  rw [payload, extent_byte hb]
  rfl

theorem complete_header (hb : IsBase base) (hp : p.length < UInt64.size) :
    Complete (header base p.length ++ p) :=
  ⟨_, extent_header hb hp p, by rw [List.length_append]; rfl⟩

theorem payload_header (hb : IsBase base) (hp : p.length < UInt64.size) :
    payload (header base p.length ++ p) = p := by
  rw [payload, extent_header hb hp]
  dsimp only
  rw [List.drop_left, List.take_length]

theorem isList_header (hb : IsBase base) (hn : n < UInt64.size) (rest : Bytes) :
    isList (header base n ++ rest) ↔ base = 0xc0 := by
  have hle : ∀ tag : UInt8, (0xc0 ≤ tag) = (0xc0 ≤ tag.toNat) := fun _ => rfl
  have hbase : base = 0xc0 ↔ 0xc0 ≤ base.toNat := by
    rw [← UInt8.toNat_inj]
    simp only [UInt8.reduceToNat]
    rcases hb with hb | hb <;> omega
  rw [hbase, header]
  split
  · next hshort =>
    rw [List.singleton_append, isList, decide_eq_true_iff, hle, toNat_shortTag hb hshort]
    rcases hb with hb | hb <;> omega
  · have hk : (Bytes.bigEndian n).length ≤ 8 := Bytes.length_bigEndian_le hn
    dsimp only
    rw [List.cons_append, isList, decide_eq_true_iff, hle, toNat_longTag hb hk]
    rcases hb with hb | hb <;> omega

theorem length_header (base base' : UInt8) (n : Nat) :
    (header base n).length = (header base' n).length := by
  rw [header, header]
  split <;> rfl

theorem string_cases (v : Bytes) :
    (∃ b, b < 0x80 ∧ v = [b] ∧ string v = [b]) ∨ string v = header 0x80 v.length ++ v := by
  match v with
  | [] => exact .inr rfl
  | [b] =>
    by_cases hb : b < 0x80
    · exact .inl ⟨b, hb, rfl, if_pos hb⟩
    · exact .inr (if_neg hb)
  | _ :: _ :: _ => exact .inr rfl

theorem complete_string (hv : v.length < UInt64.size) : Complete (string v) := by
  rcases string_cases v with ⟨b, hb, _, he⟩ | he
  · rw [he]
    exact complete_byte hb
  · rw [he]
    exact complete_header (.inl rfl) hv

theorem payload_string (hv : v.length < UInt64.size) : payload (string v) = v := by
  rcases string_cases v with ⟨b, hb, rfl, he⟩ | he
  · rw [he, payload_byte hb]
  · rw [he, payload_header (.inl rfl) hv]

theorem isList_byte (hb : b < 0x80) : isList [b] = false := by
  have hb' : b.toNat < 0x80 := hb
  apply decide_eq_false
  intro hle
  have hle' : 0xc0 ≤ b.toNat := hle
  omega

theorem isList_string (hv : v.length < UInt64.size) : isList (string v) = false := by
  rcases string_cases v with ⟨b, hb, _, he⟩ | he
  · rw [he, isList_byte hb]
  · rw [he, Bool.eq_false_iff, Ne, isList_header (.inl rfl) hv]
    decide

theorem length_le_string (v : Bytes) : v.length ≤ (string v).length := by
  rcases string_cases v with ⟨b, _, rfl, he⟩ | he
  · exact Nat.le_of_eq (congrArg List.length he.symm)
  · rw [he, List.length_append]
    exact Nat.le_add_left _ _

theorem length_le_list (p : Bytes) : p.length ≤ (list p).length := by
  rw [list, List.length_append]
  exact Nat.le_add_left _ _

theorem length_lt_of_string (hl : (string v).length < n) : v.length < n :=
  Nat.lt_of_le_of_lt (length_le_string v) hl

theorem length_lt_of_list (hl : (list p).length < n) : p.length < n :=
  Nat.lt_of_le_of_lt (length_le_list p) hl

theorem complete_list (hp : p.length < UInt64.size) : Complete (list p) :=
  complete_header (.inr rfl) hp

theorem payload_list (hp : p.length < UInt64.size) : payload (list p) = p :=
  payload_header (.inr rfl) hp

theorem isList_list (hp : p.length < UInt64.size) : isList (list p) :=
  (isList_header (.inr rfl) hp p).2 rfl

theorem listItems_of_complete (hc : Complete bytes) : listItems bytes = items (payload bytes) := by
  obtain ⟨e, he, hl⟩ := id hc
  have hcut : cut bytes = some (bytes, []) := by
    have hnil := cut_append_of_complete hc []
    rwa [List.append_nil] at hnil
  have hpayload : payload bytes = bytes.drop e.header := by
    rw [payload, he]
    dsimp only
    rw [List.take_of_length_le]
    rw [List.length_drop, ← hl, Extent.total]
    omega
  rw [listItems, he, hcut, hpayload]
  dsimp only
  cases hfirst : cut (bytes.drop e.header) with
  | none => exact (items_of_cut_eq_none hfirst).symm
  | some cutting =>
    obtain ⟨first, rest⟩ := cutting
    have hdrop : bytes.drop (e.header + first.length) = rest := by
      rw [← List.drop_drop, cut_append hfirst, List.drop_left]
    dsimp only
    rw [hdrop, items_of_cut_eq_some hfirst]

theorem listItems_list (hc : ∀ i ∈ is, Complete i) (hl : is.flatten.length < UInt64.size) :
    listItems (list is.flatten) = is := by
  rw [listItems_of_complete (complete_list hl), payload_list hl, items_flatten hc]

end Payload

section Spelling

/-- A string in its shortest spelling: a byte below `0x80` has no header. -/
def Minimal (item : Bytes) : Prop := isList item = false ∧ ∀ b, item = [0x81, b] → 0x80 ≤ b

/-- A list with nothing after it, and with nothing in it that is not an item. -/
structure Exact (bytes : Bytes) : Prop where
  complete : Complete bytes
  filled : (listItems bytes).flatten = payload bytes

theorem length_payload_lt (hc : Complete item) : (payload item).length < UInt64.size := by
  rcases complete_cases hc with ⟨b, hb, rfl⟩ | ⟨base, p, hbase, _, hp, rfl⟩
  · rw [payload_byte hb, List.length_singleton]
    decide
  · rwa [payload_header hbase hp]

theorem length_string_payload_le (hc : Complete item) :
    (string (payload item)).length ≤ item.length := by
  rcases complete_cases hc with ⟨b, hb, rfl⟩ | ⟨base, p, hbase, _, hp, rfl⟩
  · have he : string (payload [b]) = [b] := by rw [payload_byte hb, string, if_pos hb]
    exact Nat.le_of_eq (congrArg List.length he)
  · rw [payload_header hbase hp]
    rcases string_cases p with ⟨b, _, rfl, he⟩ | he
    · rw [he, List.length_append]
      exact Nat.le_add_left _ _
    · apply Nat.le_of_eq
      rw [he, List.length_append, List.length_append, length_header base 0x80]

theorem string_payload_iff (hc : Complete item) : string (payload item) = item ↔ Minimal item := by
  constructor
  · intro he
    constructor
    · rw [← he]
      exact isList_string (length_payload_lt hc)
    · rintro b rfl
      by_contra hb
      rw [UInt8.not_le] at hb
      rw [show payload [0x81, b] = [b] from rfl, string, if_pos hb] at he
      cases he
  · rintro ⟨hlist, hmin⟩
    rcases complete_cases hc with ⟨b, hb, rfl⟩ | ⟨base, p, hbase, hiff, hp, rfl⟩
    · rw [payload_byte hb, string, if_pos hb]
    · obtain rfl : base = 0x80 := by
        rcases hbase with hbase | hbase
        · exact UInt8.toNat_inj.1 hbase
        · rw [hlist] at hiff
          exact absurd (hiff.1 (UInt8.toNat_inj.1 hbase)) Bool.false_ne_true
      rw [payload_header hbase hp]
      rcases string_cases p with ⟨b, hb, rfl, _⟩ | he
      · exact absurd hb (UInt8.not_lt.2 (hmin b rfl))
      · exact he

theorem minimal_string (hv : v.length < UInt64.size) : Minimal (string v) := by
  rw [← string_payload_iff (complete_string hv), payload_string hv]

theorem list_payload (hc : Complete item) (hl : isList item) : list (payload item) = item := by
  rcases complete_cases hc with ⟨b, hb, rfl⟩ | ⟨base, p, hbase, hiff, hp, rfl⟩
  · rw [isList_byte hb] at hl
    cases hl
  · rw [payload_header hbase hp, list, hiff.2 hl]

theorem Exact.list_flatten (he : Exact bytes) (hl : isList bytes) :
    list (listItems bytes).flatten = bytes := by
  rw [he.filled, list_payload he.complete hl]

theorem Exact.list_pair {key : Bytes} (he : Exact bytes) (hl : isList bytes)
    (hitems : listItems bytes = [key, item]) : list (key ++ item) = bytes := by
  have hlist := he.list_flatten hl
  rwa [hitems, List.flatten_cons, List.flatten_singleton] at hlist

end Spelling

end Rlp

end TrieCache
