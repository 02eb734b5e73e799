import TrieCache.Proofs.Database.Committer

namespace TrieCache

open Dirty (Arrangement Reaches Record)
open Store (handed written nodeKey preimageKey putNode)

namespace Dirty

def CountsRecorded (d : Dirty) : Prop := d.preimages = none → d.preimagesSize = 0

namespace CountsRecorded

variable {d d' : Dirty}

theorem of_eq (hd : d.CountsRecorded) (hp : d'.preimages = d.preimages)
    (hs : d'.preimagesSize = d.preimagesSize) : d'.CountsRecorded := by
  intro hn
  rw [hs]
  exact hd (hp.symm.trans hn)

theorem clearPreimages (hd : d.CountsRecorded) : d.clearPreimages.CountsRecorded := by
  rw [Dirty.clearPreimages]
  split
  · exact hd
  · intro hn
    cases hn

theorem insertPreimage (hd : d.CountsRecorded) (h : Hash) (preimage : Bytes) :
    (d.insertPreimage h preimage).CountsRecorded := by
  rw [Dirty.insertPreimage]
  split
  · exact hd
  split
  · exact hd
  · intro hn
    cases hn

theorem insert (hd : d.CountsRecorded) (h : Hash) (content : Content) (size : Nat) :
    (d.insert h content size).CountsRecorded := by
  rw [Dirty.insert]
  split
  · exact hd
  · exact hd

theorem reference (hd : d.CountsRecorded) (child parent : Hash) :
    (d.reference child parent).CountsRecorded := by
  rw [Dirty.reference]
  split
  · split
    · exact hd
    · dsimp only
      split
      · exact hd
      · exact hd
  · exact hd

end CountsRecorded

end Dirty

variable {start db db' : Database} {c : Command} {calls : List Call} {listed : List Hash}

theorem Database.Prunes.countsRecorded {dropped : List Hash} (hp : Prunes db db' dropped)
    (hd : db.dirty.CountsRecorded) : db'.dirty.CountsRecorded :=
  hd.of_eq hp.preimages hp.preimagesSize

theorem Database.countsRecorded_cap (hw : db.dirty.WellFormed listed) (order : Arrangement)
    (limit : Nat) (hd : db.dirty.CountsRecorded) :
    (db.cap order limit).2.dirty.CountsRecorded := by
  cases hr : db.cap order limit with
  | mk result db' =>
    cases result with
    | error e =>
      obtain ⟨_, _, _, hdirty, _⟩ := cap_error hr
      exact hd.of_eq (congrArg Dirty.preimages hdirty) (congrArg Dirty.preimagesSize hdirty)
    | ok =>
      obtain ⟨_, _, _, stats, hdirty⟩ := cap_ok hr
      have hcleared : db.cleared.CountsRecorded := by
        rw [cleared]
        split
        · exact hd.clearPreimages
        · exact hd
      have hevict := shrinks_evict_leaving hw limit
      change db'.dirty.CountsRecorded
      rw [hdirty]
      exact hcleared.of_eq hevict.preimages hevict.preimagesSize

theorem Database.countsRecorded_commit (hw : db.dirty.WellFormed listed) (order : Arrangement)
    (root : Hash) (report uncache : Bool) (hd : db.dirty.CountsRecorded) :
    (db.commit order root report uncache).2.dirty.CountsRecorded := by
  obtain ⟨_, _, d, _, hleft, hends⟩ :=
    commits_of_commit hw (Prod.mk.eta (p := db.commit order root report uncache)).symm
  have hd' : d.CountsRecorded := hd.of_eq hleft.preimages hleft.preimagesSize
  rcases hends with ⟨_, _, hdirty⟩ | ⟨_, _, _, hdirty⟩
  · exact hdirty ▸ hd'
  · rw [hdirty]
    exact hd'.clearPreimages.of_eq rfl rfl

theorem countsRecorded_exec (hw : db.dirty.WellFormed listed) (hd : db.dirty.CountsRecorded)
    (he : c.exec db = some db') : db'.dirty.CountsRecorded := by
  cases c with
  | insert h size node =>
    cases he
    exact Database.dirty_insertContent .. ▸ hd.insert h _ size
  | insertBlob h blob =>
    cases he
    exact Database.dirty_insertContent .. ▸ hd.insert h _ _
  | insertNode node =>
    cases he
    exact Database.dirty_insertContent .. ▸ hd.insert _ _ _
  | insertPreimage h preimage =>
    cases he
    exact hd.insertPreimage h preimage
  | reference child parent =>
    cases he
    exact Database.dirty_reference .. ▸ hd.reference child parent
  | stamp root arrangement elapsed =>
    cases he
    rw [Database.dirty_stamp, Dirty.stamp, Dirty.claims_eq]
    exact hd
  | nextVersion =>
    cases he
    exact hd
  | dereference root arrangement clock =>
    obtain ⟨⟨result, db₁⟩, hdrop, rfl⟩ := Option.map_eq_some_iff.1 he
    obtain ⟨_, hp, _⟩ := Database.prunes_of_dereference hdrop
    exact hp.countsRecorded hd
  | dereferenceStored root arrangement clock =>
    obtain ⟨⟨result, db₁⟩, hdrop, rfl⟩ := Option.map_eq_some_iff.1 he
    obtain ⟨_, hp, _⟩ := Database.prunes_of_dereferenceStored hdrop
    exact hp.countsRecorded hd
  | collect count arrangement =>
    cases he
    obtain ⟨_, ⟨_, _, _, hdirty, _⟩ | ⟨_, _, hdirty⟩⟩ :=
      Database.collect_cases (Prod.mk.eta (p := db.collect arrangement count)).symm
    · exact hdirty ▸ hd
    · exact hdirty ▸ hd
  | forgetUseless =>
    cases he
    exact hd
  | cap limit arrangement =>
    cases he
    exact Database.countsRecorded_cap hw arrangement limit hd
  | commit root report uncache order =>
    cases he
    exact Database.countsRecorded_commit hw order root report uncache hd
  | readNode h =>
    cases he
    exact (Database.Reads.lookup db h).dirty ▸ hd
  | readBlob h =>
    cases he
    exact (Database.Reads.lookup db h).dirty ▸ hd
  | readPreimage h =>
    cases he
    exact (Database.Reads.preimage db h).dirty ▸ hd
  | arm faults =>
    cases he
    exact hd

theorem Run.countsRecorded (hrun : Run start calls db) (hw : start.dirty.WellFormed [])
    (hd : start.dirty.CountsRecorded) : db.dirty.CountsRecorded := by
  induction hrun with
  | nil => exact hd
  | snoc hrun he ih => exact countsRecorded_exec (hrun.wellFormed hw) ih he

namespace Database

variable {order : Arrangement} {root : Hash} {report uncache : Bool} {e : Error}

theorem excused_writePreimages (db : Database) (order : Arrangement) :
    Store.Writer.Excused (db.writePreimages order) := by
  rw [writePreimages_eq]
  split
  · exact .ok _
  · apply Store.Writer.Excused.bind
    · exact (Store.Writer.Excused.addAll _ _).bind Store.Writer.Excused.flush
    · exact fun w => .ok _

theorem refused_of_commit
    (hc : db.commit order root report uncache = (.error e, db')) :
    db'.disk.putsLeft = some 0 ∨ db'.disk.writesLeft = some 0 := by
  cases hp : db.writePreimages order with
  | error halt =>
    rw [commit, hp] at hc
    cases hc
    exact excused_writePreimages db order halt hp
  | ok w =>
    rw [commit_eq_conclude hp] at hc
    cases hr : Store.Writer.pour Committer.due (nodePuts (pending db.dirty order root)) w >>=
        Store.Writer.flush with
    | ok w' =>
      rw [hr] at hc
      cases hc
    | error halt =>
      have hexcused := ((Store.Writer.Excused.pour _ _ w).bind Store.Writer.Excused.flush) halt hr
      have hdisk : (db.settleAll uncache (pending db.dirty order root) halt.writer).disk =
          halt.writer.disk := Committer.disk_settles _ _
      rw [hr] at hc
      cases hc
      rw [← hdisk] at hexcused
      exact hexcused

end Database

section Main

variable {disk : Store.Disk} {counters : Counters} {log : List Event} {files : Directory}
  {place : String → String} {config : Config}

end Main

end TrieCache
