import TrieCache.Dirty.Record

namespace TrieCache.Dirty

structure FlushList where
  oldest : Option Hash := none
  newest : Option Hash := none
deriving DecidableEq

namespace FlushList

def empty : FlushList := {}

def neighbour (rs : Records) (link : Option Hash) : Option Hash :=
  link.filter fun h => rs.contains h

def setPrev (rs : Records) (h : Hash) (prev : Option Hash) : Records :=
  rs.modify h fun r => { r with prev }

def setNext (rs : Records) (h : Hash) (next : Option Hash) : Records :=
  rs.modify h fun r => { r with next }

def pushBack (l : FlushList) (rs : Records) (h : Hash) : FlushList × Records :=
  let rs := setNext (setPrev rs h l.newest) h none
  match neighbour rs l.newest with
  | some tail => (⟨l.oldest, some h⟩, setNext rs tail (some h))
  | none => (⟨some h, some h⟩, rs)

/-- Takes `h` out and joins its neighbours. An end of the list moves only if it was at `h`. -/
def unlink (l : FlushList) (rs : Records) (h : Hash) : FlushList × Records :=
  match rs[h]? with
  | none => (l, rs)
  | some r =>
    let rs := setNext (setPrev rs h none) h none
    let (oldest, rs) :=
      match neighbour rs r.prev with
      | some older => (l.oldest, setNext rs older r.next)
      | none => (if l.oldest = some h then r.next else l.oldest, rs)
    let (newest, rs) :=
      match neighbour rs r.next with
      | some newer => (l.newest, setPrev rs newer r.prev)
      | none => (if l.newest = some h then r.prev else l.newest, rs)
    (⟨oldest, newest⟩, rs)

/-- Lets the list start at `head`, once the entries before it are gone from the records. -/
def truncateFront (l : FlushList) (rs : Records) (head : Option Hash) : FlushList × Records :=
  match neighbour rs head with
  | some h => (⟨head, l.newest⟩, setPrev rs h none)
  | none => (⟨head, none⟩, rs)

def follow (link : Record → Option Hash) (rs : Records) : (limit : Nat) → Option Hash → List Hash
  | 0, _ => []
  | _ + 1, none => []
  | limit + 1, some h => h :: follow link rs limit (rs[h]?.bind link)

def forward (l : FlushList) (rs : Records) (limit : Nat) : List Hash :=
  follow Record.next rs limit l.oldest

def backward (l : FlushList) (rs : Records) (limit : Nat) : List Hash :=
  follow Record.prev rs limit l.newest

end FlushList

end TrieCache.Dirty
