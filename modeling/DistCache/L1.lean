/-
  The client-side cache (`client/l1cache.go`): a list in the order of use, and a
  map of pointers to its elements.

  An element is known by the number it got when it was pushed.  The map has pointers to
  elements of the list only; an element that is not found is treated as absent.
-/
import DistCache.Basic

namespace DistCache

/-- A list element, with its `l1Entry`. -/
structure L1Element where
  id : ℕ
  key : Key
  value : Value
  expiresAt : Time
  deriving DecidableEq

/-- The cache; the front of the list comes first. -/
structure L1Cache where
  capacity : ℕ
  evictList : List L1Element
  items : GoMap Key ℕ
  defaultTTL : Duration
  nextID : ℕ
  capacity_pos : 0 < capacity

namespace L1Cache

/-- `NewL1Cache`. -/
def new (capacity : ℤ) (defaultTTL : Duration) : L1Cache where
  capacity := if capacity ≤ 0 then 1000 else capacity.toNat
  evictList := []
  items := ∅
  defaultTTL := if defaultTTL ≤ 0 then 5000 * millisecond else defaultTTL
  nextID := 0
  capacity_pos := by split_ifs <;> omega

variable (c : L1Cache)

/-- The element that the map has for a key. -/
def element (key : Key) : Option L1Element := do
  let id ← c.items.lookup key
  c.evictList.find? fun elem => elem.id = id

/-- `evictList.Remove`. -/
def remove (elem : L1Element) : List L1Element :=
  c.evictList.eraseP fun elem' => elem'.id = elem.id

/-- `evictList.MoveToFront`, where the element now holds `elem`. -/
def moveToFront (elem : L1Element) : L1Cache := { c with evictList := elem :: c.remove elem }

/-- `removeElement`. -/
def removeElement (elem : L1Element) : L1Cache :=
  { c with evictList := c.remove elem, items := c.items.erase elem.key }

/-- `evictOldest`. -/
def evictOldest : L1Cache :=
  match c.evictList.getLast? with
  | none => c
  | some elem => c.removeElement elem

/-- `Get`. -/
def get (now : Time) (key : Key) : Option Value × L1Cache :=
  match c.element key with
  | none => (none, c)
  | some elem =>
    if elem.expiresAt < now then (none, c.removeElement elem)
    else (some elem.value, c.moveToFront elem)

/-- The expiry that `Set` gives to an entry. -/
def expiry (now : Time) (ttl : Duration) : Time :=
  now + (if ttl ≤ 0 then c.defaultTTL else ttl).toInt

/-- `PushFront` of a new entry, and its pointer in the map. -/
def push (key : Key) (value : Value) (expiresAt : Time) : L1Cache :=
  { c with
    evictList := ⟨c.nextID, key, value, expiresAt⟩ :: c.evictList
    items := c.items.insert key c.nextID
    nextID := c.nextID + 1 }

/-- `Set`. -/
def set (now : Time) (key : Key) (value : Value) (ttl : Duration) : L1Cache :=
  match c.element key with
  | some elem => c.moveToFront { elem with value, expiresAt := c.expiry now ttl }
  | none =>
    let c := c.push key value (c.expiry now ttl)
    if c.capacity < c.evictList.length then c.evictOldest else c

/-- `Delete`. -/
def delete (key : Key) : L1Cache :=
  match c.element key with
  | none => c
  | some elem => c.removeElement elem

/-- `Clear`. -/
def clear : L1Cache := { c with evictList := [], items := ∅ }

/-- `Len`. -/
def len : ℕ := c.evictList.length

/-! ## Runs -/

inductive Call where
  | get (now : Time) (key : Key)
  | set (now : Time) (key : Key) (value : Value) (ttl : Duration)
  | delete (key : Key)
  | clear

/-- The cache after a call. -/
def step : Call → L1Cache
  | .get now key => (c.get now key).2
  | .set now key value ttl => c.set now key value ttl
  | .delete key => c.delete key
  | .clear => c.clear

/-- The answer to a call; a miss is `none`. -/
def reply : Call → Option Value
  | .get now key => (c.get now key).1
  | _ => none

end L1Cache

end DistCache
