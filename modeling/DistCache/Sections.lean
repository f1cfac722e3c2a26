/-
  The operations of the store in locked sections (`internal/store`).

  A `Get` that meets an expired entry releases the read lock, and deletes the entry in a
  second section under the write lock.  `Set` computes its entry before it takes the lock.
  Every other operation, and a pass of the sweeper, is one section.  Sections of concurrent
  operations interleave: an operation between two sections is an element of `paused`.
-/
import DistCache.Sweeper

namespace DistCache

/-- What an operation between two sections has still to do.  A `Get` is known by its number. -/
inductive Paused where
  | get (id : ℕ) (key : Key)
  | set (key : Key) (entry : Entry)
  deriving DecidableEq

/-- A store with its concurrent operations: those paused, the number of `Get`s started, the
    results of the `Get`s that have returned, and the last clock reading. -/
structure LockedStore where
  store : Store
  paused : List Paused
  started : ℕ
  returned : List (ℕ × Option Value)
  clock : Time

namespace LockedStore

/-- A store on which no operation runs. -/
def start (store : Store) (clock : Time) : LockedStore := ⟨store, [], 0, [], clock⟩

/-- A `Get` returns. -/
def reply (c : LockedStore) (id : ℕ) (value : Option Value) : LockedStore :=
  { c with returned := c.returned ++ [(id, value)] }

/-- The section of `Get` under the read lock. -/
def readLocked (c : LockedStore) (key : Key) (now : Time) : LockedStore :=
  let id := c.started
  let c := { c with started := id + 1 }
  match (c.store.getShard key).lookup key with
  | none =>
    { c with store := c.store.count fun st => { st with misses := st.misses + 1 } }.reply id none
  | some entry =>
    if entry.isExpired now then { c with paused := c.paused ++ [.get id key] }
    else
      { c with store := c.store.count fun st => { st with hits := st.hits + 1 } }.reply id
        (some entry.value)

/-- The section of `Get` under the write lock. -/
def writeLocked (c : LockedStore) (id : ℕ) (key : Key) (now : Time) : LockedStore :=
  { c with
    store := (c.store.lazyExpire now key).count fun st => { st with misses := st.misses + 1 }
    paused := c.paused.erase (.get id key) }.reply id none

/-- `Set` up to its section: the entry is made. -/
def makeEntry (c : LockedStore) (key : Key) (value : Value) (ttl : Duration) (now : Time) :
    LockedStore :=
  { c with paused := c.paused ++ [.set key ⟨value, Store.expiryOf now ttl⟩] }

/-- The section of `Set`. -/
def setLocked (c : LockedStore) (key : Key) (entry : Entry) : LockedStore :=
  { c with
    store := (c.store.putShard key ((c.store.getShard key).insert key entry)).count fun st =>
      { st with sets := st.sets + 1 }
    paused := c.paused.erase (.set key entry) }

/-- A pass of the sweeper on the shard at an index. -/
def sampleAndExpire (c : LockedStore) (index : ℕ) (pass : Pass) : LockedStore :=
  match c.store.sampleAndExpire index pass with
  | none => c
  | some (_, store) => { c with store }

/-! ## Runs -/

/-- A section of an operation, or what it does before its section, with the clock reading. -/
inductive Act where
  | readLocked (key : Key) (now : Time)
  | writeLocked (id : ℕ) (key : Key) (now : Time)
  | makeEntry (key : Key) (value : Value) (ttl : Duration) (now : Time)
  | setLocked (key : Key) (entry : Entry)
  | delete (key : Key)
  | expire (key : Key) (ttl : Duration) (now : Time)
  | sampleAndExpire (index : ℕ) (pass : Pass)

/-- The clock reading of a section, if it has one. -/
def Act.now : Act → Option Time
  | .readLocked _ now | .writeLocked _ _ now | .makeEntry _ _ _ now | .expire _ _ now => some now
  | .sampleAndExpire _ pass => some pass.now
  | .setLocked _ _ | .delete _ => none

def step (c : LockedStore) (a : Act) : LockedStore :=
  let c := { c with clock := a.now.getD c.clock }
  match a with
  | .readLocked key now => c.readLocked key now
  | .writeLocked id key now => c.writeLocked id key now
  | .makeEntry key value ttl now => c.makeEntry key value ttl now
  | .setLocked key entry => c.setLocked key entry
  | .delete key => { c with store := (c.store.delete key).2 }
  | .expire key ttl now => { c with store := (c.store.expire now key ttl).2 }
  | .sampleAndExpire index pass => c.sampleAndExpire index pass

/-- The clock does not go back, and a second section follows its first. -/
def Enabled (c : LockedStore) (a : Act) : Prop :=
  c.clock ≤ a.now.getD c.clock ∧
    match a with
    | .writeLocked id key _ => .get id key ∈ c.paused
    | .setLocked key entry => .set key entry ∈ c.paused
    | .sampleAndExpire index _ => index < c.store.shards.length
    | _ => True

instance (c : LockedStore) : ∀ a, Decidable (c.Enabled a)
  | .writeLocked id key _ =>
    @instDecidableAnd _ _ _ (inferInstanceAs (Decidable (.get id key ∈ c.paused)))
  | .setLocked key entry =>
    @instDecidableAnd _ _ _ (inferInstanceAs (Decidable (.set key entry ∈ c.paused)))
  | .sampleAndExpire index _ =>
    @instDecidableAnd _ _ _ (inferInstanceAs (Decidable (index < c.store.shards.length)))
  | .readLocked .. | .makeEntry .. | .delete .. | .expire .. =>
    @instDecidableAnd _ _ _ (inferInstanceAs (Decidable True))

end LockedStore

end DistCache
