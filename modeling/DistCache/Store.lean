/-
  The sharded in-memory store with TTLs (`internal/store/store.go`).

  Every key lives in the shard selected by its hash; an entry is expired once
  the current time is after its expiry.  The operations take the current time.
  A `range` loop over a map visits its entries in an unspecified order, which is
  a parameter (`RangeOrder`).
-/
import DistCache.Basic

namespace DistCache

/-- A cached value; `expiresAt = none` is the zero time, which means no expiry. -/
structure Entry where
  value : Value
  expiresAt : Option Time
  deriving DecidableEq

/-- `IsExpired`. -/
def Entry.isExpired (e : Entry) (now : Time) : Bool :=
  match e.expiresAt with
  | none => false
  | some t => t < now

/-- The entries of one shard. -/
abbrev Items := GoMap Key Entry

/-- The operational metrics. -/
structure StoreStats where
  hits : UInt64
  misses : UInt64
  sets : UInt64
  deletes : UInt64
  expirations : UInt64
  deriving DecidableEq

/-- The order in which a `range` loop visits the entries of a map. -/
structure RangeOrder (κ α : Type) where
  list : GoMap κ α → List (Σ _ : κ, α)
  entries : ∀ m, (list m : Multiset (Σ _ : κ, α)) = m.entries

/-- The store; the mask selects one of the shards. -/
structure Store where
  shards : List Items
  shardMask : UInt32
  stats : StoreStats
  mask_lt : shardMask.toNat < shards.length

namespace Store

/-! ## Construction -/

/-- The loop rounding `shardCount` up to a power of two. -/
def roundUp (shardCount : ℕ) : ℕ → ℕ → ℕ
  | 0, n => n
  | fuel + 1, n => if n < shardCount then roundUp shardCount fuel (n * 2) else n

theorem roundUp_pos (shardCount : ℕ) : ∀ fuel n, 0 < n → 0 < roundUp shardCount fuel n
  | 0, _, hn => hn
  | fuel + 1, n, hn => by
    unfold roundUp
    split_ifs
    · exact roundUp_pos shardCount fuel _ (by omega)
    · exact hn

/-- The number of shards allocated: an `int` doubles at most 63 times. -/
def shardCountOf (shardCount : ℤ) : ℕ :=
  roundUp (if shardCount ≤ 0 then 256 else shardCount.toNat) 63 1

/-- `NewWithShards`. -/
def newWithShards (shardCount : ℤ) : Store where
  shards := List.replicate (shardCountOf shardCount) ∅
  shardMask := (shardCountOf shardCount - 1).toUInt32
  stats := ⟨0, 0, 0, 0, 0⟩
  mask_lt := by
    have := roundUp_pos (if shardCount ≤ 0 then 256 else shardCount.toNat) 63 1 Nat.one_pos
    have := Nat.mod_le (shardCountOf shardCount - 1) (2 ^ 32)
    simp only [List.length_replicate, Nat.toUInt32, UInt32.toNat_ofNat']
    simp only [shardCountOf] at *
    omega

/-! ## Shards -/

/-- The index of the shard of a key. -/
def shardIndex (s : Store) (key : Key) : ℕ := (fnv32a key &&& s.shardMask).toNat

theorem shardIndex_lt (s : Store) (key : Key) : s.shardIndex key < s.shards.length := by
  have h : (fnv32a key &&& s.shardMask).toNat ≤ s.shardMask.toNat := by
    rw [UInt32.toNat_and]; exact Nat.and_le_right
  exact lt_of_le_of_lt h s.mask_lt

/-- `getShard`. -/
def getShard (s : Store) (key : Key) : Items := s.shards.get ⟨s.shardIndex key, s.shardIndex_lt key⟩

/-- Replace the items of the shard of a key. -/
def putShard (s : Store) (key : Key) (items : Items) : Store :=
  { s with
    shards := s.shards.set (s.shardIndex key) items
    mask_lt := by rw [List.length_set]; exact s.mask_lt }

/-- Update the metrics. -/
def count (s : Store) (f : StoreStats → StoreStats) : Store := { s with stats := f s.stats }

/-! ## Operations -/

/-- The section of `Get` under the write lock, which deletes the entry if it is
    still expired. -/
def lazyExpire (s : Store) (now : Time) (key : Key) : Store :=
  match (s.getShard key).lookup key with
  | none => s
  | some e =>
    if e.isExpired now then
      (s.putShard key ((s.getShard key).erase key)).count fun st =>
        { st with expirations := st.expirations + 1 }
    else s

/-- `Get`. -/
def get (s : Store) (now : Time) (key : Key) : Option Value × Store :=
  match (s.getShard key).lookup key with
  | none => (none, s.count fun st => { st with misses := st.misses + 1 })
  | some entry =>
    if entry.isExpired now then
      (none, (s.lazyExpire now key).count fun st => { st with misses := st.misses + 1 })
    else (some entry.value, s.count fun st => { st with hits := st.hits + 1 })

/-- The expiry given by a TTL: none unless it is positive. -/
def expiryOf (now : Time) (ttl : Duration) : Option Time :=
  if 0 < ttl then some (now + ttl.toInt) else none

/-- `Set`. -/
def set (s : Store) (now : Time) (key : Key) (value : Value) (ttl : Duration) : Store :=
  (s.putShard key ((s.getShard key).insert key ⟨value, expiryOf now ttl⟩)).count fun st =>
    { st with sets := st.sets + 1 }

/-- `Delete`: the flag tells whether the key existed. -/
def delete (s : Store) (key : Key) : Bool × Store :=
  match (s.getShard key).lookup key with
  | none => (false, s)
  | some _ =>
    (true, (s.putShard key ((s.getShard key).erase key)).count fun st =>
      { st with deletes := st.deletes + 1 })

/-- `Expire`: the flag tells whether the key was found. -/
def expire (s : Store) (now : Time) (key : Key) (ttl : Duration) : Bool × Store :=
  match (s.getShard key).lookup key with
  | none => (false, s)
  | some entry =>
    if entry.isExpired now then (false, s)
    else
      (true, s.putShard key
        ((s.getShard key).insert key { entry with expiresAt := expiryOf now ttl }))

/-! ## Scans -/

/-- The condition under which `Keys` and `Len` count an entry. -/
def listed (now : Time) (entry : Entry) : Bool :=
  match entry.expiresAt with
  | none => true
  | some t => now < t

/-- `Keys`. -/
def keys (ord : RangeOrder Key Entry) (s : Store) (now : Time) : List Key :=
  s.shards.flatMap fun items => (ord.list items).filterMap fun ⟨key, entry⟩ =>
    if listed now entry then some key else none

/-- `Len`. -/
def len (ord : RangeOrder Key Entry) (s : Store) (now : Time) : ℕ :=
  (s.shards.map fun items => (ord.list items).countP fun ⟨_, entry⟩ => listed now entry).sum

/-- The entries that `ForEach` visits, with their remaining TTLs. -/
def visits (ord : RangeOrder Key Entry) (s : Store) (now : Time) : List (Key × Value × Duration) :=
  s.shards.flatMap fun items => (ord.list items).filterMap fun ⟨key, entry⟩ =>
    if entry.isExpired now then none
    else some (key, entry.value, (entry.expiresAt.map fun t => timeSub t now).getD 0)

/-- The loops of `ForEach`: stop when the callback returns false. -/
def forEachLoop {σ : Type} (fn : σ → Key → Value → Duration → σ × Bool) :
    List (Key × Value × Duration) → σ → σ
  | [], acc => acc
  | (key, value, ttl) :: rest, acc =>
    if (fn acc key value ttl).2 then forEachLoop fn rest (fn acc key value ttl).1
    else (fn acc key value ttl).1

/-- `ForEach`, with the state `σ` of the callback made explicit. -/
def forEach {σ : Type} (ord : RangeOrder Key Entry) (s : Store) (now : Time)
    (fn : σ → Key → Value → Duration → σ × Bool) (acc : σ) : σ :=
  forEachLoop fn (s.visits ord now) acc

end Store

end DistCache
