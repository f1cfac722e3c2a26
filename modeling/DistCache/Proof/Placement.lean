/-
  Where the store keeps its entries.

  The number of shards is the least power of two that is not below the requested number, and
  masking a hash is taking it modulo that number.
-/
import DistCache.Proof.Calls

namespace DistCache.Store

/-! ## The number of shards -/

/-- From a power of two on, the loop stops at the least one that is not below
    `shardCount`. -/
theorem roundUp_two_pow (shardCount : ℕ) : ∀ fuel k, (∀ j < k, 2 ^ j < shardCount) →
    shardCount ≤ 2 ^ (k + fuel) →
    ∃ m, roundUp shardCount fuel (2 ^ k) = 2 ^ m ∧ shardCount ≤ 2 ^ m ∧
      ∀ j < m, 2 ^ j < shardCount
  | 0, k, hlt, hle => ⟨k, rfl, hle, hlt⟩
  | fuel + 1, k, hlt, hle => by
    unfold roundUp
    split_ifs with hk
    · rw [← pow_succ]
      refine roundUp_two_pow shardCount fuel (k + 1) (fun j hj => ?_) ?_
      · rcases Nat.lt_succ_iff_lt_or_eq.1 hj with hj | rfl
        · exact hlt j hj
        · exact hk
      · rw [Nat.add_right_comm]
        exact hle
    · exact ⟨k, rfl, Nat.le_of_not_lt hk, hlt⟩

/-- The number of shards for a number that an `int` can be rounded up to. -/
theorem shardCountOf_eq {shardCount : ℤ} (hpos : 1 ≤ shardCount) (hle : shardCount ≤ 2 ^ 63) :
    ∃ m, shardCountOf shardCount = 2 ^ m ∧ shardCount ≤ 2 ^ m ∧ ∀ j < m, 2 ^ j < shardCount := by
  lift shardCount to ℕ using by omega
  obtain ⟨m, heq, hge, hlt⟩ := roundUp_two_pow shardCount 63 0 (fun j hj => absurd hj (by omega))
    (by exact_mod_cast hle)
  refine ⟨m, ?_, by exact_mod_cast hge, fun j hj => by exact_mod_cast hlt j hj⟩
  rw [shardCountOf, if_neg (by omega), Int.toNat_natCast]
  exact heq

/-- Masking is taking the remainder modulo a power of two. -/
theorem and_mask {h : UInt32} {m : ℕ} (hm : m ≤ 32) :
    (h &&& (2 ^ m - 1).toUInt32).toNat = h.toNat % 2 ^ m := by
  have hlt : 2 ^ m - 1 < 2 ^ 32 := by
    have := Nat.pow_le_pow_right (show 0 < 2 by decide) hm
    have := Nat.two_pow_pos m
    omega
  rw [UInt32.toNat_and, Nat.toUInt32, UInt32.toNat_ofNat', Nat.mod_eq_of_lt hlt,
    Nat.and_two_pow_sub_one_eq_mod]

/-! ## Placement -/

/-- **Shard placement.**  The number of shards is the least power of two not below the number
    requested, and whatever calls and sweeps are made, a key is only ever in the shard at its
    hash modulo the number of shards, which is where `getShard` looks. -/
theorem shard_placement (shardCount : ℤ) (hpos : 1 ≤ shardCount) (hle : shardCount ≤ 2 ^ 32)
    (acts : List Act) (s : Store) (hs : (newWithShards shardCount).after acts = some s) :
    IsLeast {n : ℕ | (∃ k, n = 2 ^ k) ∧ shardCount ≤ n} s.shards.length ∧
      (∀ key i items, s.shards[i]? = some items → key ∈ items →
        i = (fnv32a key).toNat % s.shards.length) ∧
      ∀ key, s.shardIndex key = (fnv32a key).toNat % s.shards.length ∧
        s.shards[(fnv32a key).toNat % s.shards.length]? = some (s.getShard key) := by
  obtain ⟨m, hcount, hge, hlt⟩ := shardCountOf_eq hpos (hle.trans (by norm_num))
  obtain ⟨hlen, hmask⟩ := Prod.mk.inj (shape_after hs)
  have hlen' : s.shards.length = 2 ^ m :=
    hlen.trans (List.length_replicate.trans hcount)
  have hm : m ≤ 32 := by
    by_contra hm
    have h32 := hlt 32 (by omega)
    omega
  have hindex : ∀ key, s.shardIndex key = (fnv32a key).toNat % s.shards.length := by
    intro key
    have hmask' : s.shardMask = (2 ^ m - 1).toUInt32 := by
      rw [hmask, ← hcount]
      rfl
    rw [shardIndex, hmask', and_mask hm, hlen']
  have hplaced : s.Placed := (placed_newWithShards shardCount).after hs
  refine ⟨⟨⟨⟨m, hlen'⟩, ?_⟩, ?_⟩, fun key i items hi hkey => ?_, fun key => ⟨hindex key, ?_⟩⟩
  · rw [hlen']
    exact_mod_cast hge
  · -- a smaller power of two would have gone on
    rintro n ⟨⟨k, rfl⟩, hk⟩
    rw [hlen']
    by_contra hmk
    have hk' := hlt k ((Nat.pow_lt_pow_iff_right (by decide)).1 (not_le.1 hmk))
    push_cast at hk
    omega
  · rw [← hindex key]
    exact (hplaced i items hi key hkey).symm
  · rw [← hindex key]
    exact List.getElem?_eq_getElem (s.shardIndex_lt key)

/-- Five shards are rounded up to eight; a key is set and deleted. -/
theorem shard_placement_five :
    ∃ s, (newWithShards 5).after [.set 0 [1] [7] 0, .delete 1 [2]] = some s ∧
      ∀ key i items, s.shards[i]? = some items → key ∈ items →
        i = (fnv32a key).toNat % s.shards.length := by
  refine ⟨_, rfl, ?_⟩
  exact (shard_placement 5 (by decide) (by decide) [.set 0 [1] [7] 0, .delete 1 [2]] _ rfl).2.1

end DistCache.Store
