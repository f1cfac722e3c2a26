/-
  Derived names.

  The copies of a split key are stored under `key:shard_i`, and a virtual node is placed by
  the hash of `nodeID#i`.  Neither format escapes its separator, and a key or a node ID may
  hold one itself; but a number has digits only, so the last separator of a name is the one
  of the format.
-/
import DistCache.Hotkey
import DistCache.Proof.Ring

namespace DistCache

/-! ## Numbers -/

theorem digit_toNat {c : Char} (h : c.isDigit = true) : 48 ≤ c.toNat ∧ c.toNat ≤ 57 := by
  simp only [Char.isDigit, Bool.and_eq_true, decide_eq_true_eq, ge_iff_le, UInt32.le_iff_toNat_le] at h
  exact h

theorem digit_byte {c : Char} (h : c.isDigit = true) : c.toNat.toUInt8.toNat = c.toNat := by
  have hc := digit_toNat h
  rw [Nat.toUInt8, UInt8.toNat_ofNat']
  exact Nat.mod_eq_of_lt (by omega)

theorem itoa_isDigit {i : ℕ} : ∀ c ∈ Nat.toDigits 10 i, c.isDigit = true :=
  fun _ hc => Nat.isDigit_of_mem_toDigits (by omega) (by omega) hc

/-- The number can be read back from its digits. -/
theorem itoa_injective {i j : ℕ} (h : itoa i = itoa j) : i = j := by
  have hread : ∀ n, (itoa n).map (fun b => Char.ofNat b.toNat) = Nat.toDigits 10 n := by
    intro n
    rw [itoa, ascii, List.map_map]
    conv_rhs => rw [← List.map_id (Nat.toDigits 10 n)]
    refine List.map_congr_left fun c hc => ?_
    show Char.ofNat c.toNat.toUInt8.toNat = c
    rw [digit_byte (itoa_isDigit c hc), Char.ofNat_toNat]
  have hdigits := congrArg (List.map fun b => Char.ofNat b.toNat) h
  rw [hread, hread] at hdigits
  have hnum := congrArg (fun cs => Nat.ofDigitChars 10 cs 0) hdigits
  simpa using hnum

/-- A byte that is no digit is not in a number. -/
theorem notMem_itoa {b : UInt8} (hb : b.toNat < 48 ∨ 57 < b.toNat) (i : ℕ) : b ∉ itoa i := by
  intro h
  obtain ⟨c, hc, he⟩ := List.mem_map.1 h
  have hdigit := itoa_isDigit c hc
  have hc' := digit_toNat hdigit
  have hbyte := digit_byte hdigit
  rw [he] at hbyte
  omega

/-! ## Names -/

/-- The part behind the last `x` of a list, and the part before it. -/
theorem append_cons_inj {α : Type} {x : α} {a a' d d' : List α} (h : a ++ x :: d = a' ++ x :: d')
    (hd : x ∉ d) (hd' : x ∉ d') : a = a' ∧ d = d' := by
  rcases List.append_eq_append_iff.1 h with ⟨as, rfl, he⟩ | ⟨as, rfl, he⟩
  · cases as with
    | nil => exact ⟨(List.append_nil a).symm, (List.cons.inj he).2⟩
    | cons y as =>
      rw [(List.cons.inj he).2] at hd
      exact absurd (List.mem_append_right as List.mem_cons_self) hd
  · cases as with
    | nil => exact ⟨List.append_nil a', (List.cons.inj he).2.symm⟩
    | cons y as =>
      rw [(List.cons.inj he).2] at hd'
      exact absurd (List.mem_append_right as List.mem_cons_self) hd'

/-- A name that ends in a number behind a separator determines both of its parts. -/
theorem numbered_inj {sep : UInt8} (hsep : sep.toNat < 48 ∨ 57 < sep.toNat) {a a' : GoString}
    {i j : ℕ} (h : a ++ sep :: itoa i = a' ++ sep :: itoa j) : a = a' ∧ i = j := by
  obtain ⟨ha, hi⟩ := append_cons_inj h (notMem_itoa hsep i) (notMem_itoa hsep j)
  exact ⟨ha, itoa_injective hi⟩

/-- **The name of a copy determines its key and its number.** -/
theorem shardKeyName_inj {key key' : Key} {i j : ℕ}
    (h : shardKeyName key i = shardKeyName key' j) : key = key' ∧ i = j := by
  have hname : ∀ (key : Key) (i : ℕ), shardKeyName key i =
      (key ++ ascii [':', 's', 'h', 'a', 'r', 'd']) ++ 95 :: itoa i := by
    intro key i
    simp [shardKeyName, ascii]
  rw [hname, hname] at h
  obtain ⟨hkey, hi⟩ := numbered_inj (by decide) h
  exact ⟨List.append_cancel_right hkey, hi⟩

/-- The string that `hashVNode` hashes: `nodeID#index`. -/
def vnodeName (nodeID : NodeID) (index : ℕ) : GoString := nodeID ++ ascii ['#'] ++ itoa index

theorem hashVNode_eq (nodeID : NodeID) (index : ℕ) :
    hashVNode nodeID index = fnv64a (vnodeName nodeID index) := rfl

theorem vnodeName_inj {x y : NodeID} {i j : ℕ} (h : vnodeName x i = vnodeName y j) :
    x = y ∧ i = j := by
  have hname : ∀ (x : NodeID) (i : ℕ), vnodeName x i = x ++ 35 :: itoa i := by
    intro x i
    simp [vnodeName, ascii]
  rw [hname, hname] at h
  exact numbered_inj (by decide) h

/-- **Derived names are injective.**  For arbitrary keys and node IDs, the name of a copy is that
    of one key and number only, and the string hashed for a virtual node is that of one node
    and index only. -/
theorem derived_names_injective (k k' : Key) (x y : NodeID) (i j : ℕ) :
    (shardKeyName k i = shardKeyName k' j ↔ k = k' ∧ i = j) ∧
      hashVNode x i = fnv64a (vnodeName x i) ∧
      (vnodeName x i = vnodeName y j ↔ x = y ∧ i = j) := by
  refine ⟨⟨shardKeyName_inj, ?_⟩, hashVNode_eq x i, vnodeName_inj, ?_⟩
  · rintro ⟨rfl, rfl⟩
    rfl
  · rintro ⟨rfl, rfl⟩
    rfl

/-- So virtual nodes collide only if the hash does, on two different strings. -/
theorem Ring.noCollision_iff_injOn {V : ℕ} {N : Finset NodeID} :
    NoCollision V N ↔ Set.InjOn fnv64a {s | ∃ x ∈ N, ∃ i < V, s = vnodeName x i} := by
  constructor
  · rintro h _ ⟨x, hx, i, hi, rfl⟩ _ ⟨y, hy, j, hj, rfl⟩ hash
    obtain ⟨rfl, rfl⟩ := h x hx y hy i hi j hj hash
    rfl
  · intro h x hx y hy i hi j hj hash
    exact vnodeName_inj (h ⟨x, hx, i, hi, rfl⟩ ⟨y, hy, j, hj, rfl⟩ hash)

end DistCache
