/-
  A least-recently-used cache whose items expire.

  The state is the list of the items, the most recently used one first.  A `set` and a
  successful `get` move the item of their key to the front; a `set` of a new key into a full
  cache drops the last item; a `get` after the expiry of an item drops it and misses.

  * `length_step`: there are never more items than the capacity allows;
  * `keys_sublist_uses`: the items are in the order of their latest uses;
  * `latest_set`: each item is what the latest `set` of its key has written.
-/
import DistCache.Lib.Run
import DistCache.Lib.Circle

namespace Lib.Lru

/-! ## Items -/

structure Item (κ α τ : Type*) where
  key : κ
  value : α
  expiresAt : τ

inductive Op (κ α τ : Type*) where
  | get (now : τ) (key : κ)
  | set (key : κ) (value : α) (expiresAt : τ)
  | delete (key : κ)
  | clear

variable {κ α τ : Type*} [DecidableEq κ]

/-- The item of a key. -/
def find (l : List (Item κ α τ)) (key : κ) : Option (Item κ α τ) := l.find? fun e => e.key = key

/-- The items of the other keys. -/
def without (l : List (Item κ α τ)) (key : κ) : List (Item κ α τ) := l.filter fun e => e.key ≠ key

theorem key_of_find {l : List (Item κ α τ)} {key : κ} {e : Item κ α τ} (h : find l key = some e) :
    e.key = key := by
  simpa using List.find?_some h

theorem map_without (l : List (Item κ α τ)) (key : κ) :
    (without l key).map Item.key = (l.map Item.key).filter fun k => k ≠ key := by
  rw [List.filter_map]
  rfl

/-- Taking out the item of a key makes room for one. -/
theorem length_without_lt {l : List (Item κ α τ)} {key : κ} {e : Item κ α τ}
    (h : find l key = some e) : (without l key).length < l.length := by
  refine List.length_filter_lt_length_iff_exists.2 ⟨e, List.mem_of_find?_eq_some h, ?_⟩
  simpa using key_of_find h

/-- A new key is none of the keys. -/
theorem filter_of_find {l : List (Item κ α τ)} {key : κ} (h : find l key = none) :
    ((l.map Item.key).filter fun k => k ≠ key) = l.map Item.key := by
  refine List.filter_eq_self.2 fun k hk => ?_
  obtain ⟨e, he, rfl⟩ := List.mem_map.1 hk
  simpa using List.find?_eq_none.1 h e he

/-- The keys are in the order of their latest uses. -/
def Recent (s : List (Item κ α τ) × List κ) : Prop :=
  (s.1.map Item.key).Sublist (distinct ∅ s.2)

/-- A key that is used moves to the front. -/
theorem Recent.use {l t : List (Item κ α τ)} {log : List κ} (h : Recent (l, log))
    {e : Item κ α τ} (ht : (t.map Item.key).Sublist ((l.map Item.key).filter fun k => k ≠ e.key)) :
    Recent (e :: t, e.key :: log) := by
  show (e.key :: t.map Item.key).Sublist (distinct ∅ (e.key :: log))
  rw [distinct, if_neg (Finset.notMem_empty _), distinct_insert]
  exact (ht.trans (h.filter _)).cons_cons e.key

theorem Recent.sublist {l l' : List (Item κ α τ)} {log : List κ} (h : Recent (l, log))
    (hl : l'.Sublist l) : Recent (l', log) := (hl.map Item.key).trans h

/-! ## The cache -/

variable [LinearOrder τ]

/-- The item of a key, unless it is expired. -/
def hit (l : List (Item κ α τ)) (now : τ) (key : κ) : Option (Item κ α τ) :=
  (find l key).filter fun e => ¬ e.expiresAt < now

def step (capacity : ℕ) (l : List (Item κ α τ)) : Op κ α τ → List (Item κ α τ)
  | .get now key =>
    match hit l now key with
    | some e => e :: without l key
    | none => without l key
  | .set key value expiresAt =>
    match find l key with
    | some _ => ⟨key, value, expiresAt⟩ :: without l key
    | none => ⟨key, value, expiresAt⟩ :: if capacity ≤ l.length then l.dropLast else l
  | .delete key => without l key
  | .clear => []

/-- The answer to a `get`. -/
def reply (l : List (Item κ α τ)) : Op κ α τ → Option α
  | .get now key => (hit l now key).map Item.value
  | _ => none

theorem length_step {capacity : ℕ} (hpos : 0 < capacity) {l : List (Item κ α τ)}
    (hl : l.length ≤ capacity) (op : Op κ α τ) : (step capacity l op).length ≤ capacity := by
  have hout : ∀ key, (without l key).length ≤ capacity :=
    fun key => (List.length_filter_le _ l).trans hl
  cases op with
  | get now key =>
    unfold step
    dsimp only
    cases hh : hit l now key with
    | none => exact hout key
    | some e =>
      have hlt := length_without_lt (Option.filter_eq_some_iff.1 hh).1
      exact hlt.trans_le hl
  | set key value expiresAt =>
    unfold step
    dsimp only
    cases hf : find l key with
    | some e =>
      have hlt := length_without_lt hf
      exact hlt.trans_le hl
    | none =>
      dsimp only
      rw [List.length_cons]
      split_ifs with hfull
      · rw [List.length_dropLast]
        omega
      · omega
  | delete key => exact hout key
  | clear => exact Nat.zero_le capacity

/-! ## Uses -/

/-- The key that an operation uses: that of a `set` or of a successful `get`. -/
def used (l : List (Item κ α τ)) : Op κ α τ → Option κ
  | .get now key => (hit l now key).map Item.key
  | .set key _ _ => some key
  | _ => none

/-- A step that also logs the keys used, the latest one first. -/
def logStep (capacity : ℕ) (s : List (Item κ α τ) × List κ) (op : Op κ α τ) :
    List (Item κ α τ) × List κ :=
  (step capacity s.1 op, (used s.1 op).toList ++ s.2)

/-- The keys used by a run of an empty cache, the latest one first. -/
def uses (capacity : ℕ) (ops : List (Op κ α τ)) : List κ := (run (logStep capacity) ([], []) ops).2

theorem logStep_fst (capacity : ℕ) (ops : List (Op κ α τ)) :
    ∀ s, (run (logStep capacity) s ops).1 = run (step capacity) s.1 ops := by
  induction ops with
  | nil => exact fun _ => rfl
  | cons op ops ih => exact fun s => ih _

theorem key_of_hit {l : List (Item κ α τ)} {now : τ} {key : κ} {e : Item κ α τ}
    (h : hit l now key = some e) : e.key = key := key_of_find (Option.filter_eq_some_iff.1 h).1

theorem Recent.step {s : List (Item κ α τ) × List κ} (h : Recent s) (capacity : ℕ)
    (op : Op κ α τ) : Recent (logStep capacity s op) := by
  obtain ⟨l, log⟩ := s
  cases op with
  | get now key =>
    simp only [logStep, Lru.step, used]
    rcases hh : hit l now key with _ | e
    · exact h.sublist List.filter_sublist
    · obtain rfl := key_of_hit hh
      refine h.use ?_
      rw [map_without]
  | set key value expiresAt =>
    simp only [logStep, Lru.step, used]
    rcases hf : find l key with _ | e
    · refine h.use (e := ⟨key, value, expiresAt⟩) ?_
      rw [filter_of_find hf]
      split_ifs
      · exact (List.dropLast_sublist l).map Item.key
      · exact List.Sublist.refl _
    · refine h.use (e := ⟨key, value, expiresAt⟩) ?_
      rw [map_without]
  | delete key => exact h.sublist List.filter_sublist
  | clear => exact List.nil_sublist _

/-- **The items of a run are in the order of their latest uses.** -/
theorem keys_sublist_uses (capacity : ℕ) (ops : List (Op κ α τ)) :
    ((run (step capacity) [] ops).map Item.key).Sublist (distinct ∅ (uses capacity ops)) := by
  have h0 : Recent (([], []) : List (Item κ α τ) × List κ) := List.nil_sublist _
  have h : Recent (run (logStep capacity) ([], []) ops) :=
    run_inv (I := Recent) (fun s op hs => hs.step capacity op) h0 ops
  rw [Recent, logStep_fst] at h
  exact h

/-! ## Values -/

/-- What an operation writes for a key. -/
def written (key : κ) : Op κ α τ → Option (α × τ)
  | .set k value expiresAt => if k = key then some (value, expiresAt) else none
  | _ => none

/-- What the latest `set` of a key has written. -/
def lastSet (key : κ) (ops : List (Op κ α τ)) : Option (α × τ) := ops.reverse.findSome? (written key)

/-- A step makes the item of a `set`, and no other. -/
theorem mem_step {capacity : ℕ} {l : List (Item κ α τ)} {op : Op κ α τ} {e : Item κ α τ}
    (he : e ∈ step capacity l op) :
    written e.key op = some (e.value, e.expiresAt) ∨ e ∈ l ∧ written e.key op = none := by
  cases op with
  | get now key =>
    refine Or.inr ⟨?_, rfl⟩
    simp only [step] at he
    rcases hh : hit l now key with _ | e'
    · rw [hh] at he
      exact List.mem_of_mem_filter he
    · rw [hh] at he
      rcases List.mem_cons.1 he with rfl | he
      · exact List.mem_of_find?_eq_some (Option.filter_eq_some_iff.1 hh).1
      · exact List.mem_of_mem_filter he
  | set key value expiresAt =>
    simp only [step] at he
    rcases hf : find l key with _ | e'
    · rw [hf] at he
      rcases List.mem_cons.1 he with rfl | he
      · exact Or.inl (if_pos rfl)
      · have hmem : e ∈ l := by
          split_ifs at he
          · exact List.mem_of_mem_dropLast he
          · exact he
        have hne : e.key ≠ key := by simpa using List.find?_eq_none.1 hf e hmem
        exact Or.inr ⟨hmem, if_neg (Ne.symm hne)⟩
    · rw [hf] at he
      rcases List.mem_cons.1 he with rfl | he
      · exact Or.inl (if_pos rfl)
      · obtain ⟨hmem, hne⟩ := List.mem_filter.1 he
        have hne' : e.key ≠ key := by simpa using hne
        exact Or.inr ⟨hmem, if_neg (Ne.symm hne')⟩
  | delete key => exact Or.inr ⟨List.mem_of_mem_filter he, rfl⟩
  | clear => exact absurd he List.not_mem_nil

/-- **Each item is what the latest `set` of its key has written.** -/
theorem latest_set (capacity : ℕ) (ops : List (Op κ α τ)) :
    ∀ e ∈ run (step capacity) [] ops, lastSet e.key ops = some (e.value, e.expiresAt) := by
  induction ops using List.reverseRecOn with
  | nil => exact fun e he => absurd he List.not_mem_nil
  | append_singleton ops op ih =>
    intro e he
    rw [run_append] at he
    rw [lastSet, List.reverse_append, List.reverse_singleton, List.singleton_append,
      List.findSome?_cons]
    rcases mem_step he with hw | ⟨hl, hw⟩
    · rw [hw]
    · rw [hw]
      exact ih e hl

end Lib.Lru
