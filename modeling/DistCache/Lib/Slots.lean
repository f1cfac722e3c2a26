/-
  A table of one-shot signals with one slot for every key.

  `register` puts a fresh channel into the slot of a key, whatever is there; `signal`
  closes the channel in the slot and empties it; `clear` empties it.  Many waiters may
  have registered for one key, but the slot has the channel of one of them.

  * `Slots.Wf.run`: in every run, the channels in the slots are open, and no channel is in
    two slots;
  * `Wf.closings_nodup`: no channel is closed twice;
  * `closed_run_iff`: a channel in a slot is closed by a run exactly if the first
    operation of the run on that slot is a signal.
-/
import DistCache.Lib.Run

namespace Lib

/-- The channel in each slot, the number of channels created, and those closed. -/
structure Slots (κ : Type*) where
  slot : Finmap fun _ : κ => ℕ
  next : ℕ
  closed : Finset ℕ

inductive SlotOp (κ : Type*) where
  | register (k : κ)
  | signal (k : κ)
  | clear (k : κ)
  deriving DecidableEq

variable {κ : Type*}

/-- The key an operation is about. -/
def SlotOp.key : SlotOp κ → κ
  | .register k | .signal k | .clear k => k

namespace Slots

/-- No channel has been created. -/
def empty : Slots κ := ⟨∅, 0, ∅⟩

variable [DecidableEq κ]

def step (t : Slots κ) : SlotOp κ → Slots κ
  | .register k => { t with slot := t.slot.insert k t.next, next := t.next + 1 }
  | .signal k =>
    match t.slot.lookup k with
    | none => t
    | some ch => { t with slot := t.slot.erase k, closed := insert ch t.closed }
  | .clear k => { t with slot := t.slot.erase k }

/-! ## One operation -/

section
variable (t : Slots κ) (op : SlotOp κ) {k : κ} {ch : ℕ}

/-- The other slots are left alone. -/
theorem lookup_step_of_ne (h : op.key ≠ k) : (t.step op).slot.lookup k = t.slot.lookup k := by
  cases op with
  | register k' => exact Finmap.lookup_insert_of_ne _ (Ne.symm h)
  | signal k' =>
    unfold step
    dsimp only
    split
    · rfl
    · exact Finmap.lookup_erase_ne (Ne.symm h)
  | clear k' => exact Finmap.lookup_erase_ne (Ne.symm h)

/-- What is in the slot after an operation on it. -/
theorem lookup_step_self :
    (t.step op).slot.lookup op.key =
      match op with
      | .register _ => some t.next
      | _ => none := by
  cases op with
  | register k' => exact Finmap.lookup_insert _
  | signal k' =>
    unfold step
    dsimp only
    split
    · assumption
    · exact Finmap.lookup_erase _ _
  | clear k' => exact Finmap.lookup_erase _ _

/-- A channel in a slot afterwards was there before, or is new. -/
theorem of_lookup_step (h : (t.step op).slot.lookup k = some ch) :
    t.slot.lookup k = some ch ∧ op.key ≠ k ∨ op = .register k ∧ ch = t.next := by
  by_cases hk : op.key = k
  · subst hk
    rw [lookup_step_self] at h
    cases op with
    | register k' => exact Or.inr ⟨rfl, (Option.some.inj h).symm⟩
    | signal k' | clear k' => cases h
  · rw [lookup_step_of_ne t op hk] at h
    exact Or.inl ⟨h, hk⟩

theorem next_le_step : t.next ≤ (t.step op).next := by
  cases op with
  | register k' => exact Nat.le_succ _
  | signal k' =>
    unfold step
    dsimp only
    split <;> exact Nat.le_refl _
  | clear k' => exact Nat.le_refl _

/-- A signal closes what is in the slot. -/
theorem mem_closed_step :
    ch ∈ (t.step op).closed ↔
      ch ∈ t.closed ∨ op = .signal op.key ∧ t.slot.lookup op.key = some ch := by
  cases op with
  | register k' | clear k' => simp [step]
  | signal k' =>
    unfold step SlotOp.key
    dsimp only
    split
    · rename_i hnone
      simp [hnone]
    · rename_i ch' hsome
      simp [hsome, or_comm, eq_comm]

end

/-! ## Runs -/

/-- The channels in the slots are open, and no channel is in two slots. -/
structure Wf (t : Slots κ) : Prop where
  closed_lt : ∀ ch ∈ t.closed, ch < t.next
  slot_lt : ∀ k ch, t.slot.lookup k = some ch → ch < t.next
  isOpen : ∀ k ch, t.slot.lookup k = some ch → ch ∉ t.closed
  inj : ∀ k k' ch, t.slot.lookup k = some ch → t.slot.lookup k' = some ch → k = k'

theorem wf_empty : (empty : Slots κ).Wf := by
  refine ⟨fun ch h => absurd h (Finset.notMem_empty ch), ?_, ?_, ?_⟩ <;>
    simp [empty, Finmap.lookup_empty]

section
variable {t : Slots κ} (h : t.Wf)
include h

theorem Wf.step (op : SlotOp κ) : (t.step op).Wf where
  closed_lt ch hch := by
    refine Nat.lt_of_lt_of_le ?_ (t.next_le_step _)
    rcases (t.mem_closed_step _).1 hch with hch | ⟨-, hch⟩
    · exact h.closed_lt ch hch
    · exact h.slot_lt _ ch hch
  slot_lt k ch hk := by
    rcases t.of_lookup_step _ hk with ⟨hk, -⟩ | ⟨rfl, rfl⟩
    · exact Nat.lt_of_lt_of_le (h.slot_lt k ch hk) (t.next_le_step _)
    · exact Nat.lt_succ_self _
  isOpen k ch hk hch := by
    rcases t.of_lookup_step _ hk with ⟨hk, hne⟩ | ⟨rfl, rfl⟩
    · rcases (t.mem_closed_step _).1 hch with hch | ⟨-, hch⟩
      · exact h.isOpen k ch hk hch
      · exact hne (h.inj _ _ ch hch hk)
    · rcases (t.mem_closed_step _).1 hch with hch | ⟨hop, -⟩
      · exact lt_irrefl _ (h.closed_lt _ hch)
      · cases hop
  inj k k' ch hk hk' := by
    rcases t.of_lookup_step _ hk with ⟨hk, -⟩ | ⟨rfl, rfl⟩ <;>
      rcases t.of_lookup_step _ hk' with ⟨hk', -⟩ | ⟨hop, hch⟩
    · exact h.inj k k' ch hk hk'
    · exact absurd hch (h.slot_lt k ch hk).ne
    · exact absurd rfl (h.slot_lt k' _ hk').ne
    · exact SlotOp.register.inj hop

theorem Wf.run (ops : List (SlotOp κ)) : (Lib.run Slots.step t ops).Wf :=
  run_inv (I := fun t : Slots κ => t.Wf) (fun _ op ht => ht.step op) h ops

end

/-! ## Closings -/

/-- The channel that an operation closes. -/
def closes (t : Slots κ) : SlotOp κ → Option ℕ
  | .signal k => t.slot.lookup k
  | _ => none

/-- The channels that a run closes, in order. -/
def closings (t : Slots κ) (ops : List (SlotOp κ)) : List ℕ :=
  (outputs step closes t ops).reduceOption

theorem closings_cons (t : Slots κ) (op : SlotOp κ) (ops : List (SlotOp κ)) :
    closings t (op :: ops) = (t.closes op).toList ++ closings (t.step op) ops :=
  reduceOption_outputs_cons ..

theorem mem_closed_step_iff (t : Slots κ) (op : SlotOp κ) {ch : ℕ} :
    ch ∈ (t.step op).closed ↔ ch ∈ t.closed ∨ t.closes op = some ch := by
  rw [mem_closed_step]
  cases op <;> simp [closes, SlotOp.key]

theorem mem_closed_run (t : Slots κ) (ops : List (SlotOp κ)) {ch : ℕ} :
    ch ∈ (run step t ops).closed ↔ ch ∈ t.closed ∨ ch ∈ closings t ops := by
  induction ops generalizing t with
  | nil => simp [closings, outputs]
  | cons op ops ih =>
    rw [run_cons, ih, mem_closed_step_iff, closings_cons, List.mem_append, Option.mem_toList,
      or_assoc]

theorem Wf.closes_open {t : Slots κ} (h : t.Wf) {op : SlotOp κ} {ch : ℕ}
    (hch : t.closes op = some ch) : ch ∉ t.closed := by
  cases op with
  | signal k => exact h.isOpen k ch hch
  | register k | clear k => cases hch

/-- **A run closes no channel twice**, and none that was closed before. -/
theorem Wf.closings_nodup {t : Slots κ} (h : t.Wf) (ops : List (SlotOp κ)) :
    (closings t ops).Nodup ∧ ∀ ch ∈ closings t ops, ch ∉ t.closed := by
  induction ops generalizing t with
  | nil => exact ⟨List.nodup_nil, fun ch hch => absurd hch List.not_mem_nil⟩
  | cons op ops ih =>
    obtain ⟨hnodup, hnew⟩ := ih (h.step op)
    have hlater : ∀ ch ∈ closings (t.step op) ops, ch ∉ t.closed := fun ch hch hmem =>
      hnew ch hch ((t.mem_closed_step_iff op).2 (Or.inl hmem))
    rw [closings_cons]
    cases hc : t.closes op with
    | none => exact ⟨hnodup, hlater⟩
    | some ch =>
      have hfresh : ch ∉ closings (t.step op) ops := fun hch =>
        hnew ch hch ((t.mem_closed_step_iff op).2 (Or.inr hc))
      refine ⟨List.nodup_cons.2 ⟨hfresh, hnodup⟩, fun ch' hch' => ?_⟩
      rcases List.mem_cons.1 hch' with rfl | hch'
      · exact h.closes_open hc
      · exact hlater ch' hch'

/-! ## Waiters -/

/-- An open channel that is in no slot. -/
structure Lost (t : Slots κ) (ch : ℕ) : Prop where
  lt : ch < t.next
  isOpen : ch ∉ t.closed
  slot : ∀ k, t.slot.lookup k ≠ some ch

theorem Lost.step {t : Slots κ} {ch : ℕ} (h : t.Lost ch) (op : SlotOp κ) : (t.step op).Lost ch where
  lt := Nat.lt_of_lt_of_le h.lt (t.next_le_step op)
  isOpen hch := by
    rcases (t.mem_closed_step op).1 hch with hch | ⟨-, hch⟩
    · exact h.isOpen hch
    · exact h.slot _ hch
  slot k hk := by
    rcases t.of_lookup_step op hk with ⟨hk, -⟩ | ⟨-, hch⟩
    · exact h.slot k hk
    · exact h.lt.ne hch

/-- An open channel that is in no slot but that of `k`. -/
structure Owned (t : Slots κ) (k : κ) (ch : ℕ) : Prop where
  lt : ch < t.next
  isOpen : ch ∉ t.closed
  slot : ∀ k', t.slot.lookup k' = some ch → k' = k

/-- Only a signal for `k` closes a channel of `k`. -/
theorem Owned.step {t : Slots κ} {k : κ} {ch : ℕ} (h : t.Owned k ch) {op : SlotOp κ}
    (hop : op ≠ .signal k) : (t.step op).Owned k ch where
  lt := Nat.lt_of_lt_of_le h.lt (t.next_le_step op)
  isOpen hch := by
    rcases (t.mem_closed_step op).1 hch with hch | ⟨hs, hch⟩
    · exact h.isOpen hch
    · exact hop (h.slot _ hch ▸ hs)
  slot k' hk' := by
    rcases t.of_lookup_step op hk' with ⟨hk', -⟩ | ⟨-, hnew⟩
    · exact h.slot k' hk'
    · exact absurd hnew h.lt.ne

theorem Wf.owned_register {t : Slots κ} (h : t.Wf) (k : κ) :
    (t.step (.register k)).Owned k t.next where
  lt := Nat.lt_succ_self _
  isOpen hch := lt_irrefl _ (h.closed_lt _ hch)
  slot k' hk' := by
    rcases t.of_lookup_step _ hk' with ⟨hk', -⟩ | ⟨hop, -⟩
    · exact absurd (h.slot_lt k' _ hk') (lt_irrefl _)
    · exact (SlotOp.register.inj hop).symm

/-- An operation on the slot of a channel that is not a signal takes the channel out. -/
theorem Wf.lost {t : Slots κ} (h : t.Wf) {op : SlotOp κ} {ch : ℕ}
    (hch : t.slot.lookup op.key = some ch) (hop : op ≠ .signal op.key) : (t.step op).Lost ch where
  lt := Nat.lt_of_lt_of_le (h.slot_lt _ ch hch) (t.next_le_step op)
  isOpen hmem := by
    rcases (t.mem_closed_step op).1 hmem with hmem | ⟨hs, -⟩
    · exact h.isOpen _ ch hch hmem
    · exact hop hs
  slot k hk := by
    rcases t.of_lookup_step op hk with ⟨hk, hne⟩ | ⟨-, hnew⟩
    · exact hne (h.inj _ _ ch hch hk)
    · exact (h.slot_lt _ ch hch).ne hnew

/-- **Which waiter a signal reaches**: the channel in the slot of `k` is closed by a run if and
    only if the first operation of the run on `k` is a signal. -/
theorem closed_run_iff {t : Slots κ} (h : t.Wf) {k : κ} {ch : ℕ}
    (hch : t.slot.lookup k = some ch) (ops : List (SlotOp κ)) :
    ch ∈ (run step t ops).closed ↔ ops.find? (fun op => op.key = k) = some (.signal k) := by
  -- induction on the run, up to its first operation on `k`
  induction ops generalizing t with
  | nil => simpa using h.isOpen k ch hch
  | cons op ops ih =>
    rw [run_cons]
    by_cases hk : op.key = k
    · rw [List.find?_cons_of_pos (by simpa using hk), Option.some.injEq]
      subst hk
      constructor
      · intro hmem
        by_contra hop
        have hlost := run_inv (I := fun t : Slots κ => t.Lost ch) (fun _ op ht => ht.step op)
          (h.lost hch hop) ops
        exact hlost.isOpen hmem
      · intro hop
        refine run_inv (I := fun t : Slots κ => ch ∈ t.closed) (fun t op ht => ?_) ?_ ops
        · exact (t.mem_closed_step op).2 (Or.inl ht)
        · exact (t.mem_closed_step op).2 (Or.inr ⟨hop, hch⟩)
    · rw [List.find?_cons_of_neg (by simpa using hk)]
      exact ih (h.step op) ((t.lookup_step_of_ne op hk).trans hch)

end Slots

/-- If there is a signal for `k`, it is the first operation on `k` exactly if no other one stands
    before the first signal. -/
theorem SlotOp.find?_eq_signal_iff [DecidableEq κ] {k : κ} {ops : List (SlotOp κ)}
    (h : .signal k ∈ ops) :
    ops.find? (fun op => op.key = k) = some (.signal k) ↔
      ∀ op ∈ ops.takeWhile (· ≠ .signal k), op.key ≠ k := by
  induction ops with
  | nil => cases h
  | cons op ops ih =>
    by_cases hop : op = .signal k
    · subst hop
      simp [SlotOp.key]
    · have hmem : .signal k ∈ ops := (List.mem_cons.1 h).resolve_left (Ne.symm hop)
      rw [List.takeWhile_cons_of_pos (by simpa using hop)]
      by_cases hk : op.key = k
      · rw [List.find?_cons_of_pos (by simpa using hk)]
        simp [hop, hk]
      · rw [List.find?_cons_of_neg (by simpa using hk), ih hmem]
        simp [hk]

end Lib
