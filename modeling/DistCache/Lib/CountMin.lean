/-
  Count-Min Sketches with decay.

  A sketch has a table of counters with a row for each `i : ι`; the hash of row `i`
  puts an item into column `h i a`.  `decay` halves every counter, rounding down, and
  `reset` zeroes them.  The exact count of an item is halved and zeroed along with them.

  * `tally_le`: no counter of an item falls below its exact count, whatever collides
    with it;
  * `sum_le`: the counters of a row sum to at most the total;
  * `total_le`: the total is at most the number of increments;
  * `total_eq`: the total is the decayed count of all items;
  * `table_increments`: without decays and resets, a counter counts the increments of the
    items that hash to it.
-/
import DistCache.Lib.Run

namespace Lib.CountMin

variable {α ι κ : Type*}

/-- The counters of a sketch, and their total. -/
structure State (ι κ : Type*) where
  table : ι → κ → ℕ
  total : ℕ

/-- The empty sketch. -/
def State.zero : State ι κ := ⟨fun _ _ => 0, 0⟩

/-- What changes a sketch. -/
inductive Op (α : Type*) where
  | increment (a : α)
  | decay
  | reset

def Op.isIncrement : Op α → Bool
  | .increment _ => true
  | _ => false

/-- One operation on the exact count of `a`. -/
def tally [DecidableEq α] (a : α) (n : ℕ) : Op α → ℕ
  | .increment b => if b = a then n + 1 else n
  | .decay => n / 2
  | .reset => 0

/-- One operation on the count of all items. -/
def volume (n : ℕ) : Op α → ℕ
  | .increment _ => n + 1
  | .decay => n / 2
  | .reset => 0

variable [DecidableEq κ] (h : ι → α → κ)

/-- One operation on a sketch with the hashes `h`. -/
def step (s : State ι κ) : Op α → State ι κ
  | .increment a => ⟨fun i j => if j = h i a then s.table i j + 1 else s.table i j, s.total + 1⟩
  | .decay => ⟨fun i j => s.table i j / 2, s.total / 2⟩
  | .reset => .zero

section Tally
variable [DecidableEq α]

/-- A counter that an item hashes to moves at least as the exact count of the item. -/
theorem tally_le_step {a : α} {i : ι} {s : State ι κ} {n : ℕ} (hn : n ≤ s.table i (h i a))
    (op : Op α) : tally a n op ≤ (step h s op).table i (h i a) := by
  cases op with
  | increment b =>
    simp only [tally, step]
    by_cases hb : b = a
    · rw [if_pos hb, hb, if_pos rfl]
      omega
    · rw [if_neg hb]
      split_ifs <;> omega
  | decay => exact Nat.div_le_div_right hn
  | reset => exact le_rfl

/-- **A sketch never underestimates**: the exact count of an item is at most any of its
    counters. -/
theorem tally_le (a : α) (i : ι) (ops : List (Op α)) :
    run (tally a) 0 ops ≤ (run (step h) .zero ops).table i (h i a) := by
  have hrun : ∀ (n : ℕ) (s : State ι κ), n ≤ s.table i (h i a) →
      run (tally a) n ops ≤ (run (step h) s ops).table i (h i a) := by
    induction ops with
    | nil => exact fun n s hn => hn
    | cons op ops ih => exact fun n s hn => ih _ _ (tally_le_step h hn op)
  exact hrun 0 .zero le_rfl

end Tally

section Sum
variable {s : State ι κ} {i : ι} {J : Finset κ}

theorem sum_le_step (hs : ∑ j ∈ J, s.table i j ≤ s.total) (op : Op α) :
    ∑ j ∈ J, (step h s op).table i j ≤ (step h s op).total := by
  cases op with
  | increment a =>
    -- one column of the row grows, if it is among those summed
    have hone : ∑ j ∈ J, (if j = h i a then 1 else 0) ≤ 1 := by
      rw [Finset.sum_ite_eq']
      split_ifs <;> omega
    calc ∑ j ∈ J, (step h s (.increment a)).table i j
        = ∑ j ∈ J, (s.table i j + if j = h i a then 1 else 0) := by
          refine Finset.sum_congr rfl fun j _ => ?_
          simp only [step]
          split_ifs <;> rfl
      _ = ∑ j ∈ J, s.table i j + ∑ j ∈ J, (if j = h i a then 1 else 0) := Finset.sum_add_distrib
      _ ≤ s.total + 1 := Nat.add_le_add hs hone
  | decay =>
    -- halves rounded down sum to at most the half of the sum
    have htwice : 2 * ∑ j ∈ J, s.table i j / 2 ≤ s.total := by
      rw [Finset.mul_sum]
      exact (Finset.sum_le_sum fun j _ => Nat.mul_div_le _ 2).trans hs
    simp only [step]
    omega
  | reset => simp [step, State.zero]

/-- **A row sums to at most the total**, over any columns. -/
theorem sum_le (i : ι) (J : Finset κ) (ops : List (Op α)) :
    ∑ j ∈ J, (run (step h) .zero ops).table i j ≤ (run (step h) .zero ops).total :=
  run_inv (I := fun s : State ι κ => ∑ j ∈ J, s.table i j ≤ s.total)
    (fun _ op hs => sum_le_step h hs op) (by simp [State.zero]) ops

/-- A counter is at most the total. -/
theorem table_le (i : ι) (j : κ) (ops : List (Op α)) :
    (run (step h) .zero ops).table i j ≤ (run (step h) .zero ops).total := by
  simpa using sum_le h i {j} ops

end Sum

/-- The total is at most the number of increments. -/
theorem total_le (ops : List (Op α)) :
    (run (step h) (.zero : State ι κ) ops).total ≤ ops.countP Op.isIncrement := by
  have hrun : ∀ s : State ι κ, (run (step h) s ops).total ≤ s.total + ops.countP Op.isIncrement := by
    induction ops with
    | nil => exact fun s => le_rfl
    | cons op ops ih =>
      intro s
      refine (ih (step h s op)).trans ?_
      cases op with
      | increment a => simp only [step, List.countP_cons, Op.isIncrement, if_true]; omega
      | decay => simp only [step, List.countP_cons, Op.isIncrement]; omega
      | reset => simp only [step, State.zero, List.countP_cons, Op.isIncrement]; omega
  simpa [State.zero] using hrun .zero

/-- The total is the count of all items, with its decays. -/
theorem total_eq (ops : List (Op α)) :
    (run (step h) (.zero : State ι κ) ops).total = run volume 0 ops := by
  induction ops using List.reverseRecOn with
  | nil => rfl
  | append_singleton ops op ih =>
    rw [run_append, run_append, ← ih]
    cases op <;> rfl

/-- **Increments alone are counted exactly**, up to collisions. -/
theorem table_increments (i : ι) (j : κ) (as : List α) :
    (run (step h) .zero (as.map Op.increment)).table i j = as.countP fun a => h i a = j := by
  induction as using List.reverseRecOn with
  | nil => rfl
  | append_singleton as a ih =>
    rw [List.map_append, run_append, List.countP_append, ← ih]
    simp only [List.map_cons, List.map_nil, run_cons, run_nil, step]
    by_cases ha : h i a = j
    · rw [if_pos ha.symm, List.countP_singleton, if_pos (decide_eq_true ha)]
    · rw [if_neg (Ne.symm ha), List.countP_singleton, if_neg (by simpa using ha), Nat.add_zero]

end Lib.CountMin
