/-
  The Count-Min Sketch of the hot-key detector.

  The table of `CountMinSketch` holds the counters of a sketch of the library
  (`Represents`), and keeps doing so as long as no counter wraps around; the number of
  increments bounds every counter.
-/
import DistCache.Hotkey
import DistCache.Lib.CountMin

namespace DistCache

open Lib Lib.CountMin

namespace CountMinSketch

/-- The counter in row `i` and column `j`. -/
def counter (cms : CountMinSketch) (i j : ℕ) : UInt64 := (cms.table.getD i []).getD j 0

/-- An operation on the sketch. -/
def exec (cms : CountMinSketch) : Op Key → CountMinSketch
  | .increment key => cms.increment key
  | .decay => cms.decay
  | .reset => cms.reset

/-- Every access to the arrays of the sketch is within their bounds. -/
def InBounds (cms : CountMinSketch) : Prop :=
  ∀ key i, i < cms.depth.toNat → i < cms.seeds.length ∧
    ∃ row, cms.table[i]? = some row ∧ cms.column key i < row.length

/-- The table has `depth` rows of `width` counters, and neither is zero. -/
structure Shaped (cms : CountMinSketch) : Prop where
  width_pos : 0 < cms.width.toNat
  depth_pos : 0 < cms.depth.toNat
  seeds : cms.seeds.length = cms.depth.toNat
  rows : cms.table.length = cms.depth.toNat
  columns : ∀ row ∈ cms.table, row.length = cms.width.toNat

variable {cms : CountMinSketch}

theorem new_shaped (width depth : UInt32) : (new width depth).Shaped := by
  have hpos : ∀ n d : UInt32, 0 < d.toNat → 0 < (if n = 0 then d else n).toNat := by
    intro n d hd
    split_ifs with hn
    · exact hd
    · exact Nat.pos_of_ne_zero fun h => hn (UInt32.toNat.inj h)
  refine ⟨hpos width 4096 (by decide), hpos depth 4 (by decide), ?_, ?_, ?_⟩
  · simp [new]
  · simp [new]
  · intro row hrow
    rw [List.eq_of_mem_replicate hrow, List.length_replicate]
    rfl

namespace Shaped

variable (h : cms.Shaped)
include h

theorem column_lt (key : Key) (i : ℕ) : cms.column key i < cms.width.toNat := by
  rw [column, UInt32.toNat_mod]
  exact Nat.mod_lt _ h.width_pos

theorem inBounds : cms.InBounds := by
  intro key i hi
  have hrow : i < cms.table.length := by rw [h.rows]; exact hi
  refine ⟨by rw [h.seeds]; exact hi, _, List.getElem?_eq_getElem hrow, ?_⟩
  rw [h.columns _ (List.getElem_mem _)]
  exact h.column_lt key i

theorem exec (op : Op Key) : (cms.exec op).Shaped := by
  have hmap : ∀ f : UInt64 → UInt64, ∀ row ∈ cms.table.map fun row => row.map f,
      row.length = cms.width.toNat := by
    intro f row hrow
    obtain ⟨row', hrow', rfl⟩ := List.mem_map.1 hrow
    rw [List.length_map, h.columns row' hrow']
  cases op with
  | increment key =>
    refine ⟨h.width_pos, h.depth_pos, h.seeds, List.length_mapIdx.trans h.rows, ?_⟩
    intro row hrow
    obtain ⟨i, hi, rfl⟩ := List.mem_mapIdx.1 hrow
    rw [List.length_modify, h.columns _ (List.getElem_mem _)]
    rfl
  | decay =>
    exact ⟨h.width_pos, h.depth_pos, h.seeds, (List.length_map _).trans h.rows, hmap _⟩
  | reset =>
    exact ⟨h.width_pos, h.depth_pos, h.seeds, (List.length_map _).trans h.rows, hmap _⟩

end Shaped

/-! ## The counters -/

/-- The column of a key in a row, as the hashes of a sketch. -/
def hashes (cms : CountMinSketch) (i : ℕ) (key : Key) : ℕ := cms.column key i

/-- What no operation changes. -/
def dims (cms : CountMinSketch) : UInt32 × UInt32 × List UInt64 := (cms.width, cms.depth, cms.seeds)

theorem dims_exec (op : Op Key) : (cms.exec op).dims = cms.dims := by
  cases op <;> rfl

theorem hashes_congr {cms' : CountMinSketch} (h : cms'.dims = cms.dims) :
    cms'.hashes = cms.hashes := by
  simp only [dims, Prod.mk.injEq] at h
  funext i key
  simp only [hashes, column, hash, h]

/-- The table of `cms` holds the counters of `s`. -/
structure Represents (cms : CountMinSketch) (s : State ℕ ℕ) : Prop where
  counter : ∀ i < cms.depth.toNat, ∀ j < cms.width.toNat, (cms.counter i j).toNat = s.table i j
  total : cms.total.toNat = s.total

theorem new_represents (width depth : UInt32) : (new width depth).Represents .zero := by
  refine ⟨fun i hi j hj => ?_, rfl⟩
  have hrow : i < (new width depth).table.length := by rw [(new_shaped width depth).rows]; exact hi
  have hcol : (new width depth).table.getD i [] = List.replicate (new width depth).width.toNat 0 := by
    rw [List.getD_eq_getElem _ _ hrow]
    exact List.getElem_replicate _
  rw [counter, hcol, List.getD_eq_getElem _ _ (by rw [List.length_replicate]; exact hj),
    List.getElem_replicate]
  rfl

section
variable (i j : ℕ)

theorem counter_increment (h : cms.Shaped) (hi : i < cms.depth.toNat) (hj : j < cms.width.toNat)
    (key : Key) : (cms.increment key).counter i j =
      if j = cms.hashes i key then cms.counter i j + 1 else cms.counter i j := by
  have hrow : i < cms.table.length := by rw [h.rows]; exact hi
  have hcol : j < cms.table[i].length := by rw [h.columns _ (List.getElem_mem hrow)]; exact hj
  simp [counter, increment, hashes, hrow, hcol, List.getElem_modify, eq_comm]

theorem counter_map (f : UInt64 → UInt64) (hf : f 0 = 0) (total : UInt64) :
    { cms with table := cms.table.map (List.map f), total }.counter i j = f (cms.counter i j) := by
  simp only [counter, List.getD_eq_getElem?_getD, List.getElem?_map]
  rcases cms.table[i]? with _ | row
  · simp [hf]
  · simp only [Option.map_some, Option.getD_some, List.getElem?_map]
    rcases row[j]? with _ | c
    · exact hf.symm
    · rfl

theorem counter_decay : cms.decay.counter i j = cms.counter i j / 2 :=
  cms.counter_map i j (· / 2) rfl _

theorem counter_reset : cms.reset.counter i j = 0 :=
  cms.counter_map i j (fun _ => 0) rfl _

end

/-- An operation after which no counter of `s` is out of range is executed as on `s`. -/
theorem Represents.exec {s : State ℕ ℕ} (hr : cms.Represents s) (h : cms.Shaped) (op : Op Key)
    (htable : ∀ i j, (step cms.hashes s op).table i j < 2 ^ 64)
    (htotal : (step cms.hashes s op).total < 2 ^ 64) :
    (cms.exec op).Represents (step cms.hashes s op) := by
  cases op with
  | increment key =>
    refine ⟨fun i hi j hj => ?_, ?_⟩
    · have hlt := htable i j
      simp only [step] at hlt ⊢
      rw [CountMinSketch.exec, counter_increment i j h hi hj key]
      split_ifs with hcol
      · rw [if_pos hcol] at hlt
        rw [UInt64.toNat_add, hr.counter i hi j hj]
        exact Nat.mod_eq_of_lt hlt
      · exact hr.counter i hi j hj
    · simp only [step] at htotal ⊢
      rw [CountMinSketch.exec, increment, UInt64.toNat_add, hr.total]
      exact Nat.mod_eq_of_lt htotal
  | decay =>
    refine ⟨fun i hi j hj => ?_, ?_⟩
    · rw [CountMinSketch.exec, counter_decay, UInt64.toNat_div, hr.counter i hi j hj]
      rfl
    · rw [CountMinSketch.exec, decay, UInt64.toNat_div, hr.total]
      rfl
  | reset => exact ⟨fun i _ j _ => by rw [CountMinSketch.exec, counter_reset]; rfl, rfl⟩

/-- **The code simulates the sketch** from an empty one, until the number of increments is
    out of range. -/
theorem represents_run (h : cms.Shaped) (hr : cms.Represents .zero) (ops : List (Op Key))
    (hops : ops.countP Op.isIncrement < 2 ^ 64) :
    (run exec cms ops).Shaped ∧ (run exec cms ops).dims = cms.dims ∧
      (run exec cms ops).Represents (run (step cms.hashes) .zero ops) := by
  induction ops using List.reverseRecOn with
  | nil => exact ⟨h, rfl, hr⟩
  | append_singleton ops op ih =>
    have hcount : ops.countP Op.isIncrement < 2 ^ 64 := by
      rw [List.countP_append] at hops
      omega
    obtain ⟨hshaped, hdims, hrep⟩ := ih hcount
    have htotal := (total_le cms.hashes (ops ++ [op])).trans_lt hops
    have htable : ∀ i j, _ < 2 ^ 64 := fun i j =>
      (table_le cms.hashes i j (ops ++ [op])).trans_lt htotal
    simp only [run_append, run_cons, run_nil] at htotal htable ⊢
    refine ⟨hshaped.exec op, (dims_exec op).trans hdims, ?_⟩
    rw [← hashes_congr hdims] at hrep htotal htable ⊢
    exact hrep.exec hshaped op htable htotal

/-- The counter of a key in a row, from the sketch. -/
theorem Represents.cell {s : State ℕ ℕ} (hr : cms.Represents s) (h : cms.Shaped) (key : Key) {i : ℕ}
    (hi : i < cms.depth.toNat) : (cms.cell key i).toNat = s.table i (cms.hashes i key) :=
  hr.counter i hi _ (h.column_lt key i)

/-! ## Estimates -/

/-- The loop of `Estimate` finds the least counter. -/
theorem foldl_least (g : ℕ → UInt64) (is : List ℕ) (init : UInt64) :
    let least := is.foldl (fun least i => if g i < least then g i else least) init
    least ≤ init ∧ (∀ i ∈ is, least ≤ g i) ∧ (least = init ∨ ∃ i ∈ is, least = g i) := by
  induction is generalizing init with
  | nil => exact ⟨UInt64.le_refl _, fun i hi => absurd hi List.not_mem_nil, Or.inl rfl⟩
  | cons i is ih =>
    obtain ⟨h1, h2, h3⟩ := ih (if g i < init then g i else init)
    have hfirst : (if g i < init then g i else init) ≤ init ∧
        (if g i < init then g i else init) ≤ g i := by
      split_ifs with hlt
      · exact ⟨UInt64.le_of_lt hlt, UInt64.le_refl _⟩
      · exact ⟨UInt64.le_refl _, UInt64.not_lt.1 hlt⟩
    refine ⟨UInt64.le_trans h1 hfirst.1, ?_, ?_⟩
    · intro i' hi'
      rcases List.mem_cons.1 hi' with rfl | hi'
      · exact UInt64.le_trans h1 hfirst.2
      · exact h2 i' hi'
    · rcases h3 with h3 | ⟨i', hi', h3⟩
      · by_cases hlt : g i < init
        · right
          refine ⟨i, List.mem_cons_self, ?_⟩
          rw [List.foldl_cons, h3, if_pos hlt]
        · left
          rw [List.foldl_cons, h3, if_neg hlt]
      · exact Or.inr ⟨i', List.mem_cons_of_mem _ hi', h3⟩

/-- `Estimate` answers the least counter of the rows. -/
theorem Shaped.estimate_isLeast (h : cms.Shaped) {key : Key}
    (hlt : ∀ i < cms.depth.toNat, (cms.cell key i).toNat < 2 ^ 64 - 1) :
    IsLeast {n | ∃ i < cms.depth.toNat, n = (cms.cell key i).toNat} (cms.estimate key).toNat := by
  obtain ⟨-, hle, hcase⟩ := foldl_least (cms.cell key) (List.range cms.depth.toNat)
    (2 ^ 64 - 1).toUInt64
  have hmax : (2 ^ 64 - 1).toUInt64.toNat = 2 ^ 64 - 1 := by decide
  unfold estimate
  generalize (List.range cms.depth.toNat).foldl _ _ = least at hle hcase ⊢
  have hle' : ∀ i < cms.depth.toNat, least.toNat ≤ (cms.cell key i).toNat := fun i hi =>
    UInt64.le_iff_toNat_le.1 (hle i (List.mem_range.2 hi))
  have hne : least ≠ (2 ^ 64 - 1).toUInt64 := by
    intro he
    have hle0 := hle' 0 h.depth_pos
    have hlt0 := hlt 0 h.depth_pos
    rw [he, hmax] at hle0
    omega
  obtain ⟨i, hi, hleast⟩ := hcase.resolve_left hne
  dsimp only
  rw [if_neg hne]
  refine ⟨⟨i, List.mem_range.1 hi, by rw [hleast]⟩, ?_⟩
  rintro n ⟨i', hi', rfl⟩
  exact hle' i' hi'

/-- The sum of a row, from its counters. -/
theorem sum_row (h : cms.Shaped) {s : State ℕ ℕ} (hr : cms.Represents s) {row : List UInt64}
    (hrow : row ∈ cms.table) :
    ∃ i, (row.map UInt64.toNat).sum = ∑ j ∈ Finset.range cms.width.toNat, s.table i j := by
  obtain ⟨i, hrow', rfl⟩ := List.mem_iff_getElem.1 hrow
  have hlen := h.columns _ hrow
  have hi : i < cms.depth.toNat := by rw [← h.rows]; exact hrow'
  refine ⟨i, ?_⟩
  rw [← Finset.sum_congr rfl fun j hj => hr.counter i hi j (Finset.mem_range.1 hj), ← hlen,
    Finset.sum_range, ← List.sum_ofFn]
  congr 1
  refine List.ext_getElem (by simp) fun j hj _ => ?_
  rw [List.length_map] at hj
  simp [counter, List.getElem?_eq_getElem hrow']

/-- **Bounds of the sketch.**  With fewer than `2^64 - 1` increments, an estimate is at least
    the exact count with its decays, and at most the total; no row sums to more than the total,
    and no access is out of bounds. -/
theorem sketch_bounds (width depth : UInt32) (ops : List (Op Key))
    (hops : ops.countP Op.isIncrement < 2 ^ 64 - 1) :
    let cms := run exec (new width depth) ops
    (∀ key, run (tally key) 0 ops ≤ (cms.estimate key).toNat ∧ cms.estimate key ≤ cms.total) ∧
      (∀ row ∈ cms.table, (row.map UInt64.toNat).sum ≤ cms.total.toNat) ∧ cms.InBounds := by
  intro cms
  obtain ⟨hshaped, hdims, hrep⟩ :=
    represents_run (new_shaped width depth) (new_represents width depth) ops (by omega)
  have htotal := (total_le (new width depth).hashes ops).trans_lt hops
  have htable := fun i j => table_le (new width depth).hashes i j ops
  refine ⟨fun key => ?_, fun row hrow => ?_, hshaped.inBounds⟩
  · have hcell : ∀ i < cms.depth.toNat, (cms.cell key i).toNat =
        (run (step (new width depth).hashes) .zero ops).table i ((new width depth).hashes i key) := by
      intro i hi
      rw [hrep.cell hshaped key hi, hashes_congr hdims]
    have hlt : ∀ i < cms.depth.toNat, (cms.cell key i).toNat < 2 ^ 64 - 1 := by
      intro i hi
      rw [hcell i hi]
      exact (htable _ _).trans_lt htotal
    obtain ⟨i, hi, hest⟩ := (hshaped.estimate_isLeast hlt).1
    rw [UInt64.le_iff_toNat_le, hest, hcell i hi, hrep.total]
    exact ⟨tally_le (new width depth).hashes key i ops, htable _ _⟩
  · obtain ⟨i, hsum⟩ := sum_row hshaped hrep hrow
    rw [hsum, hrep.total]
    exact sum_le (new width depth).hashes i _ ops

/-- Two increments of a key, a decay, and an increment of another key. -/
theorem sketch_bounds_decayed :
    let ops : List (Op Key) := [.increment [1], .increment [1], .decay, .increment [2]]
    run (tally [1]) 0 ops = 1 ∧
      run (tally [1]) 0 ops ≤ ((run exec (new 8 2) ops).estimate [1]).toNat := by
  refine ⟨by decide, ((sketch_bounds 8 2 _ ?_).1 [1]).1⟩
  decide

/-! ## Collisions -/

/-- The increments among `keys` that count for `key` in row `i`: those of the keys at the same
    index. -/
def collisions (cms : CountMinSketch) (keys : List Key) (key : Key) (i : ℕ) : ℕ :=
  keys.countP fun k => cms.hash k i % cms.width = cms.hash key i % cms.width

/-- The minimum over the rows. -/
def leastCollisions (cms : CountMinSketch) (keys : List Key) (key : Key) : Option ℕ :=
  ((List.range cms.depth.toNat).map (cms.collisions keys key)).min?

theorem run_increment (cms : CountMinSketch) (keys : List Key) :
    run increment cms keys = run exec cms (keys.map Op.increment) := by
  rw [run, run, List.foldl_map]
  rfl

theorem reset_represents (h : cms.Shaped) : cms.reset.Shaped ∧ cms.reset.Represents .zero :=
  ⟨h.exec .reset, fun i _ j _ => by rw [counter_reset]; rfl, rfl⟩

/-- A sketch that is created or reset is empty. -/
theorem represents_of_fresh {width depth : UInt32} (h : cms = new width depth ∨
      ∃ ops, cms = (run exec (new width depth) ops).reset) :
    cms.Shaped ∧ cms.Represents .zero ∧ cms.dims = (new width depth).dims := by
  rcases h with rfl | ⟨ops, rfl⟩
  · exact ⟨new_shaped width depth, new_represents width depth, rfl⟩
  · obtain ⟨hshaped, hdims⟩ : (run exec (new width depth) ops).Shaped ∧
        (run exec (new width depth) ops).dims = (new width depth).dims :=
      run_inv (I := fun cms : CountMinSketch => cms.Shaped ∧ cms.dims = (new width depth).dims)
        (fun cms op h => ⟨h.1.exec op, (dims_exec op).trans h.2⟩) ⟨new_shaped width depth, rfl⟩ ops
    exact ⟨(reset_represents hshaped).1, (reset_represents hshaped).2, hdims⟩

theorem leastCollisions_congr {cms' : CountMinSketch} (h : cms'.dims = cms.dims) :
    cms'.leastCollisions = cms.leastCollisions := by
  obtain ⟨width, depth, table, seeds, total⟩ := cms
  obtain ⟨width', depth', table', seeds', total'⟩ := cms'
  simp only [dims, Prod.mk.injEq] at h
  obtain ⟨rfl, rfl, rfl⟩ := h
  rfl

/-- After increments alone, an estimate is the least number of collisions. -/
theorem leastCollisions_eq (h : cms.Shaped) (hr : cms.Represents .zero) (keys : List Key)
    (hkeys : keys.length < 2 ^ 64 - 1) (key : Key) :
    cms.leastCollisions keys key = some ((run increment cms keys).estimate key).toNat := by
  have hcount : (keys.map Op.increment).countP Op.isIncrement ≤ keys.length :=
    List.countP_le_length.trans_eq (List.length_map _)
  obtain ⟨hshaped, hdims, hrep⟩ := represents_run h hr (keys.map Op.increment) (by omega)
  rw [run_increment, ← leastCollisions_congr hdims]
  rw [← hashes_congr hdims] at hrep
  generalize run exec cms (keys.map Op.increment) = cms' at hshaped hrep ⊢
  have hcell : ∀ i < cms'.depth.toNat, (cms'.cell key i).toNat = cms'.collisions keys key i := by
    intro i hi
    rw [hrep.cell hshaped key hi, table_increments]
    refine List.countP_congr fun k _ => ?_
    simp only [hashes, column, decide_eq_true_eq, UInt32.toNat_inj]
  have hlt : ∀ i < cms'.depth.toNat, (cms'.cell key i).toNat < 2 ^ 64 - 1 := by
    intro i hi
    rw [hcell i hi]
    exact List.countP_le_length.trans_lt hkeys
  obtain ⟨⟨i, hi, hest⟩, hleast⟩ := hshaped.estimate_isLeast hlt
  rw [leastCollisions, List.min?_eq_some_iff]
  refine ⟨List.mem_map.2 ⟨i, List.mem_range.2 hi, ?_⟩, fun n hn => ?_⟩
  · rw [hest, hcell i hi]
  · obtain ⟨i', hi', rfl⟩ := List.mem_map.1 hn
    have hi' := List.mem_range.1 hi'
    exact hleast ⟨i', hi', (hcell i' hi').symm⟩

/-- **Estimates are exact up to collisions.**  After fewer than `2^64 - 1` increments since the
    creation or the last reset, `Estimate` is the minimum over the rows of the increments of the
    keys at the same index; so `RecordAccess`, whose own access is one of the increments, answers
    whether that minimum is at least the threshold. -/
theorem estimate_exact (width depth : UInt32) (cms : CountMinSketch)
    (hcms : cms = new width depth ∨ ∃ ops, cms = (run exec (new width depth) ops).reset)
    (keys : List Key) (key : Key) :
    (keys.length < 2 ^ 64 - 1 → (new width depth).leastCollisions keys key =
      some ((run increment cms keys).estimate key).toNat) ∧
    ∀ hotThreshold, (keys ++ [key]).length < 2 ^ 64 - 1 →
      ∃ least, (new width depth).leastCollisions (keys ++ [key]) key = some least ∧
        ((Detector.recordAccess ⟨run increment cms keys, hotThreshold⟩ key).1 = true ↔
          hotThreshold.toNat ≤ least) := by
  obtain ⟨hshaped, hrep, hdims⟩ := represents_of_fresh hcms
  rw [← leastCollisions_congr hdims]
  refine ⟨fun hkeys => leastCollisions_eq hshaped hrep keys hkeys key, fun hotThreshold hkeys => ?_⟩
  refine ⟨_, leastCollisions_eq hshaped hrep (keys ++ [key]) hkeys key, ?_⟩
  rw [run_append, run_cons, run_nil]
  simp only [Detector.recordAccess, decide_eq_true_eq, UInt64.le_iff_toNat_le]

/-- Accesses of two keys after a reset. -/
theorem estimate_exact_reset :
    ∃ least, (new 8 2).leastCollisions [[1], [2], [1]] [1] = some least ∧
      ((Detector.recordAccess ⟨run increment (run exec (new 8 2) [.increment [1]]).reset
        [[1], [2]], 2⟩ [1]).1 = true ↔ 2 ≤ least) :=
  (estimate_exact 8 2 _ (Or.inr ⟨[.increment [1]], rfl⟩) [[1], [2]] [1]).2 2 (by decide)

end CountMinSketch

end DistCache
