/-
  Does the answer of `Delete` depend on garbage collection?

  `Delete` answers whether an entry was present.  An expired entry is present until a pass of
  the sweeper or a `Get` removes it, so two schedules of the same operations (`Schedule`) may
  answer differently.  They answer by the liveness of the key exactly if no `Delete` meets an
  expired entry (`delete_answers_iff`).
-/
import DistCache.Lib.Run
import DistCache.Proof.TtlMap

namespace DistCache

open Lib

/-! ## Schedules and answers -/

namespace Store

/-- `acts` are the operations `ops`, with sweeps and extra `Get`s inserted. -/
inductive Schedule : List Act → List Act → Prop where
  | nil : Schedule [] []
  | op {a : Act} {ops acts : List Act} : Schedule ops acts → Schedule (a :: ops) (a :: acts)
  | get {now : Time} {key : Key} {ops acts : List Act} :
      Schedule ops acts → Schedule ops (.get now key :: acts)
  | sweep {index : ℕ} {passes : List Pass} {ops acts : List Act} :
      Schedule ops acts → Schedule ops (.sweep index passes :: acts)

/-- The answer of a `Delete`. -/
def Reply.existed : Reply → Option Bool
  | .delete existed => some existed
  | _ => none

/-- The answers of the `Delete`s of a run, if no call panics. -/
def deletes (s : Store) (acts : List Act) : Option (List Bool) :=
  (s.replies acts).map (List.filterMap Reply.existed)

/-- The store after a call. -/
def step (s : Store) (a : Act) : Store := ((s.exec a).map Prod.snd).getD s

/-- The call is not a `Delete` of a key whose entry has expired and is still present. -/
def Clean (s : Store) : Act → Prop
  | .delete now key => ∀ e ∈ s.entry key, e.isExpired now = false
  | _ => True

instance (s : Store) : ∀ a, Decidable (s.Clean a)
  | .delete now key => inferInstanceAs (Decidable (∀ e ∈ s.entry key, e.isExpired now = false))
  | .get _ _ | .set _ _ _ _ | .expire _ _ _ | .sweep _ _ => inferInstanceAs (Decidable True)

end Store

/-- What a `Delete` is to answer: whether the key has an entry that has not expired. -/
def TtlMap.existed (m : TtlMap) : Store.Act → Option Bool
  | .delete now key => some (m.find now key).isSome
  | _ => none

/-- The answers that the `Delete`s of a run are to give. -/
def TtlMap.deletes (m : TtlMap) : List Store.Act → List Bool
  | [] => []
  | a :: acts => (m.existed a).toList ++ (m.exec a).2.deletes acts

/-! ## One run -/

/-- Reads and sweeps do not change what a `Delete` is to answer. -/
theorem TtlMap.deletes_schedule {ops acts : List Store.Act} (h : Store.Schedule ops acts) :
    ∀ m : TtlMap, m.deletes acts = m.deletes ops := by
  induction h with
  | nil => exact fun _ => rfl
  | op _ ih =>
    intro m
    rw [deletes, deletes, ih]
  | get _ ih => exact fun m => ih m
  | sweep _ ih => exact fun m => ih m

/-- One call: a `Delete` answers by the liveness of its key, unless it meets an expired
    entry. -/
theorem Sim.existed_iff {t : Time} {s s' : Store} {m : TtlMap} {a : Store.Act}
    {reply : Store.Reply} (h : Sim t s m) (ht : ∀ u ∈ a.times, t ≤ u)
    (ha : s.exec a = some (reply, s')) :
    (reply.existed.isSome = (m.existed a).isSome) ∧
      (reply.existed = m.existed a ↔ s.Clean a) := by
  cases a with
  | get now key =>
    obtain ⟨rfl, -⟩ := Prod.mk.inj (Option.some.inj ha)
    exact ⟨rfl, iff_of_true rfl trivial⟩
  | set now key value ttl =>
    obtain ⟨rfl, -⟩ := Prod.mk.inj (Option.some.inj ha)
    exact ⟨rfl, iff_of_true rfl trivial⟩
  | expire now key ttl =>
    obtain ⟨rfl, -⟩ := Prod.mk.inj (Option.some.inj ha)
    exact ⟨rfl, iff_of_true rfl trivial⟩
  | sweep index passes =>
    obtain ⟨s₁, -, he⟩ := Option.map_eq_some_iff.1 ha
    obtain ⟨rfl, -⟩ := Prod.mk.inj he
    exact ⟨rfl, iff_of_true rfl trivial⟩
  | delete now key =>
    obtain ⟨rfl, -⟩ := Prod.mk.inj (Option.some.inj ha)
    refine ⟨rfl, ?_⟩
    have hfind : m.find now key = alive now (s.entry key) := by
      rw [find_eq, h now (ht now (by simp [Store.Act.times])) key]
    simp only [Store.Reply.existed, TtlMap.existed, hfind, s.delete_fst, Store.Clean]
    rcases s.entry key with _ | e
    · simp [alive]
    · by_cases hx : e.isExpired now = true
      · simp [alive, Option.filter, hx]
      · simp [alive, Option.filter, hx]

theorem toList_append_inj {α : Type*} {a b : Option α} {x y : List α} (h : a.isSome = b.isSome) :
    a.toList ++ x = b.toList ++ y ↔ a = b ∧ x = y := by
  cases a with
  | none =>
    cases b with
    | none => simp
    | some b => exact absurd h (by simp)
  | some a =>
    cases b with
    | none => exact absurd h (by simp)
    | some b => simp

/-- **A run**, from any time at which the store and the map agree. -/
theorem Sim.deletes_iff : ∀ {acts : List Store.Act} {t : Time} {s : Store} {m : TtlMap},
    Sim t s m → Runs t s acts →
    (s.deletes acts = some (m.deletes acts) ↔ Along Store.step Store.Clean s acts)
  | [], _, _, _, _, _ => iff_of_true rfl trivial
  | a :: acts, t, s, m, h, hr => by
    obtain ⟨reply, s', u, hexec, -, h', hr'⟩ := h.next hr
    have ih := h'.deletes_iff hr'
    obtain ⟨rest, hrest, -⟩ := Option.map_eq_some_iff.1 (h'.replies hr')
    obtain ⟨hsome, hiff⟩ := h.existed_iff
      (fun v hv => hr.ge v (List.mem_flatMap.2 ⟨a, List.mem_cons_self, hv⟩)) hexec
    have hstep : s.step a = s' := by simp [Store.step, hexec]
    have hdel : s.deletes (a :: acts) =
        some (reply.existed.toList ++ rest.filterMap Store.Reply.existed) := by
      cases he : reply.existed with
      | none => simp [Store.deletes, Store.replies, hexec, hrest, he]
      | some b => simp [Store.deletes, Store.replies, hexec, hrest, he]
    have hrest' : s'.deletes acts = some (rest.filterMap Store.Reply.existed) := by
      simp [Store.deletes, hrest]
    rw [hrest', Option.some_inj] at ih
    rw [hdel, Option.some_inj, TtlMap.deletes, toList_append_inj hsome, hiff, ih, along_cons, hstep]

/-! ## Two runs -/

/-- **When the answers of `Delete` do not depend on garbage collection.**  Take two schedules of
    the same operations, each at non-decreasing times.  In both runs all `Delete`s answer whether
    their key has an unexpired entry, exactly if in neither run a `Delete` meets an expired
    entry. -/
theorem delete_answers_iff (shardCount : ℤ) (ops acts acts' : List Store.Act)
    (hs : Store.Schedule ops acts) (hs' : Store.Schedule ops acts')
    (htimes : (acts.flatMap Store.Act.times).Pairwise (· ≤ ·))
    (htimes' : (acts'.flatMap Store.Act.times).Pairwise (· ≤ ·))
    (hsweep : ∀ index passes, .sweep index passes ∈ acts ++ acts' →
      index < Store.shardCountOf shardCount) :
    let s := Store.newWithShards shardCount
    let answers := TtlMap.deletes (fun _ => none) ops
    s.deletes acts = some answers ∧ s.deletes acts' = some answers ↔
      Along Store.step Store.Clean s acts ∧ Along Store.step Store.Clean s acts' := by
  intro s answers
  obtain ⟨t, hsim, hruns⟩ := exists_sim_new htimes fun index passes ha =>
    hsweep index passes (List.mem_append_left _ ha)
  obtain ⟨t', hsim', hruns'⟩ := exists_sim_new htimes' fun index passes ha =>
    hsweep index passes (List.mem_append_right _ ha)
  rw [← hsim.deletes_iff hruns, ← hsim'.deletes_iff hruns', TtlMap.deletes_schedule hs,
    TtlMap.deletes_schedule hs']

/-- A key that is read and deleted while it is alive. -/
theorem delete_answers_alive :
    let s := Store.newWithShards 1
    let ops : List Store.Act := [.set 0 [1] [7] 10, .delete 5 [1], .delete 20 [1]]
    let acts : List Store.Act := [.set 0 [1] [7] 10, .get 3 [1], .delete 5 [1], .delete 20 [1]]
    s.deletes ops = some [true, false] ∧ s.deletes acts = some [true, false] := by
  intro s ops acts
  refine (delete_answers_iff 1 ops ops acts (.op (.op (.op .nil))) (.op (.get (.op (.op .nil))))
    (by decide) (by decide) ?_).2 ?_
  · intro index passes ha
    simp [ops, acts] at ha
  · decide

/-- The entry has expired when the key is deleted: the answer depends on whether a `Get` came
    before. -/
theorem delete_answers_differ :
    let s := Store.newWithShards 1
    let ops : List Store.Act := [.set 0 [1] [7] 10, .delete 20 [1]]
    let acts : List Store.Act := [.set 0 [1] [7] 10, .get 15 [1], .delete 20 [1]]
    Store.Schedule ops ops ∧ Store.Schedule ops acts ∧ s.deletes ops = some [true] ∧
      s.deletes acts = some [false] ∧ TtlMap.deletes (fun _ => none) ops = [false] := by
  refine ⟨.op (.op .nil), .op (.get (.op .nil)), ?_, ?_, ?_⟩
  · decide
  · decide
  · decide

end DistCache
