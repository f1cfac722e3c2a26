/-
  Buffered channels, and what becomes of the values offered to one.

  A sender that does not wait offers a value: it is queued if there is room, and dropped if there is
  none.  To offer a value to a closed channel, or to close it again, is a fault, after which nothing
  happens any more; so is an `abort`, which comes from elsewhere in the program.

  * `Accounted`: the values received and queued are those offered and not dropped, in their order;
    nothing is dropped before the channel is full, and without a receiver the first values stay;
  * `fault_run`: the runs that end with a fault.
-/
import DistCache.Lib.Run

namespace Lib

/-- A channel with a buffer for `cap` values. -/
structure Chan (α : Type*) (cap : ℕ) where
  buffer : List α
  closed : Bool
  le_cap : buffer.length ≤ cap

/-- A channel with its history: the values offered, dropped and received so far, and whether there
    was a fault. -/
structure Feed (α : Type*) (cap : ℕ) where
  chan : Chan α cap
  offered : List α
  dropped : List α
  received : List α
  fault : Bool

namespace Feed

variable {α : Type*} {cap : ℕ}

inductive Op (α : Type*) where
  | offer (a : α)
  | receive
  | close
  | abort

/-- The operations that a closed channel does not allow. -/
def Op.NeedsOpen : Op α → Prop
  | .offer _ | .close => True
  | .receive | .abort => False

def new : Feed α cap := ⟨⟨[], false, Nat.zero_le cap⟩, [], [], [], false⟩

/-- Offer a value to an open channel, without waiting. -/
def offer (t : Feed α cap) (a : α) : Feed α cap :=
  if h : t.chan.buffer.length < cap then
    { t with
      chan := ⟨t.chan.buffer ++ [a], t.chan.closed, by simpa using h⟩
      offered := t.offered ++ [a] }
  else { t with offered := t.offered ++ [a], dropped := t.dropped ++ [a] }

/-- Receive the oldest value, if there is one. -/
def receive (t : Feed α cap) : Feed α cap :=
  match h : t.chan.buffer with
  | [] => t
  | a :: rest =>
    { t with
      chan := ⟨rest, t.chan.closed, by
        have := t.chan.le_cap
        rw [h, List.length_cons] at this
        omega⟩
      received := t.received ++ [a] }

def step (t : Feed α cap) (op : Op α) : Feed α cap :=
  if t.fault then t
  else
    match op with
    | .offer a => if t.chan.closed then { t with fault := true } else t.offer a
    | .receive => t.receive
    | .close =>
      if t.chan.closed then { t with fault := true }
      else { t with chan := ⟨t.chan.buffer, true, t.chan.le_cap⟩ }
    | .abort => { t with fault := true }

/-- What one operation can do. -/
inductive Moves (t : Feed α cap) : Op α → Feed α cap → Prop
  | stuck (op : Op α) (hf : t.fault = true) : Moves t op t
  | faults (op : Op α) (hf : t.fault = false) (hc : t.chan.closed = true) (hop : op.NeedsOpen) :
      Moves t op { t with fault := true }
  | aborts (hf : t.fault = false) : Moves t .abort { t with fault := true }
  | offers (a : α) (hf : t.fault = false) (hc : t.chan.closed = false) :
      Moves t (.offer a) (t.offer a)
  | receives (hf : t.fault = false) : Moves t .receive t.receive
  | closes (hf : t.fault = false) (hc : t.chan.closed = false) :
      Moves t .close { t with chan := ⟨t.chan.buffer, true, t.chan.le_cap⟩ }

theorem step_moves (t : Feed α cap) (op : Op α) : Moves t op (t.step op) := by
  unfold step
  cases hf : t.fault with
  | true => exact .stuck op hf
  | false =>
    cases op with
    | receive => exact .receives hf
    | offer a =>
      cases hc : t.chan.closed with
      | true => exact .faults _ hf hc trivial
      | false => exact .offers a hf hc
    | close =>
      cases hc : t.chan.closed with
      | true => exact .faults _ hf hc trivial
      | false => simpa [hf] using Moves.closes hf hc
    | abort => exact .aborts hf

@[simp]
theorem offer_fault (t : Feed α cap) (a : α) : (t.offer a).fault = t.fault := by
  unfold offer
  split <;> rfl

@[simp]
theorem offer_closed (t : Feed α cap) (a : α) : (t.offer a).chan.closed = t.chan.closed := by
  unfold offer
  split <;> rfl

@[simp]
theorem offer_offered (t : Feed α cap) (a : α) : (t.offer a).offered = t.offered ++ [a] := by
  unfold offer
  split <;> rfl

@[simp]
theorem receive_fault (t : Feed α cap) : t.receive.fault = t.fault := by
  unfold receive
  split <;> rfl

@[simp]
theorem receive_closed (t : Feed α cap) : t.receive.chan.closed = t.chan.closed := by
  unfold receive
  split <;> rfl

@[simp]
theorem receive_offered (t : Feed α cap) : t.receive.offered = t.offered := by
  unfold receive
  split <;> rfl

/-! ## What is offered, queued, dropped and received -/

/-- The books of a channel. -/
structure Accounted (t : Feed α cap) : Prop where
  order : (t.received ++ t.chan.buffer).Sublist t.offered
  perm : (t.received ++ t.chan.buffer ++ t.dropped).Perm t.offered
  full : t.dropped ≠ [] → cap ≤ (t.received ++ t.chan.buffer).length
  first : t.received = [] → t.chan.buffer = t.offered.take cap

theorem accounted_new : (new : Feed α cap).Accounted :=
  ⟨.refl [], .refl [], fun h => absurd rfl h, fun _ => List.take_nil.symm⟩

theorem Accounted.offer {t : Feed α cap} (h : t.Accounted) (a : α) : (t.offer a).Accounted := by
  unfold Feed.offer
  split
  · rename_i hroom
    refine ⟨?_, ?_, fun hd => ?_, fun hr => ?_⟩
    · rw [← List.append_assoc]
      exact h.order.append (.refl [a])
    · dsimp only
      rw [← List.append_assoc, List.append_assoc]
      refine List.Perm.trans ?_ (h.perm.append_right [a])
      rw [List.append_assoc (t.received ++ t.chan.buffer)]
      exact List.perm_append_comm.append_left _
    · have := h.full hd
      simp only [List.length_append, List.length_singleton] at this ⊢
      omega
    · -- nothing was dropped, so the buffer is all that was offered
      have hfirst := h.first hr
      have hlen : t.offered.length < cap := by
        have := congrArg List.length hfirst
        rw [List.length_take] at this
        omega
      rw [List.take_of_length_le hlen.le] at hfirst
      dsimp only
      rw [hfirst, List.take_of_length_le (by simpa using hlen)]
  · rename_i hroom
    have hcap := t.chan.le_cap
    refine ⟨h.order.trans (List.sublist_append_left _ _), ?_, fun _ => ?_, fun hr => ?_⟩
    · dsimp only
      rw [← List.append_assoc]
      exact h.perm.append_right [a]
    · simp only [List.length_append]
      omega
    · have hfirst := h.first hr
      have hlen : cap ≤ t.offered.length := by
        have := congrArg List.length hfirst
        rw [List.length_take] at this
        omega
      dsimp only
      rw [List.take_append_of_le_length hlen]
      exact hfirst

theorem Accounted.receive {t : Feed α cap} (h : t.Accounted) : t.receive.Accounted := by
  unfold Feed.receive
  split
  · exact h
  · rename_i a rest hbuf
    have happ : t.received ++ [a] ++ rest = t.received ++ t.chan.buffer := by rw [hbuf]; simp
    refine ⟨?_, ?_, fun hd => ?_, fun hr => absurd hr (by simp)⟩
    · dsimp only
      rw [happ]
      exact h.order
    · dsimp only
      rw [happ]
      exact h.perm
    · dsimp only
      rw [happ]
      exact h.full hd

theorem Accounted.step {t : Feed α cap} (h : t.Accounted) (op : Op α) :
    (t.step op).Accounted := by
  have hm := step_moves t op
  generalize t.step op = t' at hm
  cases hm with
  | stuck => exact h
  | faults | aborts => exact ⟨h.order, h.perm, h.full, h.first⟩
  | offers a => exact h.offer a
  | receives => exact h.receive
  | closes => exact ⟨h.order, h.perm, h.full, h.first⟩

theorem accounted_run (ops : List (Op α)) : (run step (new : Feed α cap) ops).Accounted :=
  run_inv (fun _ op h => h.step op) accounted_new ops

/-! ## Faults -/

theorem fault_step (t : Feed α cap) (op : Op α) :
    (t.step op).fault = true ↔
      t.fault = true ∨ op = .abort ∨ t.chan.closed = true ∧ op.NeedsOpen := by
  have hm := step_moves t op
  generalize t.step op = t' at hm
  cases hm with
  | stuck _ hf => simp [hf]
  | faults _ hf hc hop => simp [hc, hop]
  | aborts => simp
  | offers a hf hc => simp [hc]
  | receives => simp [Op.NeedsOpen]
  | closes hf hc => simp [hc]

theorem fault_of_step {t : Feed α cap} {op : Op α} (h : (t.step op).fault = false) :
    t.fault = false := by
  by_contra hf
  rw [(fault_step t op).2 (Or.inl (by simpa using hf))] at h
  cases h

/-- The value offered by an operation. -/
def Op.value : Op α → Option α
  | .offer a => some a
  | .receive | .close | .abort => none

theorem offered_step {t : Feed α cap} {op : Op α} (h : (t.step op).fault = false) :
    (t.step op).offered = t.offered ++ op.value.toList := by
  have hm := step_moves t op
  generalize t.step op = t' at h hm
  cases hm with
  | stuck _ hf => simp [hf] at h
  | faults | aborts => cases h
  | offers a => exact offer_offered t a
  | receives => simp [Op.value]
  | closes => simp [Op.value]

theorem closed_step {t : Feed α cap} {op : Op α} (h : (t.step op).fault = false) :
    (t.step op).chan.closed = true ↔ t.chan.closed = true ∨ op = .close := by
  have hm := step_moves t op
  generalize t.step op = t' at h hm
  cases hm with
  | stuck _ hf => simp [hf] at h
  | faults | aborts => cases h
  | offers a => simp
  | receives => simp
  | closes => simp

/-- Without a fault, a channel is closed exactly if there was a close. -/
theorem closed_run {ops : List (Op α)} (h : (run step (new : Feed α cap) ops).fault = false) :
    (run step (new : Feed α cap) ops).chan.closed = true ↔ .close ∈ ops := by
  induction ops using List.reverseRecOn with
  | nil => simp [new]
  | append_singleton ops op ih =>
    rw [run_append, run_cons, run_nil] at h ⊢
    rw [closed_step h, ih (fault_of_step h), List.mem_append, List.mem_singleton]
    exact or_congr_right eq_comm

/-- **A run ends with a fault** exactly if it has an abort, or the channel is closed in it, and a
    value is offered or the channel closed again later. -/
theorem fault_run (ops : List (Op α)) :
    (run step (new : Feed α cap) ops).fault = true ↔
      .abort ∈ ops ∨ ∃ as bs, ops = as ++ bs ∧ .close ∈ as ∧ ∃ op ∈ bs, op.NeedsOpen := by
  induction ops using List.reverseRecOn with
  | nil =>
    refine iff_of_false (by simp [new]) ?_
    rintro (habort | ⟨as, bs, he, hmem, -⟩)
    · cases habort
    · obtain ⟨rfl, -⟩ := List.append_eq_nil_iff.1 he.symm
      cases hmem
  | append_singleton ops op ih =>
    rw [run_append, run_cons, run_nil, fault_step, List.mem_append, List.mem_singleton]
    constructor
    · rintro (hf | rfl | ⟨hc, hne⟩)
      · rcases ih.1 hf with habort | ⟨as, bs, rfl, hmem, op', hop', hne⟩
        · exact Or.inl (Or.inl habort)
        · exact Or.inr ⟨as, bs ++ [op], List.append_assoc .., hmem, op',
            List.mem_append_left _ hop', hne⟩
      · exact Or.inl (Or.inr rfl)
      · cases hf : (run step (new : Feed α cap) ops).fault with
        | true =>
          rcases ih.1 hf with habort | ⟨as, bs, rfl, hmem, -⟩
          · exact Or.inl (Or.inl habort)
          · exact Or.inr ⟨as ++ bs, [op], rfl, List.mem_append_left _ hmem, op,
              List.mem_singleton.2 rfl, hne⟩
        | false =>
          exact Or.inr ⟨ops, [op], rfl, (closed_run hf).1 hc, op, List.mem_singleton.2 rfl, hne⟩
    · rintro ((habort | rfl) | ⟨as, bs, he, hmem, op', hop', hne⟩)
      · exact Or.inl (ih.2 (Or.inl habort))
      · exact Or.inr (Or.inl rfl)
      · -- the last operation is the one that faults, or it comes after it
        rcases List.eq_nil_or_concat bs with rfl | ⟨bs, last, rfl⟩
        · cases hop'
        · rw [List.concat_eq_append, ← List.append_assoc] at he
          obtain ⟨rfl, hlast⟩ := List.append_inj' he rfl
          obtain rfl : op = last := by simpa using hlast
          rw [List.concat_eq_append, List.mem_append, List.mem_singleton] at hop'
          rcases hop' with hop' | rfl
          · exact Or.inl (ih.2 (Or.inr ⟨as, bs, rfl, hmem, op', hop', hne⟩))
          · cases hf : (run step (new : Feed α cap) (as ++ bs)).fault with
            | true => exact Or.inl rfl
            | false =>
              exact Or.inr (Or.inr ⟨(closed_run hf).2 (List.mem_append_left _ hmem), hne⟩)

end Feed

end Lib
