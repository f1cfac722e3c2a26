/-
  Runs of a step function.

  A system is a step function `step : σ → ι → σ` on states `σ` with labels `ι`;
  a run is a list of labels, executed from left to right (`run`).  Guards and
  assumptions on the steps of a run are a relation between a state and the
  label executed in it, required at every step (`Along`).

  * `Along.inv`: an invariant preserved by the steps that meet the guard holds
    at the end of every guarded run;
  * `Along.good_iff`: all states of a guarded run are good exactly if its steps meet
    the condition under which they keep a state good;
  * `Along.split`: what a guarded run meets at one of its steps;
  * `run_refines`: a run whose steps commute with an abstraction is a run of the abstract system,
    with the same answers (`outputs`), and `run_stutters` if a step does one abstract step or none;
  * `Along.simulates`: a guarded run simulates the abstract run of the steps that do not stutter;
  * `Along.last_write`: what is left by a run in which every step overwrites, and `run_last_write`
    if some do;
  * `run_pays`: if every step pays something of what is owed until nothing is, then enough steps
    have paid exactly what was owed.
-/
import Mathlib

namespace Lib

variable {σ ι : Type*} {step : σ → ι → σ} {C : σ → ι → Prop}

/-- The state after the run `as` from `s`. -/
def run (step : σ → ι → σ) (s : σ) (as : List ι) : σ := as.foldl step s

@[simp] theorem run_nil (s : σ) : run step s [] = s := rfl

@[simp] theorem run_cons (s : σ) (a : ι) (as : List ι) :
    run step s (a :: as) = run step (step s a) as := rfl

@[simp] theorem run_append (s : σ) (as bs : List ι) :
    run step s (as ++ bs) = run step (run step s as) bs := List.foldl_append ..

/-- Every step of the run `as` from `s` meets `C` in the state it is taken in. -/
def Along (step : σ → ι → σ) (C : σ → ι → Prop) : σ → List ι → Prop
  | _, [] => True
  | s, a :: as => C s a ∧ Along step C (step s a) as

instance Along.decidable [∀ s a, Decidable (C s a)] :
    ∀ (s : σ) (as : List ι), Decidable (Along step C s as)
  | _, [] => inferInstanceAs (Decidable True)
  | s, a :: as => @instDecidableAnd _ _ _ (Along.decidable (step s a) as)

@[simp] theorem Along.nil (s : σ) : Along step C s [] := trivial

@[simp] theorem along_cons {s : σ} {a : ι} {as : List ι} :
    Along step C s (a :: as) ↔ C s a ∧ Along step C (step s a) as := Iff.rfl

theorem along_append {s : σ} {as bs : List ι} :
    Along step C s (as ++ bs) ↔ Along step C s as ∧ Along step C (run step s as) bs := by
  induction as generalizing s with
  | nil => simp
  | cons a as ih => simp only [List.cons_append, along_cons, ih, run_cons, and_assoc]

theorem Along.of_forall {P : ι → Prop} {as : List ι} (h : ∀ a ∈ as, P a) (s : σ) :
    Along step (fun _ a => P a) s as := by
  induction as generalizing s with
  | nil => trivial
  | cons a as ih => exact ⟨h a List.mem_cons_self, ih (fun b hb => h b (List.mem_cons_of_mem _ hb)) _⟩

theorem Along.and {D : σ → ι → Prop} {s : σ} {as : List ι} (h : Along step C s as)
    (h' : Along step D s as) : Along step (fun s a => C s a ∧ D s a) s as := by
  induction as generalizing s with
  | nil => trivial
  | cons a as ih => exact ⟨⟨h.1, h'.1⟩, ih h.2 h'.2⟩

/-- The guard at a step inside a run, and the runs before and after it. -/
theorem Along.split {s : σ} {as bs : List ι} {a : ι} (h : Along step C s (as ++ a :: bs)) :
    Along step C s as ∧ C (run step s as) a ∧ Along step C (step (run step s as) a) bs := by
  obtain ⟨h1, h2, h3⟩ := along_append.1 h
  exact ⟨h1, h2, h3⟩

/-- **The invariant rule**: an invariant preserved by the guarded steps holds at
    the end of every guarded run. -/
theorem Along.inv {I : σ → Prop} (hstep : ∀ s a, I s → C s a → I (step s a)) {s : σ}
    {as : List ι} (h : Along step C s as) (hs : I s) : I (run step s as) := by
  induction as generalizing s with
  | nil => exact hs
  | cons a as ih => exact ih h.2 (hstep s a hs h.1)

/-- The invariant rule for runs without guards. -/
theorem run_inv {I : σ → Prop} (hstep : ∀ s a, I s → I (step s a)) {s : σ} (hs : I s)
    (as : List ι) : I (run step s as) := by
  induction as generalizing s with
  | nil => exact hs
  | cons a as ih => exact ih (hstep s a hs)

/-- What the steps of a run answer. -/
def outputs {β : Type*} (step : σ → ι → σ) (out : σ → ι → β) : σ → List ι → List β
  | _, [] => []
  | s, a :: as => out s a :: outputs step out (step s a) as

/-- **The refinement rule**: if the steps commute with an abstraction and answer alike, so do
    the runs. -/
theorem run_refines {σ' ι' β : Type*} {step' : σ' → ι' → σ'} {out : σ → ι → β} {out' : σ' → ι' → β}
    {I : σ → Prop} {f : σ → σ'} {g : ι → ι'} (hI : ∀ s a, I s → I (step s a))
    (hstep : ∀ s a, I s → f (step s a) = step' (f s) (g a))
    (hout : ∀ s a, I s → out s a = out' (f s) (g a)) {s : σ} (hs : I s) (as : List ι) :
    f (run step s as) = run step' (f s) (as.map g) ∧
      outputs step out s as = outputs step' out' (f s) (as.map g) := by
  induction as generalizing s with
  | nil => exact ⟨rfl, rfl⟩
  | cons a as ih =>
    obtain ⟨hrun, houts⟩ := ih (hI s a hs)
    rw [hstep s a hs] at hrun houts
    refine ⟨hrun, ?_⟩
    simp only [outputs, List.map_cons, hout s a hs, houts]

theorem reduceOption_outputs_cons {β : Type*} (out : σ → ι → Option β) (s : σ) (a : ι)
    (as : List ι) : (outputs step out s (a :: as)).reduceOption =
      (out s a).toList ++ (outputs step out (step s a) as).reduceOption := by
  rw [outputs]
  cases out s a <;> rfl

/-- **The stuttering rule**: if every step does one abstract step or none, and answers what that
    step answers, then a run does the abstract steps of its steps, and answers what they do. -/
theorem run_stutters {σ' ι' β : Type*} {step' : σ' → ι' → σ'} {g : σ → ι → Option ι'}
    {out : σ → ι → Option β} {out' : σ' → ι' → Option β} {f : σ → σ'}
    (hstep : ∀ s a, f (step s a) = run step' (f s) (g s a).toList)
    (hout : ∀ s a, out s a = (g s a).bind (out' (f s))) (s : σ) (as : List ι) :
    f (run step s as) = run step' (f s) (outputs step g s as).reduceOption ∧
      (outputs step out s as).reduceOption =
        (outputs step' out' (f s) (outputs step g s as).reduceOption).reduceOption := by
  induction as generalizing s with
  | nil => exact ⟨rfl, rfl⟩
  | cons a as ih =>
    obtain ⟨hrun, houts⟩ := ih (step s a)
    rw [hstep] at hrun houts
    rw [reduceOption_outputs_cons, reduceOption_outputs_cons, run_append]
    refine ⟨hrun, ?_⟩
    rw [houts, hout]
    cases g s a with
    | none => rfl
    | some i => exact (reduceOption_outputs_cons out' (f s) i _).symm

/-- **The simulation rule**: if every guarded step is matched by one abstract step or none, then a
    guarded run is matched by the abstract run of its matching steps. -/
theorem Along.simulates {σ' ι' : Type*} {step' : σ' → ι' → σ'} {g : ι → Option ι'}
    {R : σ → σ' → Prop}
    (hstep : ∀ s t a, R s t → C s a → R (step s a) (run step' t (g a).toList)) {s : σ} {t : σ'}
    {as : List ι} (h : Along step C s as) (hR : R s t) :
    R (run step s as) (run step' t (as.filterMap g)) := by
  induction as generalizing s t with
  | nil => exact hR
  | cons a as ih =>
    have hrun := ih h.2 (hstep s t a hR h.1)
    cases hg : g a with
    | none =>
      rw [hg] at hrun
      rw [List.filterMap_cons_none hg]
      exact hrun
    | some i =>
      rw [hg] at hrun
      rw [List.filterMap_cons_some hg]
      exact hrun

/-- **The payout rule**: if a step pays from what is owed, and something as long as anything is
    owed, then as many steps as there are debts pay exactly these. -/
theorem run_pays {β : Type*} (out : σ → ι → List β) (owed : σ → List β) {I : σ → Prop} {a : ι}
    (hI : ∀ s, I s → I (step s a)) (hpay : ∀ s, I s → (out s a ++ owed (step s a)).Perm (owed s))
    (hprogress : ∀ s, I s → owed s ≠ [] → out s a ≠ []) {s : σ} (hs : I s) {n : ℕ}
    (hn : (owed s).length ≤ n) :
    I (run step s (List.replicate n a)) ∧ owed (run step s (List.replicate n a)) = [] ∧
      (outputs step out s (List.replicate n a)).flatten.Perm (owed s) := by
  induction n generalizing s with
  | zero =>
    have hnil : owed s = [] := List.length_eq_zero_iff.1 (Nat.le_zero.1 hn)
    refine ⟨hs, hnil, ?_⟩
    rw [hnil]
    exact .refl []
  | succ n ih =>
    have hlen := (hpay s hs).length_eq
    rw [List.length_append] at hlen
    have hn' : (owed (step s a)).length ≤ n := by
      by_cases hnil : owed s = []
      · rw [hnil, List.length_nil] at hlen
        omega
      · have hpos := List.length_pos_iff.2 (hprogress s hs hnil)
        omega
    obtain ⟨hend, hdone, hout⟩ := ih (hI s hs) hn'
    refine ⟨hend, hdone, ?_⟩
    rw [List.replicate_succ, outputs, List.flatten_cons]
    exact (hout.append_left (out s a)).trans (hpay s hs)

/-- **The exact rule**: if a guarded step from a good state leads to a good state exactly under
    a condition, then a guarded run stays good exactly if all its steps meet the condition. -/
theorem Along.good_iff {I J : σ → Prop} {H : σ → ι → Prop}
    (hJ : ∀ s a, J s → C s a → J (step s a))
    (hstep : ∀ s a, J s → C s a → I s → (I (step s a) ↔ H s a)) {s : σ} {as : List ι}
    (h : Along step C s as) (hs : J s) (hI : I s) :
    (∀ pre, pre <+: as → I (run step s pre)) ↔ Along step H s as := by
  induction as generalizing s with
  | nil =>
    refine iff_of_true (fun pre hpre => ?_) trivial
    rw [List.prefix_nil.1 hpre]
    exact hI
  | cons a as ih =>
    have hiff := hstep s a hs h.1 hI
    have htail := fun hI' => ih h.2 (hJ s a hs h.1) hI'
    constructor
    · intro hall
      have hI' : I (step s a) := hall [a] ⟨as, rfl⟩
      refine ⟨hiff.1 hI', (htail hI').1 fun pre hpre => ?_⟩
      exact hall (a :: pre) (List.cons_prefix_cons.2 ⟨rfl, hpre⟩)
    · rintro ⟨ha, has⟩ pre hpre
      rcases List.prefix_cons_iff.1 hpre with rfl | ⟨pre', rfl, hpre'⟩
      · exact hI
      · exact (htail (hiff.2 ha)).2 has pre' hpre'

/-- **The last write wins**: if every guarded step overwrites what is observed, a run
    leaves what its last step wrote. -/
theorem Along.last_write {β : Type*} {s : σ} {as : List ι} (has : Along step C s as)
    (obs : σ → β) (wrote : ι → β) (h : ∀ s a, C s a → obs (step s a) = wrote a) :
    obs (run step s as) = (as.map wrote).getLastD (obs s) := by
  induction as generalizing s with
  | nil => rfl
  | cons a as ih =>
    rw [run_cons, ih has.2, h s a has.1]
    cases as <;> rfl

theorem run_last_write {β : Type*} (obs : σ → β) (wrote : ι → Option β)
    (h : ∀ s a, obs (step s a) = (wrote a).getD (obs s)) (s : σ) (as : List ι) :
    obs (run step s as) = (as.filterMap wrote).getLastD (obs s) := by
  induction as using List.reverseRecOn with
  | nil => rfl
  | append_singleton as a ih =>
    rw [run_append, run_cons, run_nil, h, ih, List.filterMap_append]
    cases hw : wrote a with
    | none => simp [hw]
    | some b => simp [hw]

end Lib
