/-
  Points on a circle of 64-bit positions, met clockwise from a given position.

  * `search` is the binary search of Go's `sort.Search`; on a monotone predicate
    it returns the least index at which the predicate holds (`search_spec`);
  * `cw h p` is the distance from `h` to `p` walking clockwise, with wrap-around;
  * `rotate_firstAt`: a list sorted by position, rotated to the first element at
    or after `h` (to its head if there is none), lists what lies at or after `h`,
    then the rest; it is sorted by the clockwise distance from `h`
    (`rotate_pairwise_cw`), and commutes with filters (`rotate_firstAt_filter`);
  * `distinct` keeps the first occurrence of every element of a list, in their order
    (`distinct_pairwise_idxOf`);
  * `getD_find?_eq_iff`: two searches for the first element that meets a condition.
-/
import Mathlib

namespace Lib

/-! ## Binary search -/

/-- The loop of `sort.Search` on the interval `[i, j)`. -/
def searchLoop (f : ℕ → Bool) : ℕ → ℕ → ℕ → ℕ
  | 0, i, _ => i
  | fuel + 1, i, j =>
    if i < j then
      if f ((i + j) / 2) then searchLoop f fuel i ((i + j) / 2)
      else searchLoop f fuel ((i + j) / 2 + 1) j
    else i

/-- `sort.Search(n, f)`. -/
def search (n : ℕ) (f : ℕ → Bool) : ℕ := searchLoop f n 0 n

/-- `f` stays true once it is true. -/
def Upward (f : ℕ → Bool) (n : ℕ) : Prop := ∀ i j, i ≤ j → j < n → f i = true → f j = true

theorem searchLoop_spec {f : ℕ → Bool} {n : ℕ} (hf : Upward f n) :
    ∀ (fuel i j : ℕ), i ≤ j → j ≤ n → j - i ≤ fuel → (∀ k < i, f k = false) →
      (j < n → f j = true) →
      searchLoop f fuel i j ≤ n ∧ (∀ k < searchLoop f fuel i j, f k = false) ∧
        (searchLoop f fuel i j < n → f (searchLoop f fuel i j) = true)
  | 0, i, j, hij, hjn, hfuel, hlo, hhi => by
    have : i = j := by omega
    subst this
    exact ⟨hjn, hlo, hhi⟩
  | fuel + 1, i, j, hij, hjn, hfuel, hlo, hhi => by
    unfold searchLoop
    split_ifs with hlt hm
    · exact searchLoop_spec hf fuel i _ (by omega) (by omega) (by omega) hlo fun _ => hm
    · refine searchLoop_spec hf fuel _ j (by omega) hjn (by omega) (fun k hk => ?_) hhi
      -- below the midpoint the predicate is false, or it would be true there
      by_contra hk'
      exact hm (hf k _ (by omega) (by omega) (by simpa using hk'))
    · have : i = j := by omega
      subst this
      exact ⟨hjn, hlo, hhi⟩

/-- `sort.Search` returns the least index at which a monotone predicate holds,
    and `n` if it holds nowhere. -/
theorem search_spec {f : ℕ → Bool} {n : ℕ} (hf : Upward f n) :
    search n f ≤ n ∧ (∀ k < search n f, f k = false) ∧
      (search n f < n → f (search n f) = true) :=
  searchLoop_spec hf n 0 n (Nat.zero_le n) le_rfl (by omega) (by simp) (by simp)

/-! ## Clockwise distance -/

/-- The clockwise distance from `h` to `p`. -/
def cw (h p : UInt64) : ℕ := (p - h).toNat

theorem cw_of_le {h p : UInt64} (hp : h ≤ p) : cw h p = p.toNat - h.toNat := by
  have h1 := UInt64.le_iff_toNat_le.1 hp
  have h2 := p.toNat_lt
  rw [cw, UInt64.toNat_sub]
  omega

theorem cw_of_lt {h p : UInt64} (hp : p < h) : cw h p = 2 ^ 64 - h.toNat + p.toNat := by
  have h1 := UInt64.lt_iff_toNat_lt.1 hp
  have h2 := h.toNat_lt
  rw [cw, UInt64.toNat_sub]
  omega

theorem cw_injective (h : UInt64) : Function.Injective (cw h) := by
  intro p q hpq
  have hs : p - h = q - h := UInt64.toNat_inj.1 hpq
  calc p = p - h + h := (UInt64.sub_add_cancel p h).symm
    _ = q - h + h := by rw [hs]
    _ = q := UInt64.sub_add_cancel q h

section
variable {α : Type*} (pos : α → UInt64) (h : UInt64)

/-- The elements at or after `h`, then those before it, are met clockwise. -/
theorem pairwise_cw_append {l₁ l₂ : List α} (hp₁ : l₁.Pairwise fun a b => pos a ≤ pos b)
    (hp₂ : l₂.Pairwise fun a b => pos a ≤ pos b) (h₁ : ∀ a ∈ l₁, pos a < h)
    (h₂ : ∀ a ∈ l₂, h ≤ pos a) :
    (l₂ ++ l₁).Pairwise fun a b => cw h (pos a) ≤ cw h (pos b) := by
  refine List.pairwise_append.2 ⟨?_, ?_, ?_⟩
  · refine hp₂.imp_of_mem fun {a b} ha hb hab => ?_
    rw [cw_of_le (h₂ a ha), cw_of_le (h₂ b hb)]
    have := UInt64.le_iff_toNat_le.1 hab
    omega
  · refine hp₁.imp_of_mem fun {a b} ha hb hab => ?_
    rw [cw_of_lt (h₁ a ha), cw_of_lt (h₁ b hb)]
    have := UInt64.le_iff_toNat_le.1 hab
    omega
  · intro a ha b hb
    rw [cw_of_le (h₂ a ha), cw_of_lt (h₁ b hb)]
    have := (pos a).toNat_lt
    have := h.toNat_lt
    omega

/-- The `i`-th element of `l` lies at or after `h`. -/
def atOrAfter (l : List α) (i : ℕ) : Bool := (l[i]?.map fun a => decide (h ≤ pos a)).getD false

theorem atOrAfter_eq {l : List α} {i : ℕ} (hi : i < l.length) :
    atOrAfter pos h l i = decide (h ≤ pos l[i]) := by
  simp [atOrAfter, hi]

/-- The index of the first element at or after `h`, and `0` if there is none. -/
def firstAt (l : List α) : ℕ :=
  let idx := search l.length (atOrAfter pos h l)
  if l.length ≤ idx then 0 else idx

theorem atOrAfter_upward {l : List α} (hs : l.Pairwise fun a b => pos a ≤ pos b) :
    Upward (atOrAfter pos h l) l.length := by
  intro i j hij hj hi
  rw [atOrAfter_eq pos h (by omega)] at hi
  rw [atOrAfter_eq pos h hj]
  simp only [decide_eq_true_eq] at hi ⊢
  rcases Nat.lt_or_eq_of_le hij with hlt | rfl
  · exact UInt64.le_trans hi (List.pairwise_iff_getElem.1 hs i j (by omega) hj hlt)
  · exact hi

/-- Before the index found by the search, and from it on. -/
theorem search_atOrAfter {l : List α} (hs : l.Pairwise fun a b => pos a ≤ pos b) :
    (∀ a ∈ l.take (search l.length (atOrAfter pos h l)), pos a < h) ∧
      ∀ a ∈ l.drop (search l.length (atOrAfter pos h l)), h ≤ pos a := by
  have hup := atOrAfter_upward pos h hs
  obtain ⟨hle, hlow, hhigh⟩ := search_spec hup
  constructor
  · intro a ha
    obtain ⟨i, hi, rfl⟩ := List.getElem_of_mem ha
    simp only [List.length_take, lt_min_iff] at hi
    have := hlow i hi.1
    rw [atOrAfter_eq pos h hi.2] at this
    simpa using this
  · intro a ha
    obtain ⟨i, hi, rfl⟩ := List.getElem_of_mem ha
    rw [List.length_drop] at hi
    have h1 := hup _ (search l.length (atOrAfter pos h l) + i) (by omega) (by omega)
      (hhigh (by omega))
    rw [atOrAfter_eq pos h (by omega)] at h1
    simpa using h1

/-- **A sorted list rotated to the first element at or after `h`** lists the elements
    at or after `h`, then those before it. -/
theorem rotate_firstAt {l : List α} (hs : l.Pairwise fun a b => pos a ≤ pos b) :
    l.rotate (firstAt pos h l) =
      l.filter (fun a => h ≤ pos a) ++ l.filter (fun a => pos a < h) := by
  obtain ⟨hlow, hhigh⟩ := search_atOrAfter pos h hs
  obtain ⟨hle, -, -⟩ := search_spec (atOrAfter_upward pos h hs)
  generalize hi : search l.length (atOrAfter pos h l) = i at hlow hhigh hle
  have h₁ : l.filter (fun a => h ≤ pos a) = l.drop i := by
    conv_lhs => rw [← List.take_append_drop i l, List.filter_append]
    rw [List.filter_eq_nil_iff.2, List.filter_eq_self.2, List.nil_append]
    · intro a ha; simpa using hhigh a ha
    · intro a ha; simpa using hlow a ha
  have h₂ : l.filter (fun a => pos a < h) = l.take i := by
    conv_lhs => rw [← List.take_append_drop i l, List.filter_append]
    rw [List.filter_eq_self.2, List.filter_eq_nil_iff.2, List.append_nil]
    · intro a ha; simpa using hhigh a ha
    · intro a ha; simpa using hlow a ha
  rw [h₁, h₂]
  simp only [firstAt, hi]
  split_ifs with hn
  · rw [List.drop_of_length_le hn, List.take_of_length_le hn, List.rotate_zero, List.nil_append]
  · exact List.rotate_eq_drop_append_take hle

/-- Such a list is met clockwise from `h`. -/
theorem rotate_pairwise_cw {l : List α} (hs : l.Pairwise fun a b => pos a ≤ pos b) :
    (l.rotate (firstAt pos h l)).Pairwise fun a b => cw h (pos a) ≤ cw h (pos b) := by
  rw [rotate_firstAt pos h hs]
  refine pairwise_cw_append pos h (hs.filter _) (hs.filter _) ?_ ?_
  · intro a ha; simpa using (List.mem_filter.1 ha).2
  · intro a ha; simpa using (List.mem_filter.1 ha).2

/-- Dropping elements of a sorted list drops them from its rotation. -/
theorem rotate_firstAt_filter {l : List α} (hs : l.Pairwise fun a b => pos a ≤ pos b)
    (p : α → Bool) :
    (l.filter p).rotate (firstAt pos h (l.filter p)) = (l.rotate (firstAt pos h l)).filter p := by
  rw [rotate_firstAt pos h (hs.filter p), rotate_firstAt pos h hs, List.filter_append]
  congr 1 <;> exact List.filter_comm ..

end

/-! ## First occurrences -/

section
variable {α : Type*} [DecidableEq α]

/-- The first occurrences in `l` of the elements outside `seen`. -/
def distinct (seen : Finset α) : List α → List α
  | [] => []
  | a :: l => if a ∈ seen then distinct seen l else a :: distinct (insert a seen) l

theorem mem_distinct {a : α} : ∀ {l : List α} {seen : Finset α},
    a ∈ distinct seen l ↔ a ∈ l ∧ a ∉ seen
  | [], seen => by simp [distinct]
  | b :: l, seen => by
    unfold distinct
    split_ifs with hb
    · rw [mem_distinct, List.mem_cons]
      constructor
      · rintro ⟨h1, h2⟩; exact ⟨Or.inr h1, h2⟩
      · rintro ⟨rfl | h1, h2⟩
        · exact absurd hb h2
        · exact ⟨h1, h2⟩
    · rw [List.mem_cons, mem_distinct, List.mem_cons, Finset.mem_insert]
      by_cases hab : a = b
      · subst hab; simp [hb]
      · simp [hab]

theorem distinct_nodup : ∀ (l : List α) (seen : Finset α), (distinct seen l).Nodup
  | [], _ => List.nodup_nil
  | a :: l, seen => by
    unfold distinct
    split_ifs
    · exact distinct_nodup l seen
    · refine List.nodup_cons.2 ⟨fun h => ?_, distinct_nodup l _⟩
      exact (mem_distinct.1 h).2 (Finset.mem_insert_self a seen)

/-- What was seen outside the list does not matter. -/
theorem distinct_insert_of_notMem {a : α} : ∀ {l : List α} {seen : Finset α}, a ∉ l →
    distinct (insert a seen) l = distinct seen l
  | [], _, _ => rfl
  | b :: l, seen, h => by
    obtain ⟨hab, hl⟩ := not_or.1 (mt List.mem_cons.2 h)
    have hmem : b ∈ insert a seen ↔ b ∈ seen := by simp [Ne.symm hab]
    simp only [distinct, hmem, Finset.insert_comm b a]
    rw [distinct_insert_of_notMem hl, distinct_insert_of_notMem hl]

theorem filter_distinct (p : α → Bool) : ∀ (l : List α) (seen : Finset α),
    (distinct seen l).filter p = distinct seen (l.filter p)
  | [], _ => rfl
  | a :: l, seen => by
    by_cases ha : a ∈ seen
    · have hd : distinct seen (a :: l) = distinct seen l := by simp [distinct, ha]
      rw [hd, filter_distinct p l seen, List.filter_cons]
      split_ifs
      · simp [distinct, ha]
      · rfl
    · have hd : distinct seen (a :: l) = a :: distinct (insert a seen) l := by simp [distinct, ha]
      rw [hd, List.filter_cons, List.filter_cons, filter_distinct p l]
      split_ifs with hp
      · simp [distinct, ha]
      · refine distinct_insert_of_notMem fun h => ?_
        exact hp (List.mem_filter.1 h).2

/-- The first element with a property is the first occurrence of it. -/
theorem find?_distinct (p : α → Bool) : ∀ (l : List α) (seen : Finset α), (∀ a ∈ seen, ¬ p a) →
    (distinct seen l).find? p = l.find? p
  | [], _, _ => rfl
  | a :: l, seen, h => by
    by_cases ha : a ∈ seen
    · have hd : distinct seen (a :: l) = distinct seen l := by simp [distinct, ha]
      rw [hd, find?_distinct p l seen h, List.find?_cons_of_neg (h a ha)]
    · have hd : distinct seen (a :: l) = a :: distinct (insert a seen) l := by simp [distinct, ha]
      rw [hd]
      by_cases hp : p a
      · rw [List.find?_cons_of_pos hp, List.find?_cons_of_pos hp]
      · rw [List.find?_cons_of_neg hp, List.find?_cons_of_neg hp]
        refine find?_distinct p l _ fun b hb => ?_
        rcases Finset.mem_insert.1 hb with rfl | hb
        · exact hp
        · exact h b hb

/-- Without an element from the start on, or afterwards. -/
theorem distinct_insert (a : α) : ∀ (l : List α) (seen : Finset α),
    distinct (insert a seen) l = (distinct seen l).filter fun b => b ≠ a
  | [], _ => rfl
  | b :: l, seen => by
    by_cases hb : b ∈ seen
    · simp only [distinct, hb, Finset.mem_insert_of_mem hb, if_true]
      exact distinct_insert a l seen
    · by_cases hba : b = a
      · subst hba
        simp only [distinct, hb, Finset.mem_insert_self, if_true, if_false]
        rw [List.filter_cons_of_neg (by simp), eq_comm, List.filter_eq_self]
        intro c hc
        have hne : c ≠ b := by
          rintro rfl
          exact (mem_distinct.1 hc).2 (Finset.mem_insert_self c seen)
        simpa using hne
      · simp only [distinct, hb, Finset.mem_insert, hba, or_self, if_false, Finset.insert_comm b a]
        rw [distinct_insert a l (insert b seen), List.filter_cons_of_pos (by simpa using hba)]

/-- First occurrences are listed in the order in which they occur. -/
theorem distinct_pairwise_idxOf [BEq α] [LawfulBEq α] : ∀ (l : List α) (seen : Finset α),
    (distinct seen l).Pairwise fun a b => l.idxOf a < l.idxOf b
  | [], _ => List.Pairwise.nil
  | a :: l, seen => by
    have hlift : ∀ s : Finset α, a ∈ s →
        (distinct s l).Pairwise fun b c => (a :: l).idxOf b < (a :: l).idxOf c := by
      intro s hs
      refine (distinct_pairwise_idxOf l s).imp_of_mem fun {b c} hb hc hbc => ?_
      have hne : ∀ d ∈ distinct s l, a ≠ d := by
        rintro d hd rfl
        exact (mem_distinct.1 hd).2 hs
      rw [List.idxOf_cons_ne l (hne b hb), List.idxOf_cons_ne l (hne c hc)]
      exact Nat.succ_lt_succ hbc
    unfold distinct
    split_ifs with ha
    · exact hlift seen ha
    · refine List.pairwise_cons.2 ⟨fun b hb => ?_, hlift _ (Finset.mem_insert_self a seen)⟩
      have hne : a ≠ b := by
        rintro rfl
        exact (mem_distinct.1 hb).2 (Finset.mem_insert_self a seen)
      rw [List.idxOf_cons_self, List.idxOf_cons_ne l hne]
      exact Nat.succ_pos _

omit [DecidableEq α] in
/-- When the search for the stronger of two conditions, with the default `p`, leads to the first
    element that meets the weaker one. -/
theorem getD_find?_eq_iff {l : List α} {P Q : α → Bool} {d p : α} (hd : l.find? Q = some d)
    (hPQ : ∀ a ∈ l, P a = true → Q a = true) :
    (l.find? P).getD p = d ↔ P d = true ∨ d = p ∧ ∀ a ∈ l, P a = false := by
  obtain ⟨-, before, after, hl, hbefore⟩ := List.find?_eq_some_iff_append.1 hd
  have hmem : ∀ a ∈ before, a ∈ l := fun a ha => hl ▸ List.mem_append_left _ ha
  constructor
  · intro hres
    cases hf : l.find? P with
    | some a =>
      rw [hf, Option.getD_some] at hres
      exact Or.inl (hres ▸ List.find?_some hf)
    | none =>
      rw [hf, Option.getD_none] at hres
      exact Or.inr ⟨hres.symm, fun a ha => by simpa using List.find?_eq_none.1 hf a ha⟩
  · rintro (hP | ⟨rfl, hall⟩)
    · have hf : l.find? P = some d := by
        refine List.find?_eq_some_iff_append.2 ⟨hP, before, after, hl, fun a ha => ?_⟩
        by_contra hPa
        exact absurd (hPQ a (hmem a ha) (by simpa using hPa)) (by simpa using hbefore a ha)
      rw [hf, Option.getD_some]
    · have hf : l.find? P = none := List.find?_eq_none.2 fun a ha => by simp [hall a ha]
      rw [hf, Option.getD_none]

theorem head?_distinct_empty (l : List α) : (distinct ∅ l).head? = l.head? := by
  cases l <;> simp [distinct]

end

end Lib
