/-
  The views of a store: `Keys`, `Len`, `ForEach` and `Get`.

  The first three scan the shards for the entries that meet a condition (`scan`).  `ForEach` and
  `Get` take an entry until the time is after its expiry, `Keys` and `Len` only as long as it is
  before: the views agree except at an expiry (`views_agree_iff`).
-/
import DistCache.Proof.Calls

namespace DistCache.Store

variable {s s' : Store}

/-! ## Scans -/

/-- The keys of the entries that meet a condition, in the order of the loops. -/
def scan (ord : RangeOrder Key Entry) (s : Store) (p : Entry → Bool) : List Key :=
  s.shards.flatMap fun items => ((ord.list items).filter fun e => p e.2).map Sigma.fst

variable {ord : RangeOrder Key Entry} {p : Entry → Bool}

theorem mem_scan (h : s.Placed) {key : Key} :
    key ∈ s.scan ord p ↔ ∃ e, s.entry key = some e ∧ p e = true := by
  simp only [scan, List.mem_flatMap, List.mem_map, List.mem_filter]
  constructor
  · rintro ⟨items, hitems, ⟨key', e⟩, ⟨he, hp⟩, rfl⟩
    exact ⟨e, Placed.entry_of_mem s key' h hitems ((ord.mem_list items).1 he), hp⟩
  · rintro ⟨e, he, hp⟩
    exact ⟨s.getShard key, List.get_mem _ _, ⟨key, e⟩, ⟨(ord.mem_list _).2 he, hp⟩, rfl⟩

/-- A scan meets no key twice: a key is in one shard. -/
theorem scan_nodup (h : s.Placed) : (s.scan ord p).Nodup := by
  refine List.nodup_flatMap.2 ⟨fun items _ => ?_, List.pairwise_iff_getElem.2 ?_⟩
  · exact (ord.keys_nodup items).sublist (List.filter_sublist.map Sigma.fst)
  · intro i j hi hj hij key hki hkj
    have hplace : ∀ n (hn : n < s.shards.length),
        key ∈ ((ord.list s.shards[n]).filter fun e => p e.2).map Sigma.fst →
        s.shardIndex key = n := by
      intro n hn hk
      refine h n _ (List.getElem?_eq_getElem hn) key ((ord.mem_keys _).1 ?_)
      exact (List.filter_sublist.map Sigma.fst).subset hk
    have := hplace i hi hki
    have := hplace j hj hkj
    omega

theorem length_scan_congr (h : s.Placed) {ord' : RangeOrder Key Entry} {q : Entry → Bool}
    (hpq : ∀ key, key ∈ s.scan ord p ↔ key ∈ s.scan ord' q) :
    (s.scan ord p).length = (s.scan ord' q).length :=
  ((List.perm_ext_iff_of_nodup (scan_nodup h) (scan_nodup h)).2 hpq).length_eq

theorem filterMap_fst (l : List (Σ _ : Key, Entry)) (p : Entry → Bool) :
    (l.filterMap fun e => if p e.2 then some e.1 else none) =
      (l.filter fun e => p e.2).map Sigma.fst := by
  induction l with
  | nil => rfl
  | cons e l ih =>
    by_cases hp : p e.2
    · simp [hp, ih]
    · simp [hp, ih]

theorem keys_eq (now : Time) : s.keys ord now = s.scan ord (listed now) := by
  unfold keys scan
  refine List.flatMap_congr fun items _ => ?_
  exact filterMap_fst (ord.list items) (listed now)

theorem len_eq (now : Time) : s.len ord now = (s.scan ord (listed now)).length := by
  unfold len scan
  rw [List.length_flatMap]
  simp only [List.length_map, List.countP_eq_length_filter]

theorem visits_fst (now : Time) :
    (s.visits ord now).map Prod.fst = s.scan ord fun e => !e.isExpired now := by
  unfold visits scan
  rw [List.map_flatMap]
  refine List.flatMap_congr fun items _ => ?_
  rw [List.map_filterMap, ← filterMap_fst (ord.list items) fun e => !e.isExpired now]
  refine List.filterMap_congr fun e _ => ?_
  by_cases hx : e.2.isExpired now = true
  · simp [hx]
  · simp [hx]

section
variable {β : Type} (f : Key → Value → Duration → β) (ok : ℕ → Bool)

/-- A callback that collects and goes on for all entries. -/
theorem forEachLoop_push : ∀ (vs : List (Key × Value × Duration)) (acc : List β),
    (∀ n < vs.length, ok (acc.length + n) = true) →
    forEachLoop (fun acc key value ttl => (acc ++ [f key value ttl], ok acc.length)) vs acc =
      acc ++ vs.map fun v => f v.1 v.2.1 v.2.2
  | [], acc, _ => (List.append_nil acc).symm
  | (key, value, ttl) :: vs, acc, hok => by
    have hfirst : ok acc.length = true := hok 0 (Nat.succ_pos _)
    rw [forEachLoop, if_pos hfirst, forEachLoop_push vs _ fun n hn => ?_, List.append_assoc]
    · rfl
    · have hnext := hok (n + 1) (Nat.succ_lt_succ hn)
      rw [List.length_append, List.length_singleton, Nat.add_assoc, Nat.add_comm 1]
      exact hnext

/-- A callback that collects and stops at the entry number `n`. -/
theorem forEachLoop_stop : ∀ (n : ℕ) (vs : List (Key × Value × Duration)) (acc : List β),
    n < vs.length → (∀ m < n, ok (acc.length + m) = true) → ok (acc.length + n) = false →
    forEachLoop (fun acc key value ttl => (acc ++ [f key value ttl], ok acc.length)) vs acc =
      acc ++ (vs.take (n + 1)).map fun v => f v.1 v.2.1 v.2.2
  | 0, (key, value, ttl) :: vs, acc, _, _, hstop => by
    have hstop : ok acc.length = false := hstop
    rw [forEachLoop, if_neg (by rw [hstop]; exact Bool.false_ne_true)]
    rfl
  | n + 1, (key, value, ttl) :: vs, acc, hn, hok, hstop => by
    have hlen : ∀ m, (acc ++ [f key value ttl]).length + m = acc.length + (m + 1) := by
      intro m
      rw [List.length_append, List.length_singleton, Nat.add_assoc, Nat.add_comm 1]
    have hfirst : ok acc.length = true := hok 0 (Nat.succ_pos n)
    rw [forEachLoop, if_pos hfirst, forEachLoop_stop n vs _ (Nat.lt_of_succ_lt_succ hn)
      (fun m hm => hlen m ▸ hok (m + 1) (Nat.succ_lt_succ hm)) (hlen n ▸ hstop), List.append_assoc]
    rfl

end

/-- `ForEach` with a callback that collects the keys and always goes on. -/
theorem forEach_collect (now : Time) :
    s.forEach ord now (fun acc key _ _ => (acc ++ [key], true)) [] =
      s.scan ord fun e => !e.isExpired now := by
  rw [forEach, forEachLoop_push (fun key _ _ => key) (fun _ => true) _ _ fun _ _ => rfl,
    List.nil_append, ← visits_fst]

/-! ## The views -/

theorem get_isSome (s : Store) (now : Time) (key : Key) :
    (s.get now key).1.isSome = true ↔ ∃ e, s.entry key = some e ∧ (!e.isExpired now) = true := by
  rw [s.get_fst]
  rcases s.entry key with _ | e
  · simp
  · by_cases hx : e.isExpired now = true
    · simp [Option.filter, hx]
    · simp [Option.filter, hx]

/-- The two conditions differ at the expiry only. -/
theorem listed_iff (now : Time) (e : Entry) :
    listed now e = true ↔ (!e.isExpired now) = true ∧ e.expiresAt ≠ some now := by
  obtain ⟨value, _ | t⟩ := e
  · simp [listed, Entry.isExpired]
  · simp only [listed, Entry.isExpired, decide_eq_true_eq, Bool.not_eq_true', decide_eq_false_iff_not,
      ne_eq, Option.some.injEq]
    constructor
    · intro hlt
      exact ⟨not_lt.2 hlt.le, hlt.ne'⟩
    · rintro ⟨hle, hne⟩
      exact lt_of_le_of_ne (not_lt.1 hle) (Ne.symm hne)

/-- The entries that are listed are the hits of `Get`, unless an entry expires right now. -/
theorem scan_listed_iff (ord : RangeOrder Key Entry) (h : s.Placed) (t : Time) :
    (∀ key, key ∈ s.scan ord (listed t) ↔ (s.get t key).1.isSome = true) ↔
      ∀ key e, s.entry key = some e → e.expiresAt ≠ some t := by
  constructor
  · intro hsame key e he hexp
    -- at its expiry, the entry is a hit but is not listed
    have hhit : (s.get t key).1.isSome = true := by
      refine (get_isSome s t key).2 ⟨e, he, ?_⟩
      simp [Entry.isExpired, hexp]
    obtain ⟨e', he', hl⟩ := (mem_scan h).1 ((hsame key).2 hhit)
    rw [he] at he'
    obtain rfl := Option.some.inj he'
    exact ((listed_iff t e).1 hl).2 hexp
  · intro hno key
    rw [mem_scan h, get_isSome]
    constructor
    · rintro ⟨e, he, hl⟩
      exact ⟨e, he, ((listed_iff t e).1 hl).1⟩
    · rintro ⟨e, he, hx⟩
      exact ⟨e, he, (listed_iff t e).2 ⟨hx, hno key e he⟩⟩

/-- **When the views of a store agree.**  In every reachable store and at every instant `t`,
    `Keys` and `ForEach` list no key twice, `Len` is the number of the keys listed by `Keys`, and
    `ForEach` visits exactly the hits of `Get`.  All views show the same keys if and only if no
    entry expires exactly at `t`. -/
theorem views_agree_iff (s : Store) (hs : s.Reached) (t : Time)
    (ord ord' ord'' : RangeOrder Key Entry) :
    let keys := s.keys ord t
    let len := s.len ord' t
    let visited := s.forEach ord'' t (fun acc key _ _ => (acc ++ [key], true)) []
    keys.Nodup ∧ visited.Nodup ∧ len = keys.length ∧
      (∀ key, key ∈ visited ↔ (s.get t key).1.isSome = true) ∧
      ((∀ key, key ∈ keys ↔ (s.get t key).1.isSome = true) ∧ len = visited.length ↔
        ∀ key e, s.entry key = some e → e.expiresAt ≠ some t) := by
  intro keys len visited
  have h : s.Placed := hs.placed
  have hkeys : keys = s.scan ord (listed t) := keys_eq t
  have hvisited : visited = s.scan ord'' fun e => !e.isExpired t := forEach_collect t
  have hlen : len = keys.length := by
    rw [hkeys]
    refine (len_eq t).trans (length_scan_congr h fun key => ?_)
    rw [mem_scan h, mem_scan h]
  have hhits : ∀ key, key ∈ visited ↔ (s.get t key).1.isSome = true := by
    intro key
    rw [hvisited, mem_scan h, get_isSome]
  refine ⟨hkeys ▸ scan_nodup h, hvisited ▸ scan_nodup h, hlen, hhits, ?_⟩
  rw [← scan_listed_iff ord h t, ← hkeys]
  refine and_iff_left_of_imp fun hsame => hlen.trans ?_
  rw [hkeys, hvisited]
  refine length_scan_congr h fun key => ?_
  rw [← hkeys, ← hvisited, hsame, hhits]

/-- A store with one entry, which expires at `10`. -/
def tenStore : Store := (newWithShards 1).set 0 [1] [7] 10

theorem tenStore_reached : tenStore.Reached := ⟨1, [.set 0 [1] [7] 10], rfl⟩

theorem tenStore_entry (key : Key) :
    tenStore.entry key = if key = [1] then some ⟨[7], some 10⟩ else none := by
  rw [tenStore, entry_set, newWithShards_entry]
  rfl

/-- Before the expiry the views agree. -/
theorem views_agree_before :
    (tenStore.keys default 9).Nodup ∧
      ([1] ∈ tenStore.keys default 9 ↔ (tenStore.get 9 [1]).1.isSome = true) ∧
      tenStore.len default 9 =
        (tenStore.forEach default 9 (fun acc key _ _ => (acc ++ [key], true)) []).length := by
  have hno : ∀ key e, tenStore.entry key = some e → e.expiresAt ≠ some 9 := by
    intro key e he
    rw [tenStore_entry] at he
    split_ifs at he
    obtain rfl := Option.some.inj he
    decide
  obtain ⟨hnodup, -, -, -, hiff⟩ :=
    views_agree_iff tenStore tenStore_reached 9 default default default
  exact ⟨hnodup, (hiff.2 hno).1 [1], (hiff.2 hno).2⟩

/-- At the expiry, `Get` and `ForEach` still find the key; `Keys` and `Len` do not. -/
theorem views_differ_at_expiry :
    (tenStore.get 10 [1]).1 = some [7] ∧
      [1] ∈ tenStore.forEach default 10 (fun acc key _ _ => (acc ++ [key], true)) [] ∧
      [1] ∉ tenStore.keys default 10 ∧ tenStore.len default 10 = 0 := by
  have h := tenStore_reached.placed
  have hnone : ∀ key, key ∉ tenStore.scan default (listed 10) := by
    intro key hkey
    obtain ⟨e, he, hl⟩ := (mem_scan h).1 hkey
    rw [tenStore_entry] at he
    split_ifs at he
    obtain rfl := Option.some.inj he
    exact absurd hl (by decide)
  refine ⟨by decide, ?_, ?_, ?_⟩
  · rw [forEach_collect, mem_scan h]
    exact ⟨⟨[7], some 10⟩, tenStore_entry [1], by decide⟩
  · rw [keys_eq]
    exact hnone [1]
  · rw [len_eq, List.eq_nil_iff_forall_not_mem.2 hnone]
    rfl

end DistCache.Store
