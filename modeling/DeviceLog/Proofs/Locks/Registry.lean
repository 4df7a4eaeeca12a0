import DeviceLog.Locks.Registry
import DeviceLog.Proofs.Lookup

/-! # What the steps of a caller do to the registry

* `Registry.users` and `Registry.holder?` read a lock by its number, and `Registry.tabled` counts the
  entries of the table that it has.
* `Registry.Tidy`: no key and no number is there twice, and all numbers are old ones.
* Every step keeps the balance of users and entries. Joining adds a user, letting go takes one away,
  and the other steps change neither: `users_join`, `users_retire`, `users_letGo`.
-/

namespace DeviceLog.Registry

variable {κ : Type} {r : Registry κ} {n m : Nat}

def users (r : Registry κ) (n : Nat) : Nat := ((r.lock? n).map Lock.users).getD 0

def holder? (r : Registry κ) (n : Nat) : Option Nat := (r.lock? n).bind Lock.holder

/-- How many keys have a lock, of one number. -/
def tabled (r : Registry κ) (n : Nat) : Nat := r.table.countP fun e => e.2 = n

/-- No key has two locks, no number is that of two locks, and new numbers are new. -/
structure Tidy (r : Registry κ) : Prop where
  keys : (r.table.map Prod.fst).Nodup
  numbers : (r.locks.map Prod.fst).Nodup
  table_lt : ∀ e ∈ r.table, e.2 < r.next
  locks_lt : ∀ e ∈ r.locks, e.1 < r.next

theorem tidy_empty : (Registry.empty : Registry κ).Tidy :=
  ⟨List.nodup_nil, List.nodup_nil, nofun, nofun⟩

/-! ## Looking up -/

theorem lock?_update (r : Registry κ) (n m : Nat) (f : Lock → Lock) :
    (r.update n f).lock? m = if m = n then (r.lock? m).map f else r.lock? m := by
  unfold update lock?
  simp only
  induction r.locks with
  | nil => simp
  | cons e rest ih =>
    obtain ⟨k, l⟩ := e
    rw [List.map_cons]
    by_cases hk : k = n
    · subst hk
      by_cases hm : m = k <;> simp_all [lookup_cons_eq]
    · by_cases hm : m = n
      · have hne : m ≠ k := fun heq => hk (heq.symm.trans hm)
        simp_all [lookup_cons_eq]
      · simp_all [lookup_cons_eq]

theorem tidy_update (h : r.Tidy) (n : Nat) (f : Lock → Lock) : (r.update n f).Tidy := by
  have hnumbers : (r.update n f).locks.map Prod.fst = r.locks.map Prod.fst := by
    simp only [update]
    rw [List.map_map]
    refine List.map_congr_left fun e _ => ?_
    show (if e.1 = n then (n, f e.2) else e).1 = e.1
    split
    · rename_i heq
      exact heq.symm
    · rfl
  refine ⟨h.keys, hnumbers ▸ h.numbers, h.table_lt, fun e he => ?_⟩
  have hmem := List.mem_map_of_mem (f := Prod.fst) he
  rw [hnumbers] at hmem
  obtain ⟨old, hold, heq⟩ := List.mem_map.1 hmem
  exact heq ▸ h.locks_lt old hold

theorem Tidy.lock?_next (h : r.Tidy) : r.lock? r.next = none := by
  cases hlock : r.lock? r.next with
  | none => rfl
  | some l => exact absurd (h.locks_lt _ (mem_of_lookup hlock)) (Nat.lt_irrefl _)

theorem exists_lock_of_users (h : 0 < r.users n) : ∃ l, r.lock? n = some l := by
  simp only [users] at h
  cases hlock : r.lock? n with
  | none => simp [hlock] at h
  | some l => exact ⟨l, rfl⟩

theorem tabled_pos [DecidableEq κ] {key : κ} (h : r.table.lookup key = some n) : 0 < r.tabled n := by
  simp only [tabled]
  exact List.countP_pos_iff.2 ⟨(key, n), mem_of_lookup h, decide_eq_true rfl⟩

theorem users_update {f : Lock → Lock} (hf : ∀ l, (f l).users = l.users) (r : Registry κ) (n m : Nat) :
    (r.update n f).users m = r.users m := by
  simp only [users]
  rw [lock?_update]
  split
  · rw [Option.map_map]
    exact congrArg (fun g => (Option.map g (r.lock? m)).getD 0) (funext hf)
  · rfl

/-- With a user less in a lock, that lock has a user less. -/
theorem users_less (r : Registry κ) (n m : Nat) :
    (r.update n fun l => { l with users := l.users - 1 }).users m
      = r.users m - if m = n then 1 else 0 := by
  simp only [users]
  rw [lock?_update]
  by_cases hm : m = n
  · rw [if_pos hm, if_pos hm]
    cases r.lock? m with
    | none => rfl
    | some l => rfl
  · rw [if_neg hm, if_neg hm]
    rfl

theorem holder?_update {f : Lock → Lock} (hf : ∀ l, (f l).holder = l.holder) (r : Registry κ)
    (n m : Nat) : (r.update n f).holder? m = r.holder? m := by
  simp only [holder?]
  rw [lock?_update]
  split
  · cases r.lock? m with
    | none => rfl
    | some l => exact hf l
  · rfl

/-! ## Entering and leaving -/

theorem exists_enter (caller : Nat) (hused : 0 < r.users n) (hfree : r.holder? n = none) :
    ∃ r', r.enter? n caller = some r' := by
  obtain ⟨l, hl⟩ := exists_lock_of_users hused
  have hholder : l.holder = none := by
    simpa [holder?, hl] using hfree
  simp only [enter?, hl, if_pos hholder]
  exact ⟨_, rfl⟩

/-- Who enters a lock is alone inside, and nothing else changes. -/
theorem enter_spec {r' : Registry κ} {caller : Nat} (h : r.enter? n caller = some r') :
    r.holder? n = none ∧ r'.table = r.table ∧ (r.Tidy → r'.Tidy) ∧ (∀ m, r'.users m = r.users m)
      ∧ ∀ m, r'.holder? m = if m = n then some caller else r.holder? m := by
  simp only [enter?] at h
  split at h
  · -- Only a lock that is there and that nobody is inside of can be entered.
    rename_i l hl
    split at h
    · rename_i hfree
      cases h
      refine ⟨by simp [holder?, hl, hfree], rfl, fun htidy => tidy_update htidy n _,
        fun m => users_update (by intro l; rfl) r n m, fun m => ?_⟩
      simp only [holder?]
      rw [lock?_update]
      by_cases hm : m = n
      · simp [hm, hl]
      · simp [hm]
    · cases h
  · cases h

theorem holder?_leave (r : Registry κ) (n : Nat) (panicked : Bool) (m : Nat) :
    (r.leave n panicked).holder? m = if m = n then none else r.holder? m := by
  simp only [leave, holder?]
  rw [lock?_update]
  by_cases hm : m = n
  · simp [hm]
  · simp [hm]

theorem users_leave (r : Registry κ) (n : Nat) (panicked : Bool) (m : Nat) :
    (r.leave n panicked).users m = r.users m :=
  users_update (by intro l; rfl) r n m

theorem tidy_leave (h : r.Tidy) (n : Nat) (panicked : Bool) : (r.leave n panicked).Tidy :=
  tidy_update h n _

/-! ## Letting go -/

theorem tidy_letGo (h : r.Tidy) (n : Nat) : (r.letGo n).Tidy := by
  obtain ⟨hkeys, hnumbers, htable, hlocks⟩ :=
    tidy_update h n fun l => { l with users := l.users - 1 }
  exact ⟨hkeys, hnumbers.sublist (List.filter_sublist.map _), htable,
    fun e he => hlocks e (List.mem_of_mem_filter he)⟩

/-- A lock without users is gone; others are as they were, with one user less. -/
theorem lock?_letGo (h : r.Tidy) (n m : Nat) :
    (r.letGo n).lock? m
      = (if m = n then (r.lock? m).map fun l => { l with users := l.users - 1 } else r.lock? m).filter
        fun l => l.users ≠ 0 := by
  rw [← lock?_update]
  exact lookup_filter _ (tidy_update h n _).numbers m

theorem users_letGo (h : r.Tidy) (n m : Nat) :
    (r.letGo n).users m = r.users m - if m = n then 1 else 0 := by
  simp only [users]
  rw [lock?_letGo h]
  by_cases hm : m = n
  · rw [if_pos hm, if_pos hm]
    -- With no users left the lock is gone, which is as good as having none.
    cases r.lock? m with
    | none => rfl
    | some l => by_cases hl : l.users - 1 = 0 <;> simp [Option.filter, hl]
  · rw [if_neg hm, if_neg hm]
    cases r.lock? m with
    | none => rfl
    | some l => by_cases hl : l.users = 0 <;> simp [Option.filter, hl]

theorem holder?_letGo (h : r.Tidy) (n m : Nat) :
    (r.letGo n).holder? m = if (r.letGo n).users m = 0 then none else r.holder? m := by
  unfold holder? users
  rw [lock?_letGo h]
  cases r.lock? m with
  | none => simp
  | some l =>
    by_cases hm : m = n
    · by_cases hl : l.users - 1 = 0 <;> simp [Option.filter, hm, hl]
    · by_cases hl : l.users = 0 <;> simp [Option.filter, hm, hl]

variable [DecidableEq κ] {key : κ}

/-! ## Joining -/

theorem join_of_some (h : r.table.lookup key = some n) :
    r.join key = (n, r.update n fun l => { l with users := l.users + 1 }) := by
  simp only [join, h]

theorem join_of_none (h : r.table.lookup key = none) :
    r.join key
      = (r.next, ⟨(key, r.next) :: r.table, (r.next, { users := 2 }) :: r.locks, r.next + 1⟩) := by
  simp only [join, h]

theorem lookup_join (r : Registry κ) (key : κ) :
    (r.join key).2.table.lookup key = some (r.join key).1 := by
  cases h : r.table.lookup key with
  | some n =>
    rw [join_of_some h]
    exact h
  | none =>
    rw [join_of_none h]
    exact List.lookup_cons_self

theorem lookup_join_of_some {other : κ} (h : r.table.lookup other = some m) :
    (r.join key).2.table.lookup other = some m := by
  cases hkey : r.table.lookup key with
  | some n =>
    rw [join_of_some hkey]
    exact h
  | none =>
    rw [join_of_none hkey]
    have hne : other ≠ key := by
      rintro rfl
      rw [h] at hkey
      cases hkey
    rw [lookup_cons_eq, if_neg hne, h]

theorem tidy_join (h : r.Tidy) (key : κ) : (r.join key).2.Tidy := by
  cases hkey : r.table.lookup key with
  | some n =>
    rw [join_of_some hkey]
    dsimp only
    exact tidy_update h n _
  | none =>
    rw [join_of_none hkey]
    refine ⟨?_, ?_, fun e he => ?_, fun e he => ?_⟩
    · -- The key had no lock, and the number is greater than all that there are.
      refine List.nodup_cons.2 ⟨fun hmem => ?_, h.keys⟩
      obtain ⟨⟨other, n⟩, he, rfl⟩ := List.mem_map.1 hmem
      rw [lookup_of_mem h.keys he] at hkey
      cases hkey
    · refine List.nodup_cons.2 ⟨fun hmem => ?_, h.numbers⟩
      obtain ⟨e, he, heq⟩ := List.mem_map.1 hmem
      exact Nat.ne_of_lt (h.locks_lt e he) heq
    · cases he with
      | head => exact Nat.lt_succ_self _
      | tail _ hmem => exact Nat.lt_succ_of_lt (h.table_lt e hmem)
    · cases he with
      | head => exact Nat.lt_succ_self _
      | tail _ hmem => exact Nat.lt_succ_of_lt (h.locks_lt e hmem)

/-- Joining adds a user. A new lock has the table among its users. -/
theorem users_join (h : r.Tidy) (hlisted : ∀ m, r.tabled m ≤ r.users m) (key : κ) (m : Nat) :
    (r.join key).2.users m + r.tabled m
      = r.users m + (r.join key).2.tabled m + if m = (r.join key).1 then 1 else 0 := by
  cases hkey : r.table.lookup key with
  | some n =>
    obtain ⟨l, hl⟩ := exists_lock_of_users (Nat.lt_of_lt_of_le (tabled_pos hkey) (hlisted n))
    rw [join_of_some hkey]
    simp only [tabled, users, lock?_update]
    by_cases hm : m = n
    · subst hm
      simp [update, hl]
      omega
    · simp [update, hm]
  | none =>
    rw [join_of_none hkey]
    simp only [tabled, List.countP_cons]
    by_cases hm : m = r.next
    · subst hm
      -- The new lock has two users, and one of them is the table.
      have hnone := h.lock?_next
      simp only [users, hnone]
      simp [lock?]
      omega
    · have hother : ¬r.next = m := fun heq => hm heq.symm
      simp [users, lock?, lookup_cons_eq, hm, hother]

theorem holder?_join (h : r.Tidy) (key : κ) (m : Nat) :
    (r.join key).2.holder? m = r.holder? m := by
  cases hkey : r.table.lookup key with
  | some n =>
    rw [join_of_some hkey]
    apply holder?_update
    intro l
    rfl
  | none =>
    rw [join_of_none hkey]
    simp only [holder?]
    by_cases hm : m = r.next
    · subst hm
      rw [h.lock?_next]
      simp [lock?]
    · simp [lock?, lookup_cons_eq, hm]

/-! ## Retiring -/

theorem retire_of_two (h : r.users n = 2) (key : κ) :
    r.retire key n = { r.update n fun l => { l with users := l.users - 1 } with
      table := r.table.filter fun e => e.1 ≠ key } := by
  obtain ⟨l, hl⟩ := exists_lock_of_users (r := r) (n := n) (by omega)
  have htwo : l.users = 2 := by
    simpa [users, hl] using h
  simp only [retire, hl, Option.any_some, htwo, decide_true, if_true]
  rfl

theorem retire_of_ne_two (h : r.users n ≠ 2) (key : κ) : r.retire key n = r := by
  simp only [retire]
  cases hl : r.lock? n with
  | none => simp
  | some l =>
    have htwo : l.users ≠ 2 := by
      simpa [users, hl] using h
    simp [htwo]

theorem tidy_retire (h : r.Tidy) (key : κ) (n : Nat) : (r.retire key n).Tidy := by
  by_cases htwo : r.users n = 2
  · rw [retire_of_two htwo]
    obtain ⟨-, hnumbers, -, hlocks⟩ := tidy_update h n fun l => { l with users := l.users - 1 }
    exact ⟨h.keys.sublist (List.filter_sublist.map _), hnumbers,
      fun e he => h.table_lt e (List.mem_of_mem_filter he), hlocks⟩
  · rw [retire_of_ne_two htwo]
    exact h

/-- Without a key the table has one entry less of its number. -/
theorem countP_filter_ne {table : List (κ × Nat)} (hnodup : (table.map Prod.fst).Nodup)
    (h : table.lookup key = some n) (m : Nat) :
    (table.filter fun e => e.1 ≠ key).countP (fun e => e.2 = m) + (if m = n then 1 else 0)
      = table.countP fun e => e.2 = m := by
  induction table with
  | nil => cases h
  | cons e rest ih =>
    obtain ⟨other, k⟩ := e
    rw [List.map_cons, List.nodup_cons] at hnodup
    rw [lookup_cons_eq] at h
    by_cases hother : key = other
    · -- The entry is found first, and no other has its key.
      rw [if_pos hother, Option.some.injEq] at h
      subst hother h
      have hrest : (rest.filter fun e => e.1 ≠ key) = rest := by
        refine List.filter_eq_self.2 fun e he => decide_eq_true ?_
        rintro rfl
        exact hnodup.1 (List.mem_map.2 ⟨e, he, rfl⟩)
      rw [List.filter_cons_of_neg (by simp), hrest, List.countP_cons]
      by_cases hm : m = k <;> simp [hm, eq_comm]
    · rw [if_neg hother] at h
      rw [List.filter_cons_of_pos (by simpa using Ne.symm hother), List.countP_cons, List.countP_cons,
        ← ih hnodup.2 h]
      omega

/-- Retiring takes an entry and the table's use of the lock away together, or neither. -/
theorem users_retire (h : r.Tidy) (hkey : r.table.lookup key = some n) (m : Nat) :
    (r.retire key n).users m + r.tabled m = r.users m + (r.retire key n).tabled m := by
  by_cases htwo : r.users n = 2
  · -- With two users, the table and this caller, the entry goes and the table is no user any more.
    have hcount := countP_filter_ne h.keys hkey m
    have husers : (r.retire key n).users m = r.users m - if m = n then 1 else 0 := by
      rw [retire_of_two htwo]
      exact users_less r n m
    have htabled : (r.retire key n).tabled m + (if m = n then 1 else 0) = r.tabled m := by
      rw [retire_of_two htwo]
      exact hcount
    by_cases hm : m = n
    · subst hm
      simp only [if_true] at husers htabled
      omega
    · simp only [if_neg hm] at husers htabled
      omega
  · rw [retire_of_ne_two htwo]

theorem holder?_retire (r : Registry κ) (key : κ) (n m : Nat) :
    (r.retire key n).holder? m = r.holder? m := by
  by_cases htwo : r.users n = 2
  · rw [retire_of_two htwo]
    show (r.update n fun l => { l with users := l.users - 1 }).holder? m = _
    exact holder?_update (by intro l; rfl) r n m
  · rw [retire_of_ne_two htwo]

/-- The lock of another key stays in the table, and so does that of the key itself if others use it. -/
theorem lookup_retire {other : κ} (h : r.Tidy) (hother : r.table.lookup other = some m)
    (hused : other ≠ key ∨ r.users n ≠ 2) : (r.retire key n).table.lookup other = some m := by
  by_cases htwo : r.users n = 2
  · -- The entry that goes is that of the key alone.
    have hne : other ≠ key := hused.resolve_right (not_not_intro htwo)
    rw [retire_of_two htwo]
    show (r.table.filter _).lookup other = some m
    rw [lookup_filter _ h.keys, hother]
    simpa using hne
  · rw [retire_of_ne_two htwo]
    exact hother

end DeviceLog.Registry
