import DeviceLog.Locks.Threads
import DeviceLog.Proofs.Locks.Registry

/-! # Threads and their locks

* `Thread.Moves` lists the steps of a thread, and `System.step_eq_some` finds every step there.
* `System.Sound` ties the registry to the threads: a lock has as many users as there are threads that
  use it, besides the table; who has joined and not retired has the lock in the table; and who is
  inside is known to the lock. `Sound.step` and `Sound.run` carry it over every schedule.
* `Sound.eq_of_inside`: no two threads are inside the lock of one key.
* `System.holders_run_le_one` says so of every state that threads can reach from where no call has
  begun, and that the threads with a claim to the lock of a key share the one in the table.
-/

namespace DeviceLog

variable {κ σ ρ : Type}

namespace Position

def uses (n : Nat) : Position κ σ ρ → Bool
  | idle | prepared _ _ => false
  | waiting _ m _ | inside _ m _ | outside _ m _ | retired _ m _ => m = n

/-- The key and the lock of a thread that has joined and not retired. -/
def claim? : Position κ σ ρ → Option (κ × Nat)
  | idle | prepared _ _ | retired _ _ _ => none
  | waiting key n _ | inside key n _ | outside key n _ => some (key, n)

def within? : Position κ σ ρ → Option Nat
  | inside _ n _ => some n
  | _ => none

theorem uses_of_claim {p : Position κ σ ρ} {key : κ} {n : Nat} (h : p.claim? = some (key, n)) :
    p.uses n = true := by
  cases p <;> simp_all [claim?, uses]

theorem uses_of_within {p : Position κ σ ρ} {n : Nat} (h : p.within? = some n) : p.uses n = true := by
  cases p <;> simp_all [within?, uses]

end Position

variable [DecidableEq κ]

/-! ## Steps -/

/-- The steps of a thread, with what is shared before and after each. -/
inductive Thread.Moves (me : Nat) :
    Thread κ σ ρ → σ → Registry κ → Thread κ σ ρ → σ → Registry κ → Prop
  | answer {call todo endings s s' r a} : call.prepare s = (.result a, s') →
      Moves me ⟨call :: todo, .idle, endings⟩ s r ⟨todo, .idle, some a :: endings⟩ s' r
  | prepare {call todo endings s s' r key work} : call.prepare s = (.under key work, s') →
      Moves me ⟨call :: todo, .idle, endings⟩ s r ⟨todo, .prepared key work, endings⟩ s' r
  | join {todo endings s r key work} :
      Moves me ⟨todo, .prepared key work, endings⟩ s r
        ⟨todo, .waiting key (r.join key).1 work, endings⟩ s (r.join key).2
  | enter {todo endings s r r' key n work} : r.enter? n me = some r' →
      Moves me ⟨todo, .waiting key n work, endings⟩ s r ⟨todo, .inside key n work, endings⟩ s r'
  | work {todo endings s r key n next} :
      Moves me ⟨todo, .inside key n (.step next), endings⟩ s r
        ⟨todo, .inside key n (next s).1, endings⟩ (next s).2 r
  | finish {todo endings s r key n a} :
      Moves me ⟨todo, .inside key n (.finish a), endings⟩ s r
        ⟨todo, .outside key n (some a), endings⟩ s (r.leave n false)
  | panic {todo endings s r key n} :
      Moves me ⟨todo, .inside key n .panic, endings⟩ s r
        ⟨todo, .outside key n none, endings⟩ s (r.leave n true)
  | retire {todo endings s r key n ending} :
      Moves me ⟨todo, .outside key n ending, endings⟩ s r
        ⟨todo, .retired key n ending, endings⟩ s (r.retire key n)
  | letGo {todo endings s r key n ending} :
      Moves me ⟨todo, .retired key n ending, endings⟩ s r
        ⟨todo, .idle, ending :: endings⟩ s (r.letGo n)

theorem Thread.moves_of_step {me : Nat} {t t' : Thread κ σ ρ} {s s' : σ} {r r' : Registry κ}
    (h : t.step me s r = some (t', s', r')) : Thread.Moves me t s r t' s' r' := by
  obtain ⟨todo, position, endings⟩ := t
  -- Each position has one way on, but for a call that is about to begin and for the three kinds of
  -- work.
  cases position with
  | idle =>
    cases todo with
    | nil => cases h
    | cons call rest =>
      simp only [step] at h
      split at h
      · rename_i hprepare
        cases h
        exact .answer hprepare
      · rename_i hprepare
        cases h
        exact .prepare hprepare
  | prepared key work =>
    cases h
    exact .join
  | waiting key n work =>
    simp only [step, Option.map_eq_some_iff] at h
    obtain ⟨r', henter, heq⟩ := h
    cases heq
    exact .enter henter
  | inside key n work =>
    cases work <;> cases h
    · exact .finish
    · exact .panic
    · exact .work
  | outside key n ending =>
    cases h
    exact .retire
  | retired key n ending =>
    cases h
    exact .letGo

theorem System.step_eq_some {me : Nat} {s s' : System κ σ ρ} (h : s.step me = some s') :
    ∃ t t' shared registry, s.threads[me]? = some t
      ∧ Thread.Moves me t s.shared s.registry t' shared registry
      ∧ s' = ⟨shared, registry, s.threads.set me t'⟩ := by
  simp only [step] at h
  split at h
  · cases h
  · rename_i t ht
    rw [Option.map_eq_some_iff] at h
    obtain ⟨⟨t', shared, registry⟩, hstep, rfl⟩ := h
    exact ⟨t, t', shared, registry, ht, Thread.moves_of_step hstep, rfl⟩

namespace System

def callers (s : System κ σ ρ) (n : Nat) : Nat := s.threads.countP fun t => t.position.uses n

/-- The registry knows what the threads do. -/
structure Sound (s : System κ σ ρ) : Prop where
  tidy : s.registry.Tidy
  users : ∀ n, s.registry.users n = s.registry.tabled n + s.callers n
  claims : ∀ (i : Nat) (t : Thread κ σ ρ) (key : κ) (n : Nat), s.threads[i]? = some t →
    t.position.claim? = some (key, n) → s.registry.table.lookup key = some n
  holder : ∀ n i, s.registry.holder? n = some i
    ↔ ∃ t : Thread κ σ ρ, s.threads[i]? = some t ∧ t.position.within? = some n

/-! ## Counting threads -/

/-- Another element in a place adds itself to a count and takes the old one away. -/
theorem countP_set_add {α : Type} {p : α → Bool} {l : List α} {i : Nat} {a : α} (h : l[i]? = some a)
    (b : α) :
    (l.set i b).countP p + (if p a then 1 else 0) = l.countP p + (if p b then 1 else 0) := by
  obtain ⟨hi, rfl⟩ := List.getElem?_eq_some_iff.1 h
  have hle : (if p l[i] then 1 else 0) ≤ l.countP p := List.boole_getElem_le_countP hi
  rw [List.countP_set hi]
  omega

theorem two_le_countP {α : Type} {p : α → Bool} {a b : α} : ∀ {l : List α} {i j : Nat}, i ≠ j →
    l[i]? = some a → l[j]? = some b → p a = true → p b = true → 2 ≤ l.countP p
  | [], _, _, _, ha, _, _, _ => by simp at ha
  | x :: rest, 0, 0, hne, _, _, _, _ => absurd rfl hne
  | x :: rest, 0, j + 1, _, ha, hb, hpa, hpb => by
    cases ha
    have hpos : 0 < rest.countP p := List.countP_pos_iff.2 ⟨b, List.mem_of_getElem? hb, hpb⟩
    rw [List.countP_cons_of_pos hpa]
    omega
  | x :: rest, i + 1, 0, _, ha, hb, hpa, hpb => by
    cases hb
    have hpos : 0 < rest.countP p := List.countP_pos_iff.2 ⟨a, List.mem_of_getElem? ha, hpa⟩
    rw [List.countP_cons_of_pos hpb]
    omega
  | x :: rest, i + 1, j + 1, hne, ha, hb, hpa, hpb => by
    have hrest := two_le_countP (l := rest) (fun heq => hne (congrArg (· + 1) heq)) ha hb hpa hpb
    rw [List.countP_cons]
    omega

/-! ## The invariant -/

variable {s s' : System κ σ ρ} {t u : Thread κ σ ρ} {me i j n m : Nat} {key : κ}

theorem Sound.tabled_lt_users (h : Sound s) (ht : s.threads[i]? = some t)
    (huses : t.position.uses n = true) : s.registry.tabled n < s.registry.users n := by
  have hpos : 0 < s.callers n := List.countP_pos_iff.2 ⟨t, List.mem_of_getElem? ht, huses⟩
  rw [h.users n]
  omega

theorem Sound.tabled_add_two_le_users (h : Sound s) (hne : i ≠ j) (ht : s.threads[i]? = some t)
    (hu : s.threads[j]? = some u) (htn : t.position.uses n = true) (hun : u.position.uses n = true) :
    s.registry.tabled n + 2 ≤ s.registry.users n := by
  have htwo : 2 ≤ s.callers n := two_le_countP hne ht hu htn hun
  rw [h.users n]
  omega

/-- The invariant after one thread and the registry have changed together. -/
theorem Sound.set (h : Sound s) {t' : Thread κ σ ρ} (ht : s.threads[me]? = some t)
    (hthreads : s'.threads = s.threads.set me t') (htidy : s'.registry.Tidy)
    (husers : ∀ n, s'.registry.users n + s.registry.tabled n
        + (if t.position.uses n then 1 else 0)
      = s.registry.users n + s'.registry.tabled n + (if t'.position.uses n then 1 else 0))
    (hown : ∀ key n, t'.position.claim? = some (key, n) → s'.registry.table.lookup key = some n)
    (hothers : ∀ (i : Nat) (u : Thread κ σ ρ) (key : κ) (n : Nat), i ≠ me → s.threads[i]? = some u →
      u.position.claim? = some (key, n) → s.registry.table.lookup key = some n →
        s'.registry.table.lookup key = some n)
    (hholder : ∀ n i, s'.registry.holder? n = some i
      ↔ if i = me then t'.position.within? = some n else s.registry.holder? n = some i) :
    Sound s' where
  tidy := htidy
  -- The counts of the two places that differ are balanced by what has changed in the registry.
  users n := by
    have hcount := countP_set_add (p := fun t => t.position.uses n) ht t'
    have hbefore := h.users n
    have hchange := husers n
    simp only [callers] at hbefore ⊢
    rw [hthreads]
    omega
  claims i u key n hu hclaim := by
    have hlt := (List.getElem?_eq_some_iff.1 ht).1
    rw [hthreads] at hu
    by_cases hi : i = me
    · subst hi
      rw [List.getElem?_set_self hlt] at hu
      cases hu
      exact hown key n hclaim
    · rw [List.getElem?_set_ne (Ne.symm hi)] at hu
      exact hothers i u key n hi hu hclaim (h.claims i u key n hu hclaim)
  holder n i := by
    have hlt := (List.getElem?_eq_some_iff.1 ht).1
    rw [hholder n i, hthreads]
    by_cases hi : i = me
    · subst hi
      simp [hlt]
    · rw [if_neg hi, h.holder n i, List.getElem?_set_ne (Ne.symm hi)]

theorem Sound.tabled_le_users (h : Sound s) (n : Nat) : s.registry.tabled n ≤ s.registry.users n := by
  rw [h.users n]
  exact Nat.le_add_right _ _

theorem Sound.holder_iff (h : Sound s) (ht : s.threads[me]? = some t) (n i : Nat) :
    s.registry.holder? n = some i
      ↔ if i = me then t.position.within? = some n else s.registry.holder? n = some i := by
  split
  · rename_i hi
    rw [h.holder, hi, ht]
    simp
  · exact Iff.rfl

/-! ## Steps keep the invariant -/

section Steps

variable {shared : σ} {r : Registry κ} {threads : List (Thread κ σ ρ)} {todo : List (Call κ σ ρ)}
  {endings : List (Ending ρ)} {work : Work σ ρ} {ending : Ending ρ}

/-- A step that does not concern the registry, and after which the thread uses the same lock. -/
theorem Sound.unmoved (h : Sound ⟨shared, r, threads⟩) {t' : Thread κ σ ρ} {shared' : σ}
    (ht : threads[me]? = some t) (huses : ∀ n, t'.position.uses n = t.position.uses n)
    (hclaim : t'.position.claim? = t.position.claim?)
    (hwithin : t'.position.within? = t.position.within?) :
    Sound ⟨shared', r, threads.set me t'⟩ := by
  refine h.set ht rfl h.tidy (fun n => ?_) (fun key n hown => ?_)
    (fun _ _ _ _ _ _ _ hfound => hfound) fun n i => ?_
  · rw [huses]
  · exact h.claims me t key n ht (hclaim ▸ hown)
  · rw [hwithin]
    exact h.holder_iff ht n i

theorem Sound.join (h : Sound ⟨shared, r, threads⟩)
    (ht : threads[me]? = some ⟨todo, .prepared key work, endings⟩) :
    Sound ⟨shared, (r.join key).2,
      threads.set me ⟨todo, .waiting key (r.join key).1 work, endings⟩⟩ := by
  refine h.set ht rfl (Registry.tidy_join h.tidy key) (fun n => ?_) (fun other n hown => ?_)
    (fun _ _ _ _ _ _ _ hfound => Registry.lookup_join_of_some hfound) fun n i => ?_
  · -- The new user is this thread, which waits for the lock that it has joined.
    have hjoin := Registry.users_join h.tidy h.tabled_le_users key n
    simp only [Position.uses, eq_comm (a := n)] at hjoin ⊢
    simpa using hjoin
  · cases hown
    exact Registry.lookup_join r key
  · rw [Registry.holder?_join h.tidy]
    exact h.holder_iff ht n i

theorem Sound.enter (h : Sound ⟨shared, r, threads⟩) {r' : Registry κ}
    (ht : threads[me]? = some ⟨todo, .waiting key n work, endings⟩) (henter : r.enter? n me = some r') :
    Sound ⟨shared, r', threads.set me ⟨todo, .inside key n work, endings⟩⟩ := by
  obtain ⟨hfree, htable, htidy, husers, hholder⟩ := Registry.enter_spec henter
  refine h.set ht rfl (htidy h.tidy) (fun m => ?_) (fun other m hown => ?_)
    (fun _ _ _ _ _ _ _ hfound => htable ▸ hfound) fun m i => ?_
  · simp only [Registry.tabled]
    rw [husers, htable]
    rfl
  · rw [htable]
    exact h.claims me _ other m ht hown
  · have hwithin := h.holder_iff ht m i
    rw [hholder]
    by_cases hm : m = n
    · subst hm
      rw [if_pos rfl, hfree]
      -- Before the step nobody was inside this lock, so nobody else is inside it now.
      by_cases hi : i = me
      · simp [hi, Position.within?]
      · simp [hi, Ne.symm hi]
    · rw [if_neg hm, hwithin]
      simp [Position.within?, Ne.symm hm]

theorem Sound.leave (h : Sound ⟨shared, r, threads⟩)
    (ht : threads[me]? = some ⟨todo, .inside key n work, endings⟩) (panicked : Bool) :
    Sound ⟨shared, r.leave n panicked, threads.set me ⟨todo, .outside key n ending, endings⟩⟩ := by
  refine h.set ht rfl (Registry.tidy_leave h.tidy n panicked) (fun m => ?_) (fun other m hown => ?_)
    (fun _ _ _ _ _ _ _ hfound => hfound) fun m i => ?_
  · rw [Registry.users_leave]
    rfl
  · exact h.claims me _ other m ht hown
  · have hwithin := h.holder_iff ht m i
    have hme : r.holder? n = some me := (h.holder n me).2 ⟨_, ht, rfl⟩
    rw [Registry.holder?_leave]
    by_cases hm : m = n
    · subst hm
      rw [if_pos rfl, hme]
      by_cases hi : i = me
      · simp [hi, Position.within?]
      · simp [hi, Ne.symm hi]
    · rw [if_neg hm, hwithin]
      simp [Position.within?, Ne.symm hm]

theorem Sound.retire (h : Sound ⟨shared, r, threads⟩)
    (ht : threads[me]? = some ⟨todo, .outside key n ending, endings⟩) :
    Sound ⟨shared, r.retire key n, threads.set me ⟨todo, .retired key n ending, endings⟩⟩ := by
  have hkey : r.table.lookup key = some n := h.claims me _ key n ht rfl
  refine h.set ht rfl (Registry.tidy_retire h.tidy key n) (fun m => ?_) nofun
    (fun i u other m hi hu hclaim hfound => ?_) fun m i => ?_
  · have hretire := Registry.users_retire h.tidy hkey m
    exact congrArg (· + if decide (n = m) = true then 1 else 0) hretire
  · refine Registry.lookup_retire h.tidy hfound ?_
    by_cases hother : other = key
    · -- Another thread has joined and not retired, so the lock has a third user.
      subst hother
      have hm : m = n := Option.some.inj (hfound.symm.trans hkey)
      subst hm
      have hmany := h.tabled_add_two_le_users hi hu ht (Position.uses_of_claim hclaim)
        (Position.uses_of_claim rfl)
      have hlisted := Registry.tabled_pos hkey
      exact .inr (by dsimp only at hmany; omega)
    · exact .inl hother
  · rw [Registry.holder?_retire]
    exact h.holder_iff ht m i

theorem Sound.letGo (h : Sound ⟨shared, r, threads⟩)
    (ht : threads[me]? = some ⟨todo, .retired key n ending, endings⟩) :
    Sound ⟨shared, r.letGo n, threads.set me ⟨todo, .idle, ending :: endings⟩⟩ := by
  have hused : r.tabled n < r.users n := h.tabled_lt_users ht (decide_eq_true rfl)
  refine h.set ht rfl (Registry.tidy_letGo h.tidy n) (fun m => ?_) nofun
    (fun _ _ _ _ _ _ _ hfound => hfound) fun m i => ?_
  · -- This thread is a user, so there is one to take away.
    have hletGo := Registry.users_letGo h.tidy n m
    have htabled : (r.letGo n).tabled m = r.tabled m := rfl
    by_cases hm : m = n
    · subst hm
      simp only [Position.uses] at hletGo ⊢
      simp at hletGo ⊢
      omega
    · simp [Position.uses, hm, Ne.symm hm, hletGo, htabled]
  · have hwithin := h.holder_iff ht m i
    rw [Registry.holder?_letGo h.tidy]
    by_cases hi : i = me
    · rw [if_pos hi] at hwithin ⊢
      simp [Position.within?, hwithin]
    · rw [if_neg hi]
      constructor
      · intro hin
        split at hin
        · cases hin
        · exact hin
      · -- Who is inside is a user, and not the one that lets go.
        intro hin
        obtain ⟨u, hu, hinside⟩ := (h.holder m i).1 hin
        have huses := Position.uses_of_within hinside
        have hother := h.tabled_lt_users hu huses
        rw [Registry.users_letGo h.tidy, if_neg]
        · exact hin
        · by_cases hm : m = n
          · subst hm
            have hmany := h.tabled_add_two_le_users hi hu ht huses (decide_eq_true rfl)
            rw [if_pos rfl]
            dsimp only at hmany ⊢
            omega
          · rw [if_neg hm]
            dsimp only at hother ⊢
            omega

end Steps

/-- Every step of a thread keeps the invariant. -/
theorem Sound.step (h : Sound s) (hstep : s.step me = some s') : Sound s' := by
  obtain ⟨t, t', shared, registry, ht, hmoves, rfl⟩ := step_eq_some hstep
  cases hmoves with
  | answer => exact h.unmoved ht (fun _ => rfl) rfl rfl
  | prepare => exact h.unmoved ht (fun _ => rfl) rfl rfl
  | join => exact h.join ht
  | enter henter => exact h.enter ht henter
  | work => exact h.unmoved ht (fun _ => rfl) rfl rfl
  | finish => exact h.leave ht false
  | panic => exact h.leave ht true
  | retire => exact h.retire ht
  | letGo => exact h.letGo ht

theorem turn_cases (s : System κ σ ρ) (me : Nat) :
    (s.step me = none ∧ s.turn me = s) ∨ s.step me = some (s.turn me) := by
  simp only [turn]
  cases h : s.step me with
  | none => exact .inl ⟨rfl, rfl⟩
  | some s' => exact .inr rfl

theorem Sound.run (h : Sound s) (schedule : List Nat) : Sound (s.run schedule) := by
  simp only [System.run]
  induction schedule generalizing s with
  | nil => exact h
  | cons me rest ih =>
    rw [List.foldl_cons]
    apply ih
    rcases turn_cases s me with ⟨-, heq⟩ | hstep
    · rw [heq]
      exact h
    · exact h.step hstep

theorem sound_start (shared : σ) (calls : List (List (Call κ σ ρ))) :
    Sound ⟨shared, {}, calls.map fun todo => { todo := todo }⟩ where
  tidy := Registry.tidy_empty
  users n := by
    have hnone : System.callers (κ := κ) ⟨shared, {}, calls.map fun todo => { todo := todo }⟩ n = 0 := by
      refine List.countP_eq_zero.2 fun t ht => ?_
      obtain ⟨todo, -, rfl⟩ := List.mem_map.1 ht
      exact Bool.false_ne_true
    rw [hnone]
    rfl
  claims i t key n ht hclaim := by
    obtain ⟨todo, -, rfl⟩ := List.mem_map.1 (List.mem_of_getElem? ht)
    cases hclaim
  holder n i := by
    constructor
    · intro h
      cases h
    · rintro ⟨t, ht, hwithin⟩
      obtain ⟨todo, -, rfl⟩ := List.mem_map.1 (List.mem_of_getElem? ht)
      cases hwithin

/-! ## What follows -/

/-- Threads that are inside the lock of one key are one thread. -/
theorem Sound.eq_of_inside (h : Sound s) (hi : s.threads[i]? = some t) (hj : s.threads[j]? = some u)
    {v w : Work σ ρ} (ht : t.position = .inside key n v) (hu : u.position = .inside key m w) :
    i = j := by
  -- Both have the lock that is in the table, and a lock knows one holder.
  have hn := h.claims i t key n hi (by rw [ht]; rfl)
  have hm := h.claims j u key m hj (by rw [hu]; rfl)
  have hsame : n = m := Option.some.inj (hn.symm.trans hm)
  subst hsame
  have hin := (h.holder n i).2 ⟨t, hi, by rw [ht]; rfl⟩
  have hin' := (h.holder n j).2 ⟨u, hj, by rw [hu]; rfl⟩
  exact Option.some.inj (hin.symm.trans hin')

/-- Where no two places have a property, one element has it at most. -/
theorem countP_le_one {α : Type} {p : α → Bool} : ∀ {l : List α},
    (∀ (i j : Nat) (a b : α), l[i]? = some a → l[j]? = some b → p a = true → p b = true → i = j) →
      l.countP p ≤ 1
  | [], _ => Nat.zero_le 1
  | a :: rest, h => by
    have hrest : rest.countP p ≤ 1 := countP_le_one fun i j b c hb hc hpb hpc =>
      Nat.succ.inj (h (i + 1) (j + 1) b c hb hc hpb hpc)
    rw [List.countP_cons]
    by_cases ha : p a = true
    · -- The first element has the property, and so no other has it.
      have hnone : rest.countP p = 0 := by
        refine List.countP_eq_zero.2 fun b hb hpb => ?_
        obtain ⟨j, hj⟩ := List.getElem?_of_mem hb
        exact absurd (h 0 (j + 1) a b rfl hj ha hpb) (Nat.succ_ne_zero j).symm
      exact Nat.le_of_eq (by rw [hnone, if_pos ha])
    · rw [if_neg ha]
      exact hrest

theorem exists_inside_of_isInside {p : Position κ σ ρ} (h : p.isInside key = true) :
    ∃ n work, p = .inside key n work := by
  cases p with
  | inside k n work =>
    cases of_decide_eq_true h
    exact ⟨n, work, rfl⟩
  | _ => cases h

theorem Sound.holders_le_one (h : Sound s) (key : κ) : s.holders key ≤ 1 := by
  rw [holders, ← List.countP_eq_length_filter]
  refine countP_le_one fun i j t u ht hu hti huj => ?_
  obtain ⟨n, v, htn⟩ := exists_inside_of_isInside hti
  obtain ⟨m, w, hum⟩ := exists_inside_of_isInside huj
  exact h.eq_of_inside ht hu htn hum

/-- Threads before any of their calls has begun. -/
def start (shared : σ) (calls : List (List (Call κ σ ρ))) : System κ σ ρ :=
  { shared, threads := calls.map fun todo => { todo } }

/-- However the steps of any number of threads follow each other, whether or not their work ends in a
panic, one thread at most is inside the lock of a key. All that have joined the users of the lock and
not retired since have the same lock, which is the one in the table. -/
theorem holders_run_le_one (shared : σ) (calls : List (List (Call κ σ ρ))) (schedule : List Nat)
    (key : κ) :
    let s := (start shared calls).run schedule
    s.holders key ≤ 1 ∧ ∀ t ∈ s.threads, ∀ n, t.position.claim? = some (key, n) →
      s.registry.table.lookup key = some n := by
  intro s
  have hsound : Sound s := (sound_start shared calls).run schedule
  refine ⟨hsound.holders_le_one key, fun t ht n hclaim => ?_⟩
  obtain ⟨i, hi⟩ := List.getElem?_of_mem ht
  exact hsound.claims i t key n hi hclaim

end System

/-- A call that goes to work under the lock of a key at once. -/
def Call.under (key : κ) (work : Work σ ρ) : Call κ σ ρ where
  prepare s := (.under key work, s)

namespace System

/-- One thread is in a panic inside the lock that another one waits for. -/
def panicInside : System String Unit Unit :=
  (start () [[.under "log" .panic], [.under "log" (.finish ())]]).run [0, 0, 1, 1, 0]

theorem holders_run_le_one_panicInside :
    (∃ t ∈ panicInside.threads, t.position = .waiting "log" 0 (.finish ())
      ∧ t.position.claim? = some ("log", 0))
    ∧ panicInside.holders "log" = 1 ∧ panicInside.holders "log" ≤ 1
    ∧ panicInside.registry.table.lookup "log" = some 0 := by
  have hone := holders_run_le_one () [[.under "log" .panic], [.under "log" (.finish ())]]
    [0, 0, 1, 1, 0] "log"
  have hwaits : panicInside.threads[1]? = some ⟨[], .waiting "log" 0 (.finish ()), []⟩ := rfl
  have hmem := List.mem_of_getElem? hwaits
  exact ⟨⟨_, hmem, rfl, rfl⟩, rfl, hone.1, hone.2 _ hmem 0 rfl⟩

end System

end DeviceLog
