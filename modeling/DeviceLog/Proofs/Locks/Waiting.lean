import DeviceLog.Locks.Guarded
import DeviceLog.Proofs.Locks.Entries

/-! # What a thread waits for

A thread waits for the lock of a key only while another one is inside it, whatever happens to the
locks of other keys and however others have left. For the guard of the table it waits only while
another one is about to give it back.

* `Guarded.Moves` lists the steps of a thread, and `Guarded.step_eq_some_iff` finds every step there.
* `Guarded.exists_run_system` and `Guarded.exists_run_eq`: the guard changes nothing else. What threads
  can reach with it they can reach without it, and the other way round.
* `System.Sound.enters_iff`: when a lock can be entered.
* `Work.Calm`: work that cannot end in a panic. `System.calm_run`: calls whose work is calm end in
  results, whatever the work of other threads ends in.
* `Guarded.enters_run_iff` puts it together, for every state that threads can reach.
-/

namespace DeviceLog

variable {κ σ ρ : Type}

/-- What holds of every piece of work: of its ends, and of a step if it holds of whatever comes after. -/
theorem Work.induction {motive : Work σ ρ → Prop} (finish : ∀ result, motive (.finish result))
    (panic : motive .panic) (step : ∀ next, (∀ s, motive (next s).1) → motive (.step next))
    (work : Work σ ρ) : motive work :=
  @Work.rec σ ρ motive (fun after => motive after.1) finish panic step (fun _ _ h => h) work

/-! ## Work without panics -/

/-- Work that ends in a result, whatever it meets. -/
inductive Work.Calm : Work σ ρ → Prop
  | finish (result : ρ) : Calm (.finish result)
  | step {next : σ → Work σ ρ × σ} : (∀ s, Calm (next s).1) → Calm (.step next)

def Call.Calm (c : Call κ σ ρ) : Prop :=
  ∀ s s' key work, c.prepare s = (.under key work, s') → work.Calm

def Position.Calm : Position κ σ ρ → Prop
  | idle => True
  | prepared _ work | waiting _ _ work | inside _ _ work => work.Calm
  | outside _ _ ending | retired _ _ ending => ending ≠ none

/-- A thread that has not been in a panic and will not be in one. -/
structure Thread.Calm (t : Thread κ σ ρ) : Prop where
  todo : ∀ call ∈ t.todo, call.Calm
  position : t.position.Calm
  endings : none ∉ t.endings

variable [DecidableEq κ]

/-- What others do has no part in it: a step of the thread itself is all there is to look at. -/
theorem Thread.Moves.calm {me : Nat} {t t' : Thread κ σ ρ} {s s' : σ} {r r' : Registry κ}
    (hmoves : Thread.Moves me t s r t' s' r') (h : t.Calm) : t'.Calm := by
  obtain ⟨htodo, hposition, hendings⟩ := h
  have hrest : ∀ {call : Call κ σ ρ} {rest : List (Call κ σ ρ)}, (∀ c ∈ call :: rest, c.Calm) →
      ∀ c ∈ rest, c.Calm := fun hall c hc => hall c (List.mem_cons_of_mem _ hc)
  cases hmoves with
  | answer => exact ⟨hrest htodo, trivial, fun hmem => hendings (by simpa using hmem)⟩
  | prepare hprepare =>
    exact ⟨hrest htodo, htodo _ List.mem_cons_self _ _ _ _ hprepare, hendings⟩
  | join | enter => exact ⟨htodo, hposition, hendings⟩
  | work =>
    cases hposition with
    | step hnext => exact ⟨htodo, hnext _, hendings⟩
  | finish => exact ⟨htodo, Option.some_ne_none _, hendings⟩
  | panic => cases hposition
  | retire => exact ⟨htodo, hposition, hendings⟩
  | letGo =>
    refine ⟨htodo, trivial, fun hmem => ?_⟩
    rcases List.mem_cons.1 hmem with heq | hmem
    · exact hposition heq.symm
    · exact hendings hmem

namespace System

variable {s : System κ σ ρ} {t : Thread κ σ ρ} {key : κ} {n i : Nat}

/-- A thread that is calm stays so, whoever has the turns. -/
theorem calm_run (h : ∀ t, s.threads[i]? = some t → t.Calm) (schedule : List Nat) :
    ∀ t, (s.run schedule).threads[i]? = some t → t.Calm := by
  induction schedule generalizing s with
  | nil => exact h
  | cons me rest ih =>
    rw [run_cons]
    refine ih fun t ht => ?_
    rcases turn_cases s me with ⟨-, heq⟩ | hstep
    · rw [heq] at ht
      exact h t ht
    obtain ⟨u, u', shared, registry, hu, hmoves, heq⟩ := step_eq_some hstep
    rw [heq] at ht
    by_cases hi : i = me
    · subst hi
      rw [List.getElem?_set_self (List.getElem?_eq_some_iff.1 hu).1] at ht
      cases ht
      exact hmoves.calm (h u hu)
    · rw [List.getElem?_set_ne (Ne.symm hi)] at ht
      exact h t ht

/-! ## When a lock can be entered -/

/-- The lock of a key can be entered if and only if nobody is inside it. Whether somebody has left it in
a panic makes no difference, and neither do the locks of other keys. -/
theorem Sound.enters_iff (h : Sound s) (hapart : s.registry.Apart) {work : Work σ ρ}
    (ht : s.threads[i]? = some t) (hposition : t.position = .waiting key n work) :
    (∃ r, s.registry.enter? n i = some r) ↔ ∀ u ∈ s.threads, u.position.isInside key = false := by
  have hkey : s.registry.table.lookup key = some n := h.claims i t key n ht (by rw [hposition]; rfl)
  constructor
  · rintro ⟨r, henter⟩ u hmem
    obtain ⟨hfree, -⟩ := Registry.enter_spec henter
    obtain ⟨j, hu⟩ := List.getElem?_of_mem hmem
    rw [← Bool.not_eq_true]
    intro hinside
    obtain ⟨m, v, hum⟩ := exists_inside_of_isInside hinside
    -- Who is inside has the lock that is in the table, and that lock knows of it.
    have hm := h.claims j u key m hu (by rw [hum]; rfl)
    rw [hkey, Option.some.injEq] at hm
    subst hm
    rw [(h.holder n j).2 ⟨u, hu, by rw [hum]; rfl⟩] at hfree
    cases hfree
  · intro hnobody
    have hused := h.tabled_lt_users ht (n := n) (by rw [hposition]; exact decide_eq_true rfl)
    refine Registry.exists_enter i (Nat.zero_lt_of_lt hused) ?_
    cases hholder : s.registry.holder? n with
    | none => rfl
    | some j =>
      obtain ⟨u, hu, hwithin⟩ := (h.holder n j).1 hholder
      cases hum : u.position with
      | inside other m v =>
        rw [hum] at hwithin
        cases hwithin
        have hother := h.claims j u other n hu (by rw [hum]; rfl)
        cases hapart.eq_of_lookup hkey hother
        have hfalse := hnobody u (List.mem_of_getElem? hu)
        rw [hum] at hfalse
        exact absurd rfl (of_decide_eq_false hfalse)
      | _ => rw [hum] at hwithin; cases hwithin

end System

/-- Who is done at the table has given up one of its places: it waits for its lock, or it has retired. -/
theorem Thread.Moves.left_table {me : Nat} {t t' : Thread κ σ ρ} {s s' : σ} {r r' : Registry κ}
    (hmoves : Thread.Moves me t s r t' s' r') (ht : t.position.atTable = true) :
    t'.position.atTable = false ∧ t'.position.within? = none := by
  cases hmoves with
  | join | retire => exact ⟨rfl, rfl⟩
  | _ => cases ht

namespace Guarded

variable {g g' : Guarded κ σ ρ} {s s' : System κ σ ρ} {t : Thread κ σ ρ} {me i j : Nat}

/-! ## Steps -/

/-- The steps of a thread, with the state before and after each. -/
inductive Moves (me : Nat) : Guarded κ σ ρ → Guarded κ σ ρ → Prop
  | take {before u} : before.threads[me]? = some u → u.position.atTable = true →
      Moves me ⟨before, none⟩ ⟨before, some me⟩
  | giveBack {before u} : before.threads[me]? = some u → u.position.atTable = false →
      Moves me ⟨before, some me⟩ ⟨before, none⟩
  | go {before after u guard} : before.threads[me]? = some u →
      (u.position.atTable = true ↔ guard = some me) → before.step me = some after →
        Moves me ⟨before, guard⟩ ⟨after, guard⟩

theorem step_eq_some_iff : g.step me = some g' ↔ Moves me g g' := by
  obtain ⟨s, guard⟩ := g
  constructor
  · intro h
    simp only [step] at h
    cases ht : s.threads[me]? with
    | none => rw [ht] at h; cases h
    | some t =>
      simp only [ht] at h
      cases htable : t.position.atTable with
      | true =>
        rw [htable, if_pos rfl] at h
        cases guard with
        | none =>
          cases h
          exact .take ht htable
        | some owner =>
          dsimp only at h
          split at h
          · rename_i howner
            subst howner
            obtain ⟨s', hstep, rfl⟩ := Option.map_eq_some_iff.1 h
            exact .go ht (iff_of_true htable rfl) hstep
          · cases h
      | false =>
        rw [htable, if_neg Bool.false_ne_true] at h
        split at h
        · rename_i hguard
          subst hguard
          cases h
          exact .giveBack ht htable
        · rename_i hguard
          obtain ⟨s', hstep, rfl⟩ := Option.map_eq_some_iff.1 h
          exact .go ht (iff_of_false (by simp [htable]) hguard) hstep
  · intro h
    cases h with
    | take ht htable => simp only [step, ht, htable, if_true]
    | giveBack ht htable => simp [step, ht, htable]
    | @go s s' t guard ht hguard hstep =>
      simp only [step, ht, hstep, Option.map_some]
      by_cases htable : t.position.atTable = true
      · have howner := hguard.1 htable
        subst howner
        simp only [htable, if_true]
      · rw [if_neg htable, if_neg (mt hguard.2 htable)]

theorem Moves.turn_eq (h : Moves me g g') : g.turn me = g' := by
  rw [turn, step_eq_some_iff.2 h, Option.getD_some]

theorem turn_cases (g : Guarded κ σ ρ) (me : Nat) : g.turn me = g ∨ Moves me g (g.turn me) := by
  simp only [turn]
  cases h : g.step me with
  | none => exact .inl rfl
  | some g' => exact .inr (step_eq_some_iff.1 h)

theorem run_cons (g : Guarded κ σ ρ) (me : Nat) (rest : List Nat) :
    g.run (me :: rest) = (g.turn me).run rest := rfl

theorem run_append (g : Guarded κ σ ρ) (schedule more : List Nat) :
    g.run (schedule ++ more) = (g.run schedule).run more :=
  List.foldl_append

/-! ## With the guard and without -/

/-- Without the guard a turn is the same, or it is none at all. -/
theorem system_turn (g : Guarded κ σ ρ) (me : Nat) :
    (g.turn me).system = g.system ∨ (g.turn me).system = g.system.turn me := by
  rcases turn_cases g me with heq | hmoves
  · exact .inl (by rw [heq])
  generalize g.turn me = g' at hmoves
  cases hmoves with
  | take | giveBack => exact .inl rfl
  | go _ _ hstep => exact .inr (by rw [System.turn, hstep, Option.getD_some])

/-- Without the turns in which the guard passes from hand to hand, a schedule leads to the same. -/
theorem exists_run_system (g : Guarded κ σ ρ) (schedule : List Nat) :
    ∃ coarse, (g.run schedule).system = g.system.run coarse := by
  induction schedule generalizing g with
  | nil => exact ⟨[], rfl⟩
  | cons me rest ih =>
    obtain ⟨coarse, hcoarse⟩ := ih (g.turn me)
    rw [run_cons, hcoarse]
    rcases system_turn g me with heq | heq
    · exact ⟨coarse, by rw [heq]⟩
    · exact ⟨me :: coarse, by rw [heq, System.run_cons]⟩

theorem exists_run_turn (s : System κ σ ρ) (me : Nat) :
    ∃ fine, (⟨s, none⟩ : Guarded κ σ ρ).run fine = ⟨s.turn me, none⟩ := by
  rcases System.turn_cases s me with ⟨-, heq⟩ | hstep
  · exact ⟨[], by rw [heq]; rfl⟩
  obtain ⟨t, t', shared, registry, ht, hmoves, heq⟩ := System.step_eq_some hstep
  cases htable : t.position.atTable with
  | false =>
    refine ⟨[me], Moves.turn_eq (.go ht ?_ hstep)⟩
    simp [htable]
  | true =>
    have hleft : (s.turn me).threads[me]? = some t' := by
      rw [heq]
      exact List.getElem?_set_self (List.getElem?_eq_some_iff.1 ht).1
    refine ⟨[me, me, me], ?_⟩
    rw [run_cons, (Moves.take ht htable).turn_eq, run_cons,
      (Moves.go ht (iff_of_true htable rfl) hstep).turn_eq]
    exact (Moves.giveBack hleft (hmoves.left_table htable).1).turn_eq

/-- Whatever a schedule leads to without the guard, another leads to with it. -/
theorem exists_run_eq (s : System κ σ ρ) (schedule : List Nat) :
    ∃ fine, (⟨s, none⟩ : Guarded κ σ ρ).run fine = ⟨s.run schedule, none⟩ := by
  induction schedule generalizing s with
  | nil => exact ⟨[], rfl⟩
  | cons me rest ih =>
    obtain ⟨first, hfirst⟩ := exists_run_turn s me
    obtain ⟨others, hothers⟩ := ih (s.turn me)
    exact ⟨first ++ others, by rw [run_append, hfirst, hothers, System.run_cons]⟩

/-! ## The invariant -/

/-- The locks are as they would be without the guard, and who holds it is inside no lock. -/
structure Sound (g : Guarded κ σ ρ) : Prop where
  system : g.system.Sound
  apart : g.system.registry.Apart
  owner : ∀ i, g.guard = some i → ∃ t, g.system.threads[i]? = some t ∧ t.position.within? = none

theorem Sound.owner_of_moves (h : Sound g) (hmoves : Moves me g g') (i : Nat)
    (hguard : g'.guard = some i) :
    ∃ t, g'.system.threads[i]? = some t ∧ t.position.within? = none := by
  have howner := h.owner
  cases hmoves with
  | @take s t ht htable =>
    cases hguard
    refine ⟨t, ht, ?_⟩
    cases hposition : t.position with
    | inside => rw [hposition] at htable; cases htable
    | _ => rfl
  | giveBack => cases hguard
  | @go s s' t guard ht hown hstep =>
    obtain ⟨u, hu, hwithin⟩ := howner i hguard
    obtain ⟨t₀, t', shared, registry, ht₀, hmoves, rfl⟩ := System.step_eq_some hstep
    by_cases hi : i = me
    · -- The holder itself has been at the table.
      subst hi
      rw [ht] at ht₀
      cases ht₀
      have hleft := hmoves.left_table (hown.2 hguard)
      exact ⟨t', List.getElem?_set_self (List.getElem?_eq_some_iff.1 ht).1, hleft.2⟩
    · exact ⟨u, (List.getElem?_set_ne (Ne.symm hi)).trans hu, hwithin⟩

theorem Sound.turn (h : Sound g) (me : Nat) : Sound (g.turn me) := by
  rcases turn_cases g me with heq | hmoves
  · rw [heq]
    exact h
  rcases system_turn g me with heq | heq
  · exact ⟨heq ▸ h.system, heq ▸ h.apart, h.owner_of_moves hmoves⟩
  · exact ⟨heq ▸ h.system.run [me], heq ▸ h.system.apart_turn h.apart me, h.owner_of_moves hmoves⟩

theorem Sound.run (h : Sound g) (schedule : List Nat) : Sound (g.run schedule) := by
  induction schedule generalizing g with
  | nil => exact h
  | cons me rest ih =>
    rw [run_cons]
    exact ih (h.turn me)

/-! ## Waiting -/

/-- Who holds the guard can take a step, and need not wait for anything: it gives the guard back, or does
what it came for and has only to give it back then. -/
theorem Sound.exists_moves_of_owner (h : Sound g) (hguard : g.guard = some i) :
    ∃ g', Moves i g g' ∧ (g'.guard = none ∨ ∃ g'', Moves i g' g'' ∧ g''.guard = none) := by
  obtain ⟨t, ht, -⟩ := h.owner i hguard
  obtain ⟨s, guard⟩ := g
  cases hguard
  cases htable : t.position.atTable with
  | false => exact ⟨_, .giveBack ht htable, .inl rfl⟩
  | true =>
    have hbusy : t.isDone = false := by
      cases hposition : t.position with
      | idle => rw [hposition] at htable; cases htable
      | _ => simp [Thread.isDone, hposition, Position.isIdle]
    obtain ⟨s', hstep⟩ := System.exists_step_of_thread ht hbusy fun key n work hposition => by
      rw [hposition] at htable
      cases htable
    obtain ⟨t₀, t', shared, registry, ht₀, hmoves, rfl⟩ := System.step_eq_some hstep
    rw [ht] at ht₀
    cases ht₀
    have hleft := List.getElem?_set_self (a := t') (List.getElem?_eq_some_iff.1 ht).1
    exact ⟨_, .go ht (iff_of_true htable rfl) hstep,
      .inr ⟨_, .giveBack hleft (hmoves.left_table htable).1, rfl⟩⟩

theorem Sound.exists_given_back (h : Sound g) (hguard : g.guard = some i) :
    ∃ turns ≤ 2, (g.run (List.replicate turns i)).guard = none := by
  obtain ⟨g', hfirst, hnone | ⟨g'', hsecond, hnone⟩⟩ := h.exists_moves_of_owner hguard
  · refine ⟨1, by decide, ?_⟩
    show (g.turn i).guard = none
    rw [hfirst.turn_eq, hnone]
  · refine ⟨2, Nat.le_refl 2, ?_⟩
    show ((g.turn i).turn i).guard = none
    rw [hfirst.turn_eq, hsecond.turn_eq, hnone]

theorem Sound.exists_step (h : Sound g) (hdone : g.system.isDone = false) :
    ∃ i g', g.step i = some g' := by
  cases hguard : g.guard with
  | some i =>
    obtain ⟨g', hmoves, -⟩ := h.exists_moves_of_owner hguard
    exact ⟨i, g', step_eq_some_iff.2 hmoves⟩
  | none =>
    obtain ⟨s, guard⟩ := g
    cases hguard
    obtain ⟨i, s', hstep⟩ := h.system.exists_step hdone
    obtain ⟨t, t', shared, registry, ht, -, -⟩ := System.step_eq_some hstep
    cases htable : t.position.atTable with
    | true => exact ⟨i, _, step_eq_some_iff.2 (.take ht htable)⟩
    | false => exact ⟨i, _, step_eq_some_iff.2 (.go ht (by simp [htable]) hstep)⟩

/-- The next step of a thread takes it into the lock of a key. -/
def Enters (g : Guarded κ σ ρ) (me : Nat) (key : κ) : Prop :=
  ∃ g', g.step me = some g' ∧ ∃ t, g'.system.threads[me]? = some t ∧ t.position.isInside key = true

variable {key : κ} {n : Nat} {work : Work σ ρ}

/-- Who waits for the lock of a key enters it now if and only if nobody is inside. -/
theorem Sound.enters_iff (h : Sound g) (ht : g.system.threads[i]? = some t)
    (hposition : t.position = .waiting key n work) (hguard : g.guard ≠ some i) :
    g.Enters i key ↔ ∀ u ∈ g.system.threads, u.position.isInside key = false := by
  rw [← h.system.enters_iff h.apart ht hposition]
  have htable : ¬(t.position.atTable = true ↔ g.guard = some i) ↔ False := by
    simp [hposition, Position.atTable, hguard]
  have hlt := (List.getElem?_eq_some_iff.1 ht).1
  obtain ⟨s, guard⟩ := g
  constructor
  · rintro ⟨g', hstep, -⟩
    cases step_eq_some_iff.1 hstep with
    | take hu hat => rw [ht] at hu; cases hu; rw [hposition] at hat; cases hat
    | giveBack => exact absurd rfl hguard
    | go hu _ hgo =>
      simp only [System.step, ht, Thread.step, hposition] at hgo
      obtain ⟨_, hmap, -⟩ := Option.map_eq_some_iff.1 hgo
      obtain ⟨r, henter, -⟩ := Option.map_eq_some_iff.1 hmap
      exact ⟨r, henter⟩
  · rintro ⟨r, henter⟩
    have hstep : s.step i = some ⟨s.shared, r, s.threads.set i { t with position := .inside key n work }⟩ := by
      simp [System.step, ht, Thread.step, hposition, henter]
    refine ⟨_, step_eq_some_iff.2 (.go ht (not_not.1 htable.1) hstep), _, List.getElem?_set_self hlt, ?_⟩
    exact decide_eq_true rfl

/-! ## Leaving -/

theorem turn_of_inside (ht : g.system.threads[j]? = some t) (hposition : t.position = .inside key n work)
    (hguard : g.guard ≠ some j) (hstep : g.system.step j = some s') : g.turn j = ⟨s', g.guard⟩ :=
  (Moves.go ht (by simp [hposition, Position.atTable, hguard]) hstep).turn_eq

theorem turn_of_step {next : σ → Work σ ρ × σ} (ht : g.system.threads[j]? = some t)
    (hposition : t.position = .inside key n (.step next)) (hguard : g.guard ≠ some j) :
    g.turn j = ⟨⟨(next g.system.shared).2, g.system.registry, g.system.threads.set j
      { t with position := .inside key n (next g.system.shared).1 }⟩, g.guard⟩ := by
  refine turn_of_inside ht hposition hguard ?_
  simp only [System.step, ht, Thread.step, hposition, Option.map_some]

/-- Work that has come to its end is left in the next turn. -/
theorem exists_turn_of_end (ht : g.system.threads[j]? = some t)
    (hposition : t.position = .inside key n work) (hend : ∀ next, work ≠ .step next)
    (hguard : g.guard ≠ some j) : ∃ ending, (g.turn j).guard = g.guard
      ∧ (g.turn j).system.threads = g.system.threads.set j { t with position := .outside key n ending } := by
  have hleaves : ∃ ending panicked, g.system.step j = some ⟨g.system.shared,
      g.system.registry.leave n panicked,
      g.system.threads.set j { t with position := .outside key n ending }⟩ := by
    simp only [System.step, ht, Thread.step, hposition]
    cases work with
    | finish result => exact ⟨some result, false, rfl⟩
    | panic => exact ⟨none, true, rfl⟩
    | step next => exact absurd rfl (hend next)
  obtain ⟨ending, panicked, hstep⟩ := hleaves
  rw [turn_of_inside ht hposition hguard hstep]
  exact ⟨ending, rfl, rfl⟩

/-- Who is inside a lock leaves it after some turns, whether its work ends in a result or in a panic. -/
theorem exists_left (work : Work σ ρ) : ∀ {g : Guarded κ σ ρ} {t : Thread κ σ ρ}, g.guard ≠ some j →
    g.system.threads[j]? = some t → t.position = .inside key n work →
      ∃ turns ending, (g.run (List.replicate turns j)).guard = g.guard
        ∧ (g.run (List.replicate turns j)).system.threads
          = g.system.threads.set j { t with position := .outside key n ending } := by
  induction work using Work.induction with
  | finish | panic =>
    intro g t hguard ht hposition
    obtain ⟨ending, hleft⟩ := exists_turn_of_end ht hposition nofun hguard
    exact ⟨1, ending, hleft⟩
  | step next ih =>
    intro g t hguard ht hposition
    have hlt := (List.getElem?_eq_some_iff.1 ht).1
    have hturn := turn_of_step ht hposition hguard
    obtain ⟨turns, ending, hguard', hthreads⟩ :=
      ih g.system.shared (g := g.turn j) (by rw [hturn]; exact hguard)
        (by rw [hturn]; exact List.getElem?_set_self hlt) rfl
    rw [hturn] at hguard' hthreads
    refine ⟨turns + 1, ending, ?_, ?_⟩
    · rw [List.replicate_succ, run_cons, hturn, hguard']
    · rw [List.replicate_succ, run_cons, hturn, hthreads, List.set_set]

/-- Who waits for the lock of a key enters it now, or after some turns of the one that is inside. -/
theorem Sound.exists_enters (h : Sound g) (ht : g.system.threads[i]? = some t)
    (hposition : t.position = .waiting key n work) (hguard : g.guard ≠ some i) :
    g.Enters i key ∨ ∃ j u turns, g.system.threads[j]? = some u ∧ u.position.isInside key = true
      ∧ (g.run (List.replicate turns j)).Enters i key := by
  by_cases hnow : g.Enters i key
  · exact .inl hnow
  rw [h.enters_iff ht hposition hguard] at hnow
  simp only [not_forall, Bool.not_eq_false] at hnow
  obtain ⟨u, hmem, hinside⟩ := hnow
  obtain ⟨j, hu⟩ := List.getElem?_of_mem hmem
  obtain ⟨m, v, hum⟩ := System.exists_inside_of_isInside hinside
  have hji : j ≠ i := by
    rintro rfl
    rw [ht] at hu
    cases hu
    rw [hposition] at hum
    cases hum
  have howner : g.guard ≠ some j := by
    intro heq
    obtain ⟨u', hu', hwithin⟩ := h.owner j heq
    rw [hu] at hu'
    cases hu'
    rw [hum] at hwithin
    cases hwithin
  obtain ⟨turns, ending, hguard', hthreads⟩ := exists_left v howner hu hum
  refine .inr ⟨j, u, turns, hu, hinside, ?_⟩
  have hstays : (g.run (List.replicate turns j)).system.threads[i]? = some t := by
    rw [hthreads, List.getElem?_set_ne hji, ht]
  rw [(h.run _).enters_iff hstays hposition (by rw [hguard']; exact hguard), hthreads]
  -- The one that was inside is outside now, and it was the only one.
  intro w hw
  rw [← Bool.not_eq_true]
  intro hw'
  obtain ⟨k, hk⟩ := List.getElem?_of_mem hw
  by_cases hkj : k = j
  · subst hkj
    rw [List.getElem?_set_self (List.getElem?_eq_some_iff.1 hu).1] at hk
    cases hk
    cases hw'
  · rw [List.getElem?_set_ne (Ne.symm hkj)] at hk
    obtain ⟨l, x, hx⟩ := System.exists_inside_of_isInside hw'
    exact hkj (h.system.eq_of_inside hk hu hx hum)

/-! ## Every state that threads can reach -/

/-- Threads before any of their calls has begun, and nobody at the table. -/
def start (shared : σ) (calls : List (List (Call κ σ ρ))) : Guarded κ σ ρ := ⟨System.start shared calls, none⟩

theorem sound_start (shared : σ) (calls : List (List (Call κ σ ρ))) : Sound (start shared calls) :=
  ⟨System.sound_start shared calls, List.nodup_nil, nofun⟩

/-- However the steps of any number of threads follow each other, whatever their work is and whether or
not it ends in a panic:

* a thread that has joined the users of the lock of a key enters it if and only if nobody is inside, and
  if somebody is, then it can do so after some turns of that one alone;
* who holds the guard of the table gives it back in two turns of its own;
* unless all calls are made, some thread can take a step;
* a thread whose own work does not end in a panic has a result for every call that it has made. -/
theorem enters_run_iff (shared : σ) (calls : List (List (Call κ σ ρ))) (schedule : List Nat) :
    let g := (start shared calls).run schedule
    (∀ i t key n work, g.system.threads[i]? = some t → t.position = .waiting key n work →
      g.guard ≠ some i →
        (g.Enters i key ↔ ∀ u ∈ g.system.threads, u.position.isInside key = false)
        ∧ (g.Enters i key ∨ ∃ j u turns, g.system.threads[j]? = some u ∧ u.position.isInside key = true
          ∧ (g.run (List.replicate turns j)).Enters i key))
    ∧ (∀ i, g.guard = some i → ∃ turns ≤ 2, (g.run (List.replicate turns i)).guard = none)
    ∧ (g.system.isDone = false → ∃ i g', g.step i = some g')
    ∧ ∀ (i : Nat) (todo : List (Call κ σ ρ)) (t : Thread κ σ ρ), calls[i]? = some todo →
      (∀ call ∈ todo, call.Calm) → g.system.threads[i]? = some t → none ∉ t.endings := by
  intro g
  have hsound : Sound g := (sound_start shared calls).run schedule
  refine ⟨fun i t key n work ht hposition hguard =>
      ⟨hsound.enters_iff ht hposition hguard, hsound.exists_enters ht hposition hguard⟩,
    fun i hguard => hsound.exists_given_back hguard, hsound.exists_step, ?_⟩
  intro i todo t htodo hcalm ht
  obtain ⟨coarse, hcoarse⟩ := exists_run_system (start shared calls) schedule
  have hfirst : ∀ t, (System.start shared calls).threads[i]? = some t → t.Calm := by
    intro t ht
    rw [System.start, List.getElem?_map, htodo] at ht
    cases ht
    exact ⟨hcalm, trivial, List.not_mem_nil⟩
  refine (System.calm_run hfirst coarse t ?_).endings
  rw [← ht]
  exact congrArg (fun s : System κ σ ρ => s.threads[i]?) hcoarse.symm

/-- One thread waits for the lock that another has left in a panic, while a third, with the guard, joins
the users of the lock of another key. -/
def poisonedLock : Guarded String Unit Unit :=
  (start () [[.under "log" .panic], [.under "log" (.finish ())], [.under "other" (.finish ())]]).run
    [0, 0, 0, 0, 0, 1, 1, 1, 1, 0, 2, 2]

theorem enters_run_iff_poisonedLock :
    poisonedLock.system.registry.locks = [(0, { users := 3, poisoned := true })]
      ∧ poisonedLock.guard = some 2 ∧ poisonedLock.Enters 1 "log"
      ∧ (∃ turns ≤ 2, (poisonedLock.run (List.replicate turns 2)).guard = none)
      ∧ (∃ i g', poisonedLock.step i = some g')
      ∧ ∀ t, poisonedLock.system.threads[1]? = some t → none ∉ t.endings := by
  obtain ⟨hwaits, hguard, hstep, hcalm⟩ := enters_run_iff ()
    [[.under "log" .panic], [.under "log" (.finish ())], [.under "other" (.finish ())]]
    [0, 0, 0, 0, 0, 1, 1, 1, 1, 0, 2, 2]
  have hfree : ∀ u ∈ poisonedLock.system.threads, u.position.isInside "log" = false := by decide
  refine ⟨rfl, rfl, (hwaits 1 _ "log" 0 (.finish ()) rfl rfl (by decide)).1.2 hfree, hguard 2 rfl,
    hstep rfl, fun t ht => hcalm 1 _ t rfl ?_ ht⟩
  intro call hmem
  rw [List.mem_singleton] at hmem
  subst hmem
  intro s s' key work hprepare
  cases hprepare
  exact .finish ()

end Guarded

end DeviceLog
