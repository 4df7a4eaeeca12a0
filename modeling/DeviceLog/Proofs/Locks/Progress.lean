import DeviceLog.Proofs.Locks.Exclusion
import Mathlib.Algebra.BigOperators.Ring.Finset
import Mathlib.Algebra.Order.BigOperators.Group.Finset

/-! # Threads come to their end

* `System.Sound.exists_step`: unless all calls are made, some thread can take a step.
* `System.EndsWithin`: how many steps the threads have still to take at most, where their work under
  locks has a bound. Every step takes one off.
* `System.isDone_run_flatten`: if every thread gets its turn again and again, then all calls are made
  after that many rounds.
-/

namespace DeviceLog

variable {κ σ ρ : Type} [DecidableEq κ]

/-! ## Some thread can go on -/

theorem Thread.exists_step {t : Thread κ σ ρ} {me : Nat} {r : Registry κ} (s : σ)
    (hdone : t.isDone = false)
    (hwaiting : ∀ key n work, t.position = .waiting key n work → ∃ r', r.enter? n me = some r') :
    ∃ next, t.step me s r = some next := by
  obtain ⟨todo, position, endings⟩ := t
  cases position with
  | idle =>
    cases todo with
    | nil => cases hdone
    | cons call rest =>
      simp only [step]
      split
      · exact ⟨_, rfl⟩
      · exact ⟨_, rfl⟩
  | waiting key n work =>
    obtain ⟨r', henter⟩ := hwaiting key n work rfl
    simp only [step, henter]
    exact ⟨_, rfl⟩
  | inside key n work => cases work <;> exact ⟨_, rfl⟩
  | prepared | outside | retired => exact ⟨_, rfl⟩

namespace System

variable {s s' : System κ σ ρ} {t : Thread κ σ ρ} {me : Nat}

theorem exists_step_of_thread (ht : s.threads[me]? = some t) (hdone : t.isDone = false)
    (hwaiting : ∀ key n work, t.position = .waiting key n work →
      ∃ r, s.registry.enter? n me = some r) : ∃ s', s.step me = some s' := by
  obtain ⟨next, hstep⟩ := Thread.exists_step s.shared hdone hwaiting
  simp only [step]
  rw [ht]
  simp only [hstep, Option.map_some]
  exact ⟨_, rfl⟩

/-- Unless all calls are made, some thread can take a step. -/
theorem Sound.exists_step (h : Sound s) (hdone : s.isDone = false) :
    ∃ me s', s.step me = some s' := by
  obtain ⟨t, hmem, hbusy⟩ := List.all_eq_false.1 hdone
  rw [Bool.not_eq_true] at hbusy
  obtain ⟨i, ht⟩ := List.getElem?_of_mem hmem
  cases hheld : t.position with
  | waiting key n work =>
    have hused := h.tabled_lt_users ht (n := n) (by rw [hheld]; exact decide_eq_true rfl)
    cases hholder : s.registry.holder? n with
    | none =>
      refine ⟨i, exists_step_of_thread ht hbusy fun key' n' work' heq => ?_⟩
      rw [hheld] at heq
      cases heq
      exact Registry.exists_enter i (Nat.zero_lt_of_lt hused) hholder
    | some j =>
      obtain ⟨u, hu, hwithin⟩ := (h.holder n j).1 hholder
      have hgoes : u.isDone = false := by
        simp only [Thread.isDone]
        cases hu' : u.position with
        | inside => simp [Position.isIdle]
        | _ => rw [hu'] at hwithin; cases hwithin
      refine ⟨j, exists_step_of_thread hu hgoes fun key' n' work' heq => ?_⟩
      rw [heq] at hwithin
      cases hwithin
  | _ =>
    refine ⟨i, exists_step_of_thread ht hbusy fun key' n' work' heq => ?_⟩
    rw [hheld] at heq
    cases heq

end System

/-! ## Steps still to take -/

/-- Whether work is done after so many steps, whatever it meets. -/
def Work.Within : Nat → Work σ ρ → Prop
  | _, .finish _ | _, .panic => True
  | 0, .step _ => False
  | depth + 1, .step next => ∀ s, Within depth (next s).1

def Call.Within (depth : Nat) (c : Call κ σ ρ) : Prop :=
  ∀ s s' key work, c.prepare s = (.under key work, s') → work.Within depth

/-- The most steps that a call takes: besides those of its work there are six. -/
def callSteps (depth : Nat) : Nat := depth + 6

/-- Whether a thread comes to the end of its call in so many steps. -/
def Position.EndsWithin (k : Nat) : Position κ σ ρ → Prop
  | idle => k = 0
  | prepared _ work => ∃ depth, work.Within depth ∧ k = depth + 5
  | waiting _ _ work => ∃ depth, work.Within depth ∧ k = depth + 4
  | inside _ _ work => ∃ depth, work.Within depth ∧ k = depth + 3
  | outside _ _ _ => k = 2
  | retired _ _ _ => k = 1

def Thread.EndsWithin (depth k : Nat) (t : Thread κ σ ρ) : Prop :=
  (∀ call ∈ t.todo, call.Within depth)
    ∧ ∃ now, t.position.EndsWithin now ∧ k = now + callSteps depth * t.todo.length

/-- Every step of a thread brings it nearer to its end. -/
theorem Thread.Moves.endsWithin {me depth k : Nat} {t t' : Thread κ σ ρ} {s s' : σ}
    {r r' : Registry κ} (hmoves : Thread.Moves me t s r t' s' r') (h : t.EndsWithin depth k) :
    ∃ k', k' < k ∧ t'.EndsWithin depth k' := by
  obtain ⟨hcalls, now, hnow, rfl⟩ := h
  cases hmoves with
  -- A call that is refused counts for all of its steps at once.
  | @answer call todo =>
    cases hnow
    refine ⟨_, ?_, fun c hc => hcalls c (List.mem_cons_of_mem _ hc), 0, rfl, rfl⟩
    dsimp only [callSteps]
    rw [List.length_cons, Nat.mul_succ]
    omega
  | @prepare call todo _ _ _ _ key work hprepare =>
    cases hnow
    refine ⟨_, ?_, fun c hc => hcalls c (List.mem_cons_of_mem _ hc), depth + 5,
      ⟨depth, hcalls call List.mem_cons_self _ _ key work hprepare, rfl⟩, rfl⟩
    dsimp only [callSteps]
    rw [List.length_cons, Nat.mul_succ]
    omega
  | join =>
    obtain ⟨d, hwork, rfl⟩ := hnow
    exact ⟨_, Nat.add_lt_add_right (Nat.lt_succ_self _) _, hcalls, _, ⟨d, hwork, rfl⟩, rfl⟩
  | enter =>
    obtain ⟨d, hwork, rfl⟩ := hnow
    exact ⟨_, Nat.add_lt_add_right (Nat.lt_succ_self _) _, hcalls, _, ⟨d, hwork, rfl⟩, rfl⟩
  -- Only here the depth of the work falls; the other steps leave it as it is.
  | @work _ _ _ _ _ _ next =>
    obtain ⟨d, hwork, rfl⟩ := hnow
    cases d with
    | zero => exact absurd hwork id
    | succ d =>
      refine ⟨_, Nat.add_lt_add_right (Nat.lt_succ_self (d + 3)) _, hcalls, _, ⟨d, hwork _, rfl⟩, ?_⟩
      rfl
  | finish | panic =>
    obtain ⟨d, -, rfl⟩ := hnow
    exact ⟨_, Nat.add_lt_add_right (by omega) _, hcalls, 2, rfl, rfl⟩
  | retire =>
    cases hnow
    exact ⟨_, Nat.add_lt_add_right (Nat.lt_succ_self 1) _, hcalls, 1, rfl, rfl⟩
  | letGo =>
    cases hnow
    exact ⟨_, Nat.add_lt_add_right (Nat.lt_succ_self 0) _, hcalls, 0, rfl, rfl⟩

namespace System

variable {s s' : System κ σ ρ} {me depth k : Nat}

def EndsWithin (depth k : Nat) (s : System κ σ ρ) : Prop :=
  ∃ left : Nat → Nat, (∀ (i : Nat) (t : Thread κ σ ρ), s.threads[i]? = some t →
    t.EndsWithin depth (left i)) ∧ k = ∑ i ∈ Finset.range s.threads.length, left i

theorem EndsWithin.step (h : s.EndsWithin depth k) (hstep : s.step me = some s') :
    ∃ k', k' < k ∧ s'.EndsWithin depth k' := by
  obtain ⟨left, hleft, rfl⟩ := h
  obtain ⟨t, t', shared, registry, ht, hmoves, rfl⟩ := step_eq_some hstep
  obtain ⟨k', hlt, ht'⟩ := hmoves.endsWithin (hleft me t ht)
  have hme : me < s.threads.length := (List.getElem?_eq_some_iff.1 ht).1
  refine ⟨_, ?_, Function.update left me k', fun i u hu => ?_, rfl⟩
  · -- One summand has become less and the others are what they were.
    rw [List.length_set]
    refine Finset.sum_lt_sum (fun i _ => ?_) ⟨me, Finset.mem_range.2 hme, ?_⟩
    · by_cases hi : i = me
      · rw [hi, Function.update_self]
        exact Nat.le_of_lt hlt
      · rw [Function.update_of_ne hi]
    · rw [Function.update_self]
      exact hlt
  · by_cases hi : i = me
    · subst hi
      rw [List.getElem?_set_self hme] at hu
      cases hu
      rw [Function.update_self]
      exact ht'
    · rw [List.getElem?_set_ne (Ne.symm hi)] at hu
      rw [Function.update_of_ne hi]
      exact hleft i u hu

theorem sum_range_getElem? {α : Type} (f : List α → Nat) (lists : List (List α)) :
    ∑ i ∈ Finset.range lists.length, f ((lists[i]?).getD []) = (lists.map f).sum := by
  induction lists with
  | nil => rfl
  | cons first rest ih =>
    rw [List.length_cons, Finset.sum_range_succ', List.map_cons, List.sum_cons, ← ih]
    simp only [List.getElem?_cons_succ, List.getElem?_cons_zero, Option.getD_some]
    exact Nat.add_comm _ _

omit [DecidableEq κ] in
theorem endsWithin_start (shared : σ) {calls : List (List (Call κ σ ρ))}
    (hcalls : ∀ todo ∈ calls, ∀ call ∈ todo, call.Within depth) :
    EndsWithin depth (callSteps depth * calls.flatten.length)
      (⟨shared, {}, calls.map fun todo => { todo := todo }⟩ : System κ σ ρ) := by
  refine ⟨fun i => callSteps depth * ((calls[i]?).getD []).length, fun i t ht => ?_, ?_⟩
  · rw [List.getElem?_map, Option.map_eq_some_iff] at ht
    obtain ⟨todo, htodo, rfl⟩ := ht
    refine ⟨hcalls todo (List.mem_of_getElem? htodo), 0, rfl, ?_⟩
    simp only [htodo, Option.getD_some, Nat.zero_add]
  · -- The sum over the threads is that over all their calls.
    rw [← Finset.mul_sum, List.length_map, sum_range_getElem? List.length, List.length_flatten]

/-! ## Rounds -/

theorem run_append (s : System κ σ ρ) (schedule more : List Nat) :
    s.run (schedule ++ more) = (s.run schedule).run more :=
  List.foldl_append

theorem run_cons (s : System κ σ ρ) (me : Nat) (rest : List Nat) :
    s.run (me :: rest) = (s.turn me).run rest := rfl

theorem length_threads_turn (s : System κ σ ρ) (me : Nat) :
    (s.turn me).threads.length = s.threads.length := by
  rcases turn_cases s me with ⟨-, heq⟩ | hstep
  · rw [heq]
  · obtain ⟨t, t', shared, registry, -, -, heq⟩ := step_eq_some hstep
    rw [heq, List.length_set]

theorem length_threads_run (s : System κ σ ρ) (schedule : List Nat) :
    (s.run schedule).threads.length = s.threads.length := by
  induction schedule generalizing s with
  | nil => rfl
  | cons me rest ih => rw [run_cons, ih, length_threads_turn]

theorem EndsWithin.run (h : s.EndsWithin depth k) (schedule : List Nat) :
    ∃ k', k' ≤ k ∧ (s.run schedule).EndsWithin depth k' := by
  induction schedule generalizing s k with
  | nil => exact ⟨k, Nat.le_refl k, h⟩
  | cons me rest ih =>
    rw [run_cons]
    rcases turn_cases s me with ⟨-, heq⟩ | hstep
    · rw [heq]
      exact ih h
    · obtain ⟨k₁, hlt, hends⟩ := h.step hstep
      obtain ⟨k₂, hle, hends'⟩ := ih hends
      exact ⟨k₂, Nat.le_trans hle (Nat.le_of_lt hlt), hends'⟩

/-- A schedule in which a thread has its turn that can take a step brings the threads nearer to their
end: if no other step comes first, the thread can still take it. -/
theorem EndsWithin.run_of_mem (h : s.EndsWithin depth k) (hstep : s.step me = some s') :
    ∀ {schedule : List Nat}, me ∈ schedule → ∃ k', k' < k ∧ (s.run schedule).EndsWithin depth k'
  | [], hmem => absurd hmem List.not_mem_nil
  | first :: rest, hmem => by
    rw [run_cons]
    rcases turn_cases s first with ⟨hnone, heq⟩ | hfirst
    · -- The first turn is no step, so it is not that of the thread.
      have hrest : me ∈ rest := by
        cases hmem with
        | head => rw [hnone] at hstep; cases hstep
        | tail _ hrest => exact hrest
      rw [heq]
      exact h.run_of_mem hstep hrest
    · obtain ⟨k₁, hlt, hends⟩ := h.step hfirst
      obtain ⟨k₂, hle, hends'⟩ := hends.run rest
      exact ⟨k₂, Nat.lt_of_le_of_lt hle hlt, hends'⟩

theorem step_of_isDone (h : s.isDone = true) (me : Nat) : s.step me = none := by
  simp only [step]
  cases ht : s.threads[me]? with
  | none => rfl
  | some t =>
    have hdone := List.all_eq_true.1 h t (List.mem_of_getElem? ht)
    obtain ⟨todo, position, endings⟩ := t
    rw [Thread.isDone, Bool.and_eq_true, List.isEmpty_iff] at hdone
    obtain ⟨rfl, hidle⟩ := hdone
    cases position with
    | idle => rfl
    | _ => cases hidle

theorem run_of_isDone (h : s.isDone = true) (schedule : List Nat) : s.run schedule = s := by
  induction schedule with
  | nil => rfl
  | cons me rest ih =>
    rw [run_cons, turn, step_of_isDone h me]
    exact ih

/-- If every thread gets its turn in every round then all calls are made after enough rounds. -/
theorem isDone_run_flatten (h : Sound s) (hends : s.EndsWithin depth k) {rounds : List (List Nat)}
    (hlength : k ≤ rounds.length)
    (hfair : ∀ round ∈ rounds, ∀ i, i < s.threads.length → i ∈ round) :
    (s.run rounds.flatten).isDone = true := by
  -- The number of steps to go falls with every round, unless all calls are made.
  induction rounds generalizing s k with
  | nil =>
    cases hdone : s.isDone with
    | true => exact hdone
    | false =>
      obtain ⟨me, s', hstep⟩ := h.exists_step hdone
      obtain ⟨k', hlt, -⟩ := hends.step hstep
      exact absurd (Nat.lt_of_lt_of_le hlt hlength) (Nat.not_lt_zero k')
  | cons round rest ih =>
    cases hdone : s.isDone with
    | true =>
      rw [run_of_isDone hdone]
      exact hdone
    | false =>
      obtain ⟨me, s', hstep⟩ := h.exists_step hdone
      obtain ⟨t, t', shared, registry, ht, -, -⟩ := step_eq_some hstep
      have hme : me ∈ round :=
        hfair round List.mem_cons_self me (List.getElem?_eq_some_iff.1 ht).1
      obtain ⟨k', hlt, hends'⟩ := hends.run_of_mem hstep hme
      rw [List.flatten_cons, run_append]
      refine ih (h.run round) hends' (by rw [List.length_cons] at hlength; omega) fun r hr i hi => ?_
      rw [length_threads_run] at hi
      exact hfair r (List.mem_cons_of_mem _ hr) i hi

end System

end DeviceLog
