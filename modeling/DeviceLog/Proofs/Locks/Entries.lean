import DeviceLog.Proofs.Locks.Progress

/-! # Locks that stay in the table

The last user of a lock is to take it out of the table. A thread that retires counts the users, and
lets go of the lock only in a later step. A thread that retires in between counts one too many, and
if it is the last one with a claim then nobody takes the lock out.

* `System.Abandons` is the turn in which this happens, and `System.LeftBehind` says that it happens in
  a schedule and that nobody joins the users of the lock after that.
* `System.lookup_run_eq_none_iff`: of a key that nobody has a claim to, the table has a lock exactly
  if the lock has been left behind.
* `System.size_overtaken`: two threads are enough to leave a lock behind.
-/

namespace DeviceLog

/-! ## The table -/

namespace Registry

variable {κ : Type} {r : Registry κ} {n m : Nat}

/-- No lock is that of two keys. -/
def Apart (r : Registry κ) : Prop := (r.table.map Prod.snd).Nodup

theorem Apart.tabled_le_one (h : r.Apart) (n : Nat) : r.tabled n ≤ 1 := by
  have hcount := List.nodup_iff_count_le_one.1 h n
  rw [List.count_eq_countP, List.countP_map] at hcount
  simpa [tabled, Function.comp_def, beq_eq_decide] using hcount

variable [DecidableEq κ] {key other : κ}

theorem Apart.eq_of_lookup (h : r.Apart) (hkey : r.table.lookup key = some n)
    (hother : r.table.lookup other = some n) : key = other := by
  have hinj := List.inj_on_of_nodup_map h (mem_of_lookup hkey) (mem_of_lookup hother) rfl
  exact congrArg Prod.fst hinj

theorem apart_join (htidy : r.Tidy) (h : r.Apart) (key : κ) : (r.join key).2.Apart := by
  cases hkey : r.table.lookup key with
  | some n =>
    rw [join_of_some hkey]
    exact h
  | none =>
    -- The number of a new lock is greater than those in the table.
    rw [join_of_none hkey]
    refine List.nodup_cons.2 ⟨fun hmem => ?_, h⟩
    obtain ⟨e, he, heq⟩ := List.mem_map.1 hmem
    exact Nat.ne_of_lt (htidy.table_lt e he) heq

theorem apart_retire (h : r.Apart) (key : κ) (n : Nat) : (r.retire key n).Apart := by
  by_cases htwo : r.users n = 2
  · rw [retire_of_two htwo]
    exact h.sublist (List.filter_sublist.map _)
  · rw [retire_of_ne_two htwo]
    exact h

theorem lookup_join_of_ne (hne : other ≠ key) :
    (r.join key).2.table.lookup other = r.table.lookup other := by
  cases hkey : r.table.lookup key with
  | some n => rw [join_of_some hkey]; rfl
  | none => rw [join_of_none hkey, lookup_cons_eq, if_neg hne]

theorem lookup_retire_of_ne (htidy : r.Tidy) (hne : other ≠ key) (n : Nat) :
    (r.retire key n).table.lookup other = r.table.lookup other := by
  by_cases htwo : r.users n = 2
  · rw [retire_of_two htwo]
    show (r.table.filter _).lookup other = _
    rw [lookup_filter _ htidy.keys]
    cases r.table.lookup other with
    | none => rfl
    | some m => simp [Option.filter, hne]
  · rw [retire_of_ne_two htwo]

/-- With two users, the table and the caller, the lock goes. -/
theorem lookup_retire_of_two (htidy : r.Tidy) (htwo : r.users n = 2) :
    (r.retire key n).table.lookup key = none := by
  rw [retire_of_two htwo]
  show (r.table.filter _).lookup key = _
  rw [lookup_filter _ htidy.keys]
  cases r.table.lookup key with
  | none => rfl
  | some m => simp [Option.filter]

theorem size_eq_zero_iff : r.size = 0 ↔ ∀ key, r.table.lookup key = none := by
  rw [size, List.length_eq_zero_iff]
  constructor
  · intro hempty key
    rw [hempty]
    rfl
  · intro hnone
    cases htable : r.table with
    | nil => rfl
    | cons e rest =>
      have hfirst := hnone e.1
      rw [htable, List.lookup_cons_self] at hfirst
      cases hfirst

end Registry

variable {κ σ ρ : Type} [DecidableEq κ]

/-! ## Claims -/

/-- A step either leaves claims and the table as they are, or joins the users of a lock, or retires. -/
theorem Thread.Moves.claim_cases {me : Nat} {t t' : Thread κ σ ρ} {s s' : σ} {r r' : Registry κ}
    (h : Thread.Moves me t s r t' s' r') :
    (t'.position.claim? = t.position.claim? ∧ r'.table = r.table)
    ∨ (∃ key work, t.position = .prepared key work
      ∧ t'.position.claim? = some (key, (r.join key).1) ∧ r' = (r.join key).2)
    ∨ ∃ key n ending, t.position = .outside key n ending ∧ t'.position.claim? = none
      ∧ r' = r.retire key n := by
  cases h with
  | join => exact .inr (.inl ⟨_, _, rfl, rfl, rfl⟩)
  | retire => exact .inr (.inr ⟨_, _, _, rfl, rfl, rfl⟩)
  | enter henter =>
    obtain ⟨-, htable, -⟩ := Registry.enter_spec henter
    exact .inl ⟨rfl, htable⟩
  | answer | prepare | work | finish | panic | letGo => exact .inl ⟨rfl, rfl⟩

namespace System

variable {s s' : System κ σ ρ} {t : Thread κ σ ρ} {me n : Nat} {key : κ}

/-- Whether no thread has joined the users of the lock of a key without retiring since. -/
def Unclaimed (s : System κ σ ρ) (key : κ) : Prop :=
  ∀ t ∈ s.threads, ∀ n, t.position.claim? ≠ some (key, n)

omit [DecidableEq κ] in
theorem unclaimed_set {shared : σ} {r : Registry κ} {threads : List (Thread κ σ ρ)}
    (ht : threads[me]? = some t) {t' : Thread κ σ ρ} :
    Unclaimed ⟨shared, r, threads.set me t'⟩ key ↔ (∀ n, t'.position.claim? ≠ some (key, n))
      ∧ ∀ i u n, i ≠ me → threads[i]? = some u → u.position.claim? ≠ some (key, n) := by
  have hlt := (List.getElem?_eq_some_iff.1 ht).1
  constructor
  · intro h
    refine ⟨h t' (List.mem_of_getElem? (List.getElem?_set_self hlt)), fun i u n hne hu => ?_⟩
    exact h u (List.mem_of_getElem? ((List.getElem?_set_ne (Ne.symm hne)).trans hu)) n
  · rintro ⟨hown, hothers⟩ u hmem n
    obtain ⟨i, hu⟩ := List.getElem?_of_mem hmem
    by_cases hi : i = me
    · subst hi
      rw [List.getElem?_set_self hlt] at hu
      cases hu
      exact hown n
    · rw [List.getElem?_set_ne (Ne.symm hi)] at hu
      exact hothers i u n hi hu

/-! ## How a lock is left behind -/

/-- The turn in which the last thread with a claim to the lock of a key retires, while another thread
has retired and not let go of the lock. -/
def Abandons (s : System κ σ ρ) (me : Nat) (key : κ) : Prop :=
  ∃ t n ending, s.threads[me]? = some t ∧ t.position = .outside key n ending
    ∧ (∀ i u m, i ≠ me → s.threads[i]? = some u → u.position.claim? ≠ some (key, m))
    ∧ ∃ j u other ending', j ≠ me ∧ s.threads[j]? = some u ∧ u.position = .retired other n ending'

/-- The turn in which a thread joins the users of the lock of a key. -/
def Joins (s : System κ σ ρ) (me : Nat) (key : κ) : Prop :=
  ∃ t work, s.threads[me]? = some t ∧ t.position = .prepared key work

/-- Whether the lock of a key is left in the table in the course of a schedule, with nobody joining its
users after that. -/
def LeftBehind (s : System κ σ ρ) (schedule : List Nat) (key : κ) : Prop :=
  ∃ before me after, schedule = before ++ me :: after ∧ Abandons (s.run before) me key
    ∧ ∀ first i rest, after = first ++ i :: rest → ¬Joins (s.run (before ++ me :: first)) i key

theorem not_leftBehind_nil (s : System κ σ ρ) (key : κ) : ¬LeftBehind s [] key := by
  rintro ⟨before, me, after, heq, -⟩
  exact absurd heq.symm (List.append_ne_nil_of_right_ne_nil _ (List.cons_ne_nil _ _))

theorem leftBehind_concat (s : System κ σ ρ) (schedule : List Nat) (me : Nat) (key : κ) :
    LeftBehind s (schedule ++ [me]) key
      ↔ Abandons (s.run schedule) me key ∨ LeftBehind s schedule key ∧ ¬Joins (s.run schedule) me key := by
  constructor
  · rintro ⟨before, i, after, heq, habandons, hunjoined⟩
    rcases List.eq_nil_or_concat after with rfl | ⟨after, j, rfl⟩
    · obtain ⟨rfl, hme⟩ := List.append_inj' heq rfl
      cases hme
      exact .inl habandons
    · -- The last turn is not the one in which the lock is left.
      rw [List.concat_eq_append, ← List.cons_append, ← List.append_assoc] at heq
      obtain ⟨rfl, hme⟩ := List.append_inj' heq rfl
      cases hme
      refine .inr ⟨⟨before, i, after, rfl, habandons, fun first k rest hafter => ?_⟩,
        hunjoined after me [] List.concat_eq_append⟩
      refine hunjoined first k (rest ++ [me]) ?_
      rw [hafter, List.concat_eq_append, List.append_assoc, List.cons_append]
  · rintro (habandons | ⟨⟨before, i, after, rfl, habandons, hunjoined⟩, hlast⟩)
    · refine ⟨schedule, me, [], rfl, habandons, fun first i rest heq => ?_⟩
      exact absurd heq.symm (List.append_ne_nil_of_right_ne_nil _ (List.cons_ne_nil _ _))
    · refine ⟨before, i, after ++ [me], by simp, habandons, fun first j rest heq => ?_⟩
      rcases List.eq_nil_or_concat rest with rfl | ⟨rest, k, rfl⟩
      · obtain ⟨rfl, hme⟩ := List.append_inj' heq rfl
        cases hme
        exact hlast
      · rw [List.concat_eq_append, ← List.cons_append, ← List.append_assoc] at heq
        exact hunjoined first j rest (List.append_inj' heq rfl).1

/-! ## What turns do to claims -/

theorem turn_of_outside {ending : Ending ρ} (ht : s.threads[me]? = some t)
    (hposition : t.position = .outside key n ending) :
    s.turn me = ⟨s.shared, s.registry.retire key n,
      s.threads.set me { t with position := .retired key n ending }⟩ := by
  simp [turn, step, ht, Thread.step, hposition]

theorem turn_of_prepared {work : Work σ ρ} (ht : s.threads[me]? = some t)
    (hposition : t.position = .prepared key work) :
    s.turn me = ⟨s.shared, (s.registry.join key).2,
      s.threads.set me { t with position := .waiting key (s.registry.join key).1 work }⟩ := by
  simp [turn, step, ht, Thread.step, hposition]

theorem Joins.not_unclaimed_turn (h : Joins s me key) : ¬Unclaimed (s.turn me) key := by
  obtain ⟨t, work, ht, hposition⟩ := h
  rw [turn_of_prepared ht hposition, unclaimed_set ht]
  rintro ⟨hown, -⟩
  exact hown _ rfl

/-- A lock that is left stays in the table, and nobody has a claim to it. -/
theorem Abandons.turn (h : Sound s) (habandons : Abandons s me key) :
    Unclaimed (s.turn me) key ∧ (s.turn me).registry.table.lookup key ≠ none := by
  obtain ⟨t, n, ending, ht, hposition, hlast, j, u, other, ending', hne, hu, hretired⟩ := habandons
  have hkey : s.registry.table.lookup key = some n := h.claims me t key n ht (by rw [hposition]; rfl)
  -- The table, this thread and the one that has not let go are three users.
  have hmany : s.registry.tabled n + 2 ≤ s.registry.users n :=
    h.tabled_add_two_le_users hne hu ht (by rw [hretired]; exact decide_eq_true rfl)
      (by rw [hposition]; exact decide_eq_true rfl)
  have hlisted := Registry.tabled_pos hkey
  rw [turn_of_outside ht hposition, unclaimed_set ht]
  refine ⟨⟨nofun, hlast⟩, ?_⟩
  show (s.registry.retire key n).table.lookup key ≠ none
  rw [Registry.retire_of_ne_two (by omega), hkey]
  exact Option.some_ne_none n

/-- Where nobody has a claim to a lock it stays in the table, or out of it, until somebody joins. -/
theorem Unclaimed.turn (h : Sound s) (hunclaimed : Unclaimed s key) (hjoins : ¬Joins s me key) :
    Unclaimed (s.turn me) key
      ∧ (s.turn me).registry.table.lookup key = s.registry.table.lookup key := by
  rcases turn_cases s me with ⟨-, heq⟩ | hstep
  · rw [heq]
    exact ⟨hunclaimed, rfl⟩
  obtain ⟨t, t', shared, registry, ht, hmoves, heq⟩ := step_eq_some hstep
  have hothers : ∀ i u n, i ≠ me → s.threads[i]? = some u → u.position.claim? ≠ some (key, n) :=
    fun i u n _ hu => hunclaimed u (List.mem_of_getElem? hu) n
  rw [heq, unclaimed_set ht]
  rcases hmoves.claim_cases with ⟨hclaim, htable⟩ | ⟨k, work, hposition, hclaim, rfl⟩
    | ⟨k, n, ending, hposition, hclaim, rfl⟩
  · refine ⟨⟨fun n => ?_, hothers⟩, congrArg (·.lookup key) htable⟩
    rw [hclaim]
    exact hunclaimed t (List.mem_of_getElem? ht) n
  · have hne : key ≠ k := by
      rintro rfl
      exact hjoins ⟨t, work, ht, hposition⟩
    refine ⟨⟨fun n hown => ?_, hothers⟩, Registry.lookup_join_of_ne hne⟩
    rw [hclaim] at hown
    cases hown
    exact hne rfl
  · -- Who retires has had a claim to the lock of another key.
    have hne : key ≠ k := by
      rintro rfl
      exact hunclaimed t (List.mem_of_getElem? ht) n (by rw [hposition]; rfl)
    refine ⟨⟨fun n hown => ?_, hothers⟩, Registry.lookup_retire_of_ne h.tidy hne n⟩
    rw [hclaim] at hown
    cases hown

/-- The only caller of a lock finds two users, itself and the table. -/
theorem Sound.users_eq_two (h : Sound s) (hapart : s.registry.Apart) (ht : s.threads[me]? = some t)
    (hclaim : t.position.claim? = some (key, n))
    (halone : ∀ i u, i ≠ me → s.threads[i]? = some u → u.position.uses n = false) :
    s.registry.users n = 2 := by
  have huses := Position.uses_of_claim hclaim
  have hlisted := Registry.tabled_pos (h.claims me t key n ht hclaim)
  have hone := hapart.tabled_le_one n
  have hpos : 0 < s.callers n := List.countP_pos_iff.2 ⟨t, List.mem_of_getElem? ht, huses⟩
  have hle : s.callers n ≤ 1 := by
    refine countP_le_one fun i j u v hu hv hun hvn => ?_
    have hme : ∀ k w, s.threads[k]? = some w → w.position.uses n = true → k = me := by
      intro k w hw hwn
      by_contra hne
      rw [halone k w hne hw] at hwn
      cases hwn
    exact (hme i u hu hun).trans (hme j v hv hvn).symm
  have husers := h.users n
  omega

/-- A last claim that is given up takes the lock out of the table, unless the lock is left behind. -/
theorem lookup_turn_of_claimed (h : Sound s) (hapart : s.registry.Apart) (hclaimed : ¬Unclaimed s key)
    (hunclaimed : Unclaimed (s.turn me) key) (habandons : ¬Abandons s me key) :
    (s.turn me).registry.table.lookup key = none := by
  rcases turn_cases s me with ⟨-, heq⟩ | hstep
  · rw [heq] at hunclaimed
    exact absurd hunclaimed hclaimed
  obtain ⟨t, t', shared, registry, ht, hmoves, heq⟩ := step_eq_some hstep
  rw [heq, unclaimed_set ht] at hunclaimed
  obtain ⟨hown, hothers⟩ := hunclaimed
  have hmine : ∃ n, t.position.claim? = some (key, n) := by
    by_contra hnone
    rw [not_exists] at hnone
    refine hclaimed fun u hmem n hclaim => ?_
    obtain ⟨i, hu⟩ := List.getElem?_of_mem hmem
    by_cases hi : i = me
    · subst hi
      rw [ht] at hu
      cases hu
      exact hnone n hclaim
    · exact hothers i u n hi hu hclaim
  obtain ⟨n, hclaim⟩ := hmine
  rw [heq]
  rcases hmoves.claim_cases with ⟨hsame, -⟩ | ⟨k, work, hposition, -, -⟩
    | ⟨k, m, ending, hposition, -, rfl⟩
  · exact absurd (hsame.trans hclaim) (hown n)
  · rw [hposition] at hclaim
    cases hclaim
  · have hkey : s.registry.table.lookup key = some n := h.claims me t key n ht hclaim
    rw [hposition] at hclaim
    cases hclaim
    refine Registry.lookup_retire_of_two h.tidy ?_
    refine h.users_eq_two hapart ht (by rw [hposition]; rfl) fun i u hi hu => ?_
    -- Another user has a claim to this lock, which it cannot, or has retired, and the lock is left.
    rw [← Bool.not_eq_true]
    intro huses
    cases hu' : u.position with
    | idle | prepared => rw [hu'] at huses; cases huses
    | retired other l ending' =>
      rw [hu'] at huses
      cases of_decide_eq_true huses
      exact habandons ⟨t, n, ending, ht, hposition, hothers, i, u, other, ending', hi, hu, hu'⟩
    | waiting other l _ | inside other l _ | outside other l _ =>
      rw [hu'] at huses
      cases of_decide_eq_true huses
      have hother : s.registry.table.lookup other = some n :=
        h.claims i u other n hu (by rw [hu']; rfl)
      cases hapart.eq_of_lookup hkey hother
      exact hothers i u n hi hu (by rw [hu']; rfl)

/-! ## Runs -/

theorem Sound.apart_turn (h : Sound s) (hapart : s.registry.Apart) (me : Nat) :
    (s.turn me).registry.Apart := by
  rcases turn_cases s me with ⟨-, heq⟩ | hstep
  · rw [heq]
    exact hapart
  obtain ⟨t, t', shared, registry, -, hmoves, heq⟩ := step_eq_some hstep
  rw [heq]
  rcases hmoves.claim_cases with ⟨-, htable⟩ | ⟨k, work, -, -, rfl⟩ | ⟨k, n, ending, -, -, rfl⟩
  · rw [Registry.Apart]
    dsimp only
    rw [htable]
    exact hapart
  · exact Registry.apart_join h.tidy hapart k
  · exact Registry.apart_retire hapart k n

/-- A lock is in the table, or somebody has a claim to it, or it is left behind; and to a lock that is
left behind nobody has a claim. -/
theorem Sound.leftBehind_run (h : Sound s) (hapart : s.registry.Apart)
    (hnone : s.registry.table.lookup key = none) (schedule : List Nat) :
    (s.run schedule).registry.Apart
      ∧ (LeftBehind s schedule key → Unclaimed (s.run schedule) key)
      ∧ (Unclaimed (s.run schedule) key →
        ((s.run schedule).registry.table.lookup key = none ↔ ¬LeftBehind s schedule key)) := by
  induction schedule using List.reverseRecOn with
  | nil =>
    refine ⟨hapart, fun hleft => absurd hleft (not_leftBehind_nil s key), fun _ => ?_⟩
    exact ⟨fun _ => not_leftBehind_nil s key, fun _ => hnone⟩
  | append_singleton schedule me ih =>
    obtain ⟨ihapart, ihclaim, ihiff⟩ := ih
    have hsound := h.run schedule
    have hrun : s.run (schedule ++ [me]) = (s.run schedule).turn me := run_append s schedule [me]
    rw [hrun, leftBehind_concat]
    refine ⟨hsound.apart_turn ihapart me, ?_, fun hafter => ?_⟩
    · rintro (habandons | ⟨hleft, hjoins⟩)
      · exact (Abandons.turn hsound habandons).1
      · exact ((ihclaim hleft).turn hsound hjoins).1
    · have hjoins : ¬Joins (s.run schedule) me key := fun hj => hj.not_unclaimed_turn hafter
      by_cases habandons : Abandons (s.run schedule) me key
      · have hstays := (Abandons.turn hsound habandons).2
        exact ⟨fun hgone => absurd hgone hstays, fun hnot => absurd (.inl habandons) hnot⟩
      by_cases hbefore : Unclaimed (s.run schedule) key
      · -- Nothing happens to the lock in this turn.
        rw [(hbefore.turn hsound hjoins).2, ihiff hbefore]
        simp [habandons, hjoins]
      · have hgone := lookup_turn_of_claimed hsound ihapart hbefore hafter habandons
        refine ⟨fun _ => ?_, fun _ => hgone⟩
        rintro (hnow | ⟨hleft, -⟩)
        · exact habandons hnow
        · exact hbefore (ihclaim hleft)

omit [DecidableEq κ] in
theorem unclaimed_of_isDone (h : s.isDone = true) (key : κ) : Unclaimed s key := by
  intro t ht n hclaim
  have hdone := List.all_eq_true.1 h t ht
  rw [Thread.isDone, Bool.and_eq_true] at hdone
  cases hposition : t.position with
  | idle => rw [hposition] at hclaim; cases hclaim
  | _ => rw [hposition] at hdone; cases hdone.2

/-- In every state that threads can reach, of a key that nobody has a claim to the table has a lock
exactly if the lock has been left behind. So there is no lock in the table once all calls are made,
exactly if none has been left behind. -/
theorem lookup_run_eq_none_iff (shared : σ) (calls : List (List (Call κ σ ρ))) (schedule : List Nat) :
    let s := (start shared calls).run schedule
    (∀ key, Unclaimed s key → (s.registry.table.lookup key = none
      ↔ ¬LeftBehind (start shared calls) schedule key))
    ∧ (s.isDone = true → (s.registry.size = 0
      ↔ ∀ key, ¬LeftBehind (start shared calls) schedule key)) := by
  intro s
  have hsound : Sound (start shared calls) := sound_start shared calls
  have hall : ∀ key, Unclaimed s key → (s.registry.table.lookup key = none
      ↔ ¬LeftBehind (start shared calls) schedule key) := fun key =>
    (hsound.leftBehind_run List.nodup_nil rfl schedule).2.2
  refine ⟨hall, fun hdone => ?_⟩
  rw [Registry.size_eq_zero_iff]
  exact forall_congr' fun key => hall key (unclaimed_of_isDone hdone key)

/-! ## Two threads -/

def twoCalls : List (List (Call String Unit Unit)) :=
  [[.under "log" (.finish ())], [.under "log" (.finish ())]]

/-- Both threads retire before either of them lets go. -/
def overtaking : List Nat := [0, 0, 1, 1, 0, 0, 1, 1, 0, 1, 0, 1]

/-- Both calls are made, and nobody holds the lock or waits for it; it is in the table all the same. -/
theorem size_overtaken :
    let s := (start () twoCalls).run overtaking
    s.isDone = true ∧ (s.threads.all fun t => t.position.isIdle) = true ∧ s.registry.size = 1
      ∧ s.registry.table.lookup "log" = some 0 :=
  ⟨rfl, rfl, rfl, rfl⟩

theorem lookup_run_eq_none_iff_overtaken :
    let s := (start () twoCalls).run overtaking
    s.isDone = true ∧ Unclaimed s "log" ∧ s.registry.table.lookup "log" ≠ none
      ∧ LeftBehind (start () twoCalls) overtaking "log" := by
  intro s
  have hdone : s.isDone = true := rfl
  have hstays : s.registry.table.lookup "log" ≠ none := nofun
  have hunclaimed : Unclaimed s "log" := unclaimed_of_isDone hdone "log"
  have hiff := (lookup_run_eq_none_iff () twoCalls overtaking).1 "log" hunclaimed
  exact ⟨hdone, hunclaimed, hstays, not_not.1 fun hnot => hstays (hiff.2 hnot)⟩

end System

end DeviceLog
