import DeviceLog.Proofs.Store.Requests
import DeviceLog.Proofs.Store.Runs

/-! # Threads that share a store take their turns

Threads save and read at the same time, in any order of their steps. What they find is what they would
find if their calls were made one after another, in the order in which they enter the locks.

* `System.entrants` are the threads that enter a lock, in that order.
* `StoreRequest.Linear` is the invariant: it holds the calls that have entered so far, and the records
  that have been written so far. `Linear.step` carries it over every step, and `Linear.run` over every
  schedule.
* `StoreRequest.linearizable` is what follows for the threads and for the partitions.
-/

namespace DeviceLog

/-! ## Who enters -/

namespace System

variable {κ σ ρ : Type}

/-- Whether no thread is inside the lock of a key. -/
def Unheld (threads : List (Thread κ σ ρ)) (key : κ) : Prop :=
  ∀ (i : Nat) (t : Thread κ σ ρ), threads[i]? = some t → ∀ n work, t.position ≠ .inside key n work

theorem unheld_of_set {threads : List (Thread κ σ ρ)} {me : Nat} {t t' : Thread κ σ ρ} {key : κ}
    (ht : threads[me]? = some t) (hout : ∀ n work, t.position ≠ .inside key n work)
    (h : Unheld (threads.set me t') key) : Unheld threads key := by
  intro i u hu
  by_cases hi : i = me
  · subst hi
    cases ht.symm.trans hu
    exact hout
  · exact h i u (by rw [List.getElem?_set_ne (Ne.symm hi)]; exact hu)

variable [DecidableEq κ]

/-- Whether the next step of a thread is to enter a lock. -/
def enters (s : System κ σ ρ) (me : Nat) : Bool :=
  match s.threads[me]? with
  | some ⟨_, .waiting _ _ _, _⟩ => (s.step me).isSome
  | _ => false

/-- The threads that enter a lock when a schedule is followed, in that order. -/
def entrants (s : System κ σ ρ) : List Nat → List Nat
  | [] => []
  | me :: rest => (if s.enters me then [me] else []) ++ (s.turn me).entrants rest

theorem enters_of_waiting {s s' : System κ σ ρ} {me n : Nat} {todo : List (Call κ σ ρ)} {key : κ}
    {work : Work σ ρ} {endings : List (Ending ρ)}
    (ht : s.threads[me]? = some ⟨todo, .waiting key n work, endings⟩) (hstep : s.step me = some s') :
    s.enters me = true := by
  simp only [enters]
  rw [ht]
  simp only [hstep, Option.isSome_some]

theorem not_enters {s : System κ σ ρ} {me : Nat} {t : Thread κ σ ρ} (ht : s.threads[me]? = some t)
    (hposition : ∀ key n work, t.position ≠ .waiting key n work) : s.enters me = false := by
  simp only [enters]
  rw [ht]
  split
  · rename_i heq
    cases heq
    exact absurd rfl (hposition _ _ _)
  · rfl

theorem not_enters_of_none {s : System κ σ ρ} {me : Nat} (hstep : s.step me = none) :
    s.enters me = false := by
  simp only [enters]
  split
  · rw [hstep]
    rfl
  · rfl

end System

namespace StoreRequest

open Store FileSystem

def start (s : Store) (fs : FileSystem) (programs : List (List StoreRequest)) :
    System (List String) FileSystem StoreAnswer :=
  ⟨fs, {}, programs.map fun program => { todo := program.map (call s) }⟩

/-! ## The invariant of a thread -/

section Threads

variable (s : Store) (allowed : Codec → Prop) (fs : FileSystem)
  (records : PartitionKey → List DeviceRecord) (requests : List StoreRequest)

/-- How far a thread has come with a call: the call if there is one, the same if it has entered the
lock, and then its answer. What a call inside a lock has still to add is missing from the records. -/
inductive InCall : Position (List String) FileSystem StoreAnswer → List StoreRequest →
    List StoreRequest → List StoreAnswer → Prop
  | idle : InCall .idle [] [] []
  | prepared {q w} : Begun s fs q w → InCall (.prepared (s.pathOf q.key).names w) [q] [] []
  | waiting {q n w} : Begun s fs q w → InCall (.waiting (s.pathOf q.key).names n w) [q] [] []
  | inside {q n w pending a} : Doing s allowed fs records q pending a w →
      recordsOf requests q.key = records q.key ++ pending →
      InCall (.inside (s.pathOf q.key).names n w) [q] [q] [a]
  | outside {q n a} : InCall (.outside (s.pathOf q.key).names n (some a)) [q] [q] [a]
  | retired {q n a} : InCall (.retired (s.pathOf q.key).names n (some a)) [q] [q] [a]

/-- A thread follows its program: its calls have entered in order, and have ended as they ought to. -/
def Follows (program part : List StoreRequest) (found : List StoreAnswer)
    (t : Thread (List String) FileSystem StoreAnswer) : Prop :=
  ∃ past now rest entered before answer, program = past ++ now ++ rest
    ∧ t.todo = rest.map (call s)
    ∧ InCall s allowed fs records requests t.position now entered answer
    ∧ (∀ q ∈ now, q.refusal? = none)
    ∧ part = accepted past ++ entered ∧ found = before ++ answer
    ∧ before.length = (accepted past).length
    ∧ t.endings.reverse = (replies past before).map some

end Threads

/-- The state of the system is that of calls made one after another: those that have entered a lock,
in this order, where some records may still have to be written. -/
structure Linear (s : Store) (allowed : Codec → Prop) (fs₀ : FileSystem)
    (programs : List (List StoreRequest)) (sys : System (List String) FileSystem StoreAnswer)
    (history : List (Nat × StoreRequest)) (records : PartitionKey → List DeviceRecord) : Prop where
  sound : sys.Sound
  ready : Ready s.root allowed fs₀ sys.shared records
  length : sys.threads.length = programs.length
  follows : ∀ (i : Nat) (program : List StoreRequest)
    (t : Thread (List String) FileSystem StoreAnswer), programs[i]? = some program →
    sys.threads[i]? = some t → Follows s allowed sys.shared records (history.map Prod.snd) program
      (ofThread i history) (ofThread i (answers history)) t
  settled : ∀ k : PartitionKey, k.Valid → System.Unheld sys.threads (s.pathOf k).names →
    recordsOf (history.map Prod.snd) k = records k

section Follows

variable {s : Store} {allowed : Codec → Prop} {fs gs : FileSystem}
  {records after : PartitionKey → List DeviceRecord} {requests more : List StoreRequest}
  {program part : List StoreRequest} {found : List StoreAnswer}
  {t : Thread (List String) FileSystem StoreAnswer} {call : StoreCall} {todo : List StoreCall}
  {endings : List (Ending StoreAnswer)} {key : List String} {n : Nat}
  {work : Work FileSystem StoreAnswer}

/-- A thread does not notice what happens to partitions that it is not inside of. -/
theorem Follows.of_same (h : Follows s allowed fs records requests program part found t)
    (hgrows : fs.Grows gs)
    (hsame : ∀ k : PartitionKey, k.Valid → (∃ n w, t.position = .inside (s.pathOf k).names n w) →
      gs.entry? (logPlace gs s.root k) = fs.entry? (logPlace fs s.root k) ∧ after k = records k
        ∧ recordsOf more k = recordsOf requests k) :
    Follows s allowed gs after more program part found t := by
  obtain ⟨past, now, rest, entered, before, answer, hprogram, htodo, hcall, haccepted, hrest⟩ := h
  refine ⟨past, now, rest, entered, before, answer, hprogram, htodo, ?_, haccepted, hrest⟩
  -- Only a call inside a lock says something about the records, and its log is the same.
  generalize hp : t.position = p at hcall hsame
  cases hcall with
  | idle => exact .idle
  | prepared hbegun => exact .prepared (hbegun.of_grows hgrows)
  | waiting hbegun => exact .waiting (hbegun.of_grows hgrows)
  | @inside q n w pending a hdoing hpending =>
    have hk := valid_key (haccepted q List.mem_cons_self)
    obtain ⟨hentry, hrecords, hrequests⟩ := hsame q.key hk ⟨n, w, rfl⟩
    refine .inside (hdoing.of_beside hgrows hentry hrecords) ?_
    rw [hrequests, hrecords]
    exact hpending
  | outside => exact .outside
  | retired => exact .retired

/-- Between two calls the next one is that of the program. If it is refused it is over at once;
otherwise it goes on when it has prepared. -/
theorem Follows.next
    (h : Follows s allowed fs records requests program part found ⟨call :: todo, .idle, endings⟩) :
    ∃ q ∈ program, call = q.call s
      ∧ (∀ a, q.refusal? = some a →
        Follows s allowed fs records requests program part found ⟨todo, .idle, some a :: endings⟩)
      ∧ (q.refusal? = none → ∀ gs w, Begun s gs q w →
        Follows s allowed gs records requests program part found
          ⟨todo, .prepared (s.pathOf q.key).names w, endings⟩) := by
  obtain ⟨past, now, rest, entered, before, answer, hprogram, htodo, hcall, haccepted, hpart, hfound,
    hlength, hendings⟩ := h
  cases hcall
  cases rest with
  | nil => cases htodo
  | cons q rest =>
    obtain ⟨rfl, rfl⟩ := List.cons.inj htodo
    rw [List.append_nil] at hprogram
    refine ⟨q, ?_, rfl, fun a ha => ?_, fun hq gs w hbegun => ?_⟩
    · rw [hprogram]
      exact List.mem_append_right _ List.mem_cons_self
    · -- A refusal is an answer to the call, but no call has been accepted.
      have hsame : accepted (past ++ [q]) = accepted past := by
        rw [accepted_append]
        simp [accepted, ha]
      refine ⟨past ++ [q], [], rest, [], before, [], ?_, rfl, .idle, List.forall_mem_nil _, ?_, hfound,
        ?_, ?_⟩
      · rw [hprogram, List.append_nil, List.append_assoc]
        rfl
      · rw [hpart, hsame]
      · rw [hlength, hsame]
      · have hreplies := replies_append [q] [] hlength
        rw [List.append_nil] at hreplies
        rw [hreplies, List.map_append, List.reverse_cons, ← hendings]
        simp [replies, ha]
    · refine ⟨past, [q], rest, [], before, [], ?_, rfl, .prepared hbegun, ?_, hpart, hfound, hlength,
        hendings⟩
      · rw [hprogram, List.append_assoc]
        rfl
      · intro p hp
        cases List.mem_singleton.1 hp
        exact hq

theorem Follows.join
    (h : Follows s allowed fs records requests program part found ⟨todo, .prepared key work, endings⟩)
    (n : Nat) :
    Follows s allowed fs records requests program part found ⟨todo, .waiting key n work, endings⟩ := by
  obtain ⟨past, now, rest, entered, before, answer, hprogram, htodo, hcall, hrest⟩ := h
  cases hcall with
  | prepared hbegun => exact ⟨past, _, rest, _, before, _, hprogram, htodo, .waiting hbegun, hrest⟩

theorem Follows.enter
    (h : Follows s allowed fs records requests program part found ⟨todo, .waiting key n work, endings⟩) :
    ∃ q ∈ program, q.refusal? = none ∧ key = (s.pathOf q.key).names
      ∧ (recordsOf requests q.key = records q.key →
        Follows s allowed fs records (requests ++ [q]) program (part ++ [q])
          (found ++ [q.answer (recordsOf requests q.key)]) ⟨todo, .inside key n work, endings⟩) := by
  obtain ⟨past, now, rest, entered, before, answer, hprogram, htodo, hcall, haccepted, hpart, hfound,
    hrest⟩ := h
  cases hcall with
  | @waiting q _ _ hbegun =>
    refine ⟨q, ?_, haccepted q List.mem_cons_self, rfl, fun hrecords => ?_⟩
    · rw [hprogram]
      simp
    · refine ⟨past, [q], rest, [q], before, [q.answer (recordsOf requests q.key)], hprogram, htodo, ?_,
        haccepted, ?_, ?_, hrest⟩
      · rw [hrecords]
        refine .inside (.begun hbegun) ?_
        rw [recordsOf_concat, if_pos rfl, hrecords]
      · rw [hpart, List.append_nil]
      · rw [hfound, List.append_nil]

theorem Follows.inside
    (h : Follows s allowed fs records requests program part found ⟨todo, .inside key n work, endings⟩) :
    ∃ q ∈ program, ∃ pending a, q.refusal? = none ∧ key = (s.pathOf q.key).names
      ∧ Doing s allowed fs records q pending a work
      ∧ recordsOf requests q.key = records q.key ++ pending
      ∧ (∀ gs after pending' w, Doing s allowed gs after q pending' a w →
        recordsOf requests q.key = after q.key ++ pending' →
          Follows s allowed gs after requests program part found ⟨todo, .inside key n w, endings⟩)
      ∧ Follows s allowed fs records requests program part found
        ⟨todo, .outside key n (some a), endings⟩ := by
  obtain ⟨past, now, rest, entered, before, answer, hprogram, htodo, hcall, haccepted, hrest⟩ := h
  cases hcall with
  | @inside q _ _ pending a hdoing hpending =>
    refine ⟨q, by rw [hprogram]; simp, pending, a, haccepted q List.mem_cons_self, rfl, hdoing, hpending,
      fun gs after pending' w hdoing' hpending' => ?_, ?_⟩
    · exact ⟨past, _, rest, _, before, _, hprogram, htodo, .inside hdoing' hpending', haccepted, hrest⟩
    · exact ⟨past, _, rest, _, before, _, hprogram, htodo, .outside, haccepted, hrest⟩

theorem Follows.retire {ending : Ending StoreAnswer}
    (h : Follows s allowed fs records requests program part found ⟨todo, .outside key n ending, endings⟩) :
    Follows s allowed fs records requests program part found
      ⟨todo, .retired key n ending, endings⟩ := by
  obtain ⟨past, now, rest, entered, before, answer, hprogram, htodo, hcall, hrest⟩ := h
  cases hcall with
  | outside => exact ⟨past, _, rest, _, before, _, hprogram, htodo, .retired, hrest⟩

/-- A call that is over has its answer among those of the calls before it. -/
theorem Follows.letGo {ending : Ending StoreAnswer}
    (h : Follows s allowed fs records requests program part found ⟨todo, .retired key n ending, endings⟩) :
    Follows s allowed fs records requests program part found ⟨todo, .idle, ending :: endings⟩ := by
  obtain ⟨past, now, rest, entered, before, answer, hprogram, htodo, hcall, haccepted, hpart, hfound,
    hlength, hendings⟩ := h
  cases hcall with
  | @retired q _ a =>
    have hq := haccepted q List.mem_cons_self
    have hone : accepted (past ++ [q]) = accepted past ++ [q] := by
      rw [accepted_append]
      simp [accepted, hq]
    refine ⟨past ++ [q], [], rest, [], before ++ [a], [], ?_, htodo, .idle, List.forall_mem_nil _, ?_,
      ?_, ?_, ?_⟩
    · rw [hprogram, List.append_nil]
    · rw [hpart, hone, List.append_nil]
    · rw [hfound, List.append_nil]
    · rw [hone, List.length_append, List.length_append, hlength]
      rfl
    · rw [replies_append [q] [a] hlength, List.map_append, List.reverse_cons, hendings]
      simp [replies, hq]

end Follows

/-! ## The invariant of the system -/

section Linear

variable {s : Store} {allowed : Codec → Prop} {fs₀ shared : FileSystem}
  {programs : List (List StoreRequest)} {sys : System (List String) FileSystem StoreAnswer}
  {history after : List (Nat × StoreRequest)} {records records' : PartitionKey → List DeviceRecord}
  {registry : Registry (List String)} {t t' : Thread (List String) FileSystem StoreAnswer}
  {me : Nat}

/-- What other threads are inside of is as it was: the log, its records, and those to be added. -/
def Same (s : Store) (fs gs : FileSystem) (records records' : PartitionKey → List DeviceRecord)
    (history after : List (Nat × StoreRequest)) (k : PartitionKey) : Prop :=
  gs.entry? (logPlace gs s.root k) = fs.entry? (logPlace fs s.root k) ∧ records' k = records k
    ∧ recordsOf (after.map Prod.snd) k = recordsOf (history.map Prod.snd) k

theorem Linear.set (h : Linear s allowed fs₀ programs sys history records)
    (hsound : System.Sound ⟨shared, registry, sys.threads.set me t'⟩)
    (ht : sys.threads[me]? = some t) (hready : Ready s.root allowed fs₀ shared records')
    (hgrows : sys.shared.Grows shared)
    (hme : ∀ program, programs[me]? = some program →
      Follows s allowed sys.shared records (history.map Prod.snd) program (ofThread me history)
        (ofThread me (answers history)) t →
      Follows s allowed shared records' (after.map Prod.snd) program (ofThread me after)
        (ofThread me (answers after)) t')
    (hparts : ∀ i, i ≠ me → ofThread i after = ofThread i history
      ∧ ofThread i (answers after) = ofThread i (answers history))
    (hothers : ∀ k : PartitionKey, k.Valid →
      (∃ i, i ≠ me ∧ ∃ u : Thread (List String) FileSystem StoreAnswer, sys.threads[i]? = some u
        ∧ ∃ n w, u.position = .inside (s.pathOf k).names n w) →
      Same s sys.shared shared records records' history after k)
    (hsettled : ∀ k : PartitionKey, k.Valid →
      System.Unheld (sys.threads.set me t') (s.pathOf k).names →
      recordsOf (after.map Prod.snd) k = records' k) :
    Linear s allowed fs₀ programs ⟨shared, registry, sys.threads.set me t'⟩ after records' where
  sound := hsound
  ready := hready
  length := by
    rw [List.length_set]
    exact h.length
  follows i program u hprogram hu := by
    by_cases hi : i = me
    · subst hi
      have hlt := (List.getElem?_eq_some_iff.1 ht).1
      rw [List.getElem?_set_self hlt] at hu
      cases hu
      exact hme program hprogram (h.follows i program t hprogram ht)
    · rw [List.getElem?_set_ne (Ne.symm hi)] at hu
      obtain ⟨hpart, hfound⟩ := hparts i hi
      rw [hpart, hfound]
      exact (h.follows i program u hprogram hu).of_same hgrows
        fun k hk hinside => hothers k hk ⟨i, hi, u, hu, hinside⟩
  settled := hsettled

/-- A step outside of all locks after which no call has entered. -/
theorem Linear.set_outside (h : Linear s allowed fs₀ programs sys history records)
    (hsound : System.Sound ⟨shared, registry, sys.threads.set me t'⟩)
    (ht : sys.threads[me]? = some t) (hout : ∀ key n w, t.position ≠ .inside key n w)
    (hready : Ready s.root allowed fs₀ shared records) (hgrows : sys.shared.Grows shared)
    (hentry : ∀ k, shared.entry? (logPlace shared s.root k)
      = sys.shared.entry? (logPlace sys.shared s.root k))
    (hme : ∀ program, programs[me]? = some program →
      Follows s allowed sys.shared records (history.map Prod.snd) program (ofThread me history)
        (ofThread me (answers history)) t →
      Follows s allowed shared records (history.map Prod.snd) program (ofThread me history)
        (ofThread me (answers history)) t') :
    Linear s allowed fs₀ programs ⟨shared, registry, sys.threads.set me t'⟩ history records :=
  h.set hsound ht hready hgrows hme (fun _ _ => ⟨rfl, rfl⟩) (fun k _ _ => ⟨hentry k, rfl, rfl⟩)
    fun k hk hunheld => h.settled k hk (System.unheld_of_set ht (hout _) hunheld)

/-- A step outside of all locks that leaves the file system as it is. -/
theorem Linear.pass (h : Linear s allowed fs₀ programs sys history records)
    (hsound : System.Sound ⟨sys.shared, registry, sys.threads.set me t'⟩)
    (ht : sys.threads[me]? = some t) (hout : ∀ key n w, t.position ≠ .inside key n w)
    (hme : ∀ program, programs[me]? = some program →
      Follows s allowed sys.shared records (history.map Prod.snd) program (ofThread me history)
        (ofThread me (answers history)) t →
      Follows s allowed sys.shared records (history.map Prod.snd) program (ofThread me history)
        (ofThread me (answers history)) t') :
    Linear s allowed fs₀ programs ⟨sys.shared, registry, sys.threads.set me t'⟩ history records :=
  h.set_outside hsound ht hout h.ready (.refl _) (fun _ => rfl) hme

theorem Linear.exists_program (h : Linear s allowed fs₀ programs sys history records)
    (ht : sys.threads[me]? = some t) :
    ∃ program, programs[me]? = some program ∧ program ∈ programs
      ∧ Follows s allowed sys.shared records (history.map Prod.snd) program (ofThread me history)
        (ofThread me (answers history)) t := by
  have hlt := (List.getElem?_eq_some_iff.1 ht).1
  rw [h.length] at hlt
  exact ⟨_, List.getElem?_eq_getElem hlt, List.getElem_mem hlt,
    h.follows me _ t (List.getElem?_eq_getElem hlt) ht⟩

variable {todo : List StoreCall} {endings : List (Ending StoreAnswer)} {key : List String} {n : Nat}
  {job : Work FileSystem StoreAnswer}

/-- A thread that is inside the lock of a partition keeps the others out. -/
theorem eq_of_same_key (hsound : System.Sound ⟨shared, registry, sys.threads.set me t'⟩)
    (ht : sys.threads[me]? = some t) {k : PartitionKey}
    (hinside : t'.position = .inside (s.pathOf k).names n job) {i : Nat}
    {u : Thread (List String) FileSystem StoreAnswer} (hu : sys.threads[i]? = some u)
    {m : Nat} {w : Work FileSystem StoreAnswer} (hin : u.position = .inside (s.pathOf k).names m w) :
    i = me := by
  -- After the step both would be inside.
  by_contra hi
  have hlt := (List.getElem?_eq_some_iff.1 ht).1
  have hme : (sys.threads.set me t')[me]? = some t' := List.getElem?_set_self hlt
  have hother : (sys.threads.set me t')[i]? = some u := by
    rw [List.getElem?_set_ne (Ne.symm hi)]
    exact hu
  exact hi (hsound.eq_of_inside hother hme hin hinside)

/-- A call that enters a lock is the last in the history. -/
theorem Linear.enter (h : Linear s allowed fs₀ programs sys history records)
    (ht : sys.threads[me]? = some ⟨todo, .waiting key n job, endings⟩)
    (hsound : System.Sound
      ⟨sys.shared, registry, sys.threads.set me ⟨todo, .inside key n job, endings⟩⟩) :
    ∃ q, Linear s allowed fs₀ programs
      ⟨sys.shared, registry, sys.threads.set me ⟨todo, .inside key n job, endings⟩⟩
      (history ++ [(me, q)]) records := by
  obtain ⟨program, hprogram, -, hfollows⟩ := h.exists_program ht
  obtain ⟨q, -, haccepted, rfl, henter⟩ := hfollows.enter
  have hk := valid_key haccepted
  have hlt := (List.getElem?_eq_some_iff.1 ht).1
  -- Nobody was inside before, so nothing was still to be added.
  have hfree : System.Unheld sys.threads (s.pathOf q.key).names := by
    intro i u hu m w hin
    cases eq_of_same_key hsound ht rfl hu hin
    cases ht.symm.trans hu
    cases hin
  have hrecords := h.settled q.key hk hfree
  refine ⟨q, h.set hsound ht h.ready (.refl _) (fun program' hprogram' _ => ?_) (fun i hi => ?_)
    (fun k _ hin => ?_) fun k hk' hunheld => ?_⟩
  · cases hprogram.symm.trans hprogram'
    rw [List.map_append, answers_concat, ofThread_concat, ofThread_concat, if_pos rfl, if_pos rfl]
    exact henter hrecords
  · rw [answers_concat, ofThread_concat, ofThread_concat, if_neg (Ne.symm hi), if_neg (Ne.symm hi),
      List.append_nil, List.append_nil]
    exact ⟨rfl, rfl⟩
  · obtain ⟨i, hi, u, hu, m, w, hin⟩ := hin
    refine ⟨rfl, rfl, ?_⟩
    have hne : q.key ≠ k := by
      rintro rfl
      exact hi (eq_of_same_key hsound ht rfl hu hin)
    rw [List.map_append, List.map_singleton, recordsOf_concat, if_neg hne, List.append_nil]
  · -- The lock that is entered is not free any more.
    have hne : q.key ≠ k := by
      rintro rfl
      exact hunheld me _ (List.getElem?_set_self hlt) _ _ rfl
    rw [List.map_append, List.map_singleton, recordsOf_concat, if_neg hne, List.append_nil]
    exact h.settled k hk' (System.unheld_of_set ht (fun _ _ => nofun) hunheld)

section Steps

variable (hcodec : allowed s.codec ∧ allowed s.codec.stated)
  (hcarries : ∀ program ∈ programs, ∀ q ∈ program, ∀ record, q.record? = some record →
    ∀ codec, allowed codec → codec.Carries record.toDatum.bytes)
  (hattain : ∀ program ∈ programs, ∀ q ∈ program, q.record? ≠ none → Attainable fs₀ s.root q.key)

include hcodec hcarries in
/-- A call that works under its lock changes at most the records of its partition. -/
theorem Linear.work (h : Linear s allowed fs₀ programs sys history records)
    {next : FileSystem → Work FileSystem StoreAnswer × FileSystem}
    (ht : sys.threads[me]? = some ⟨todo, .inside key n (.step next), endings⟩)
    (hsound : System.Sound ⟨(next sys.shared).2, registry,
      sys.threads.set me ⟨todo, .inside key n (next sys.shared).1, endings⟩⟩) :
    ∃ records', Linear s allowed fs₀ programs ⟨(next sys.shared).2, registry,
      sys.threads.set me ⟨todo, .inside key n (next sys.shared).1, endings⟩⟩ history records' := by
  obtain ⟨program, hprogram, hmem, hfollows⟩ := h.exists_program ht
  obtain ⟨q, hq, pending, a, haccepted, rfl, hdoing, hpending, hstay, -⟩ := hfollows.inside
  have hk := valid_key haccepted
  have hlt := (List.getElem?_eq_some_iff.1 ht).1
  obtain ⟨records', pending', hdoing', hready, hbeside, hothers, hsum⟩ :=
    hdoing.step h.ready hk hcodec (hcarries program hmem q hq)
  refine ⟨records', h.set hsound ht hready hbeside.grows (fun program' hprogram' _ => ?_)
    (fun _ _ => ⟨rfl, rfl⟩) (fun k _ hin => ?_) fun k hk' hunheld => ?_⟩
  · cases hprogram.symm.trans hprogram'
    exact hstay _ _ pending' _ hdoing' (hpending.trans hsum.symm)
  · obtain ⟨i, hi, u, hu, m, w, hin⟩ := hin
    have hne : k ≠ q.key := by
      rintro rfl
      exact hi (eq_of_same_key hsound ht rfl hu hin)
    exact ⟨hbeside.entry k hne, hothers k hne, rfl⟩
  · -- What this lock guards need not be settled while the thread is inside.
    have hne : k ≠ q.key := by
      rintro rfl
      exact hunheld me _ (List.getElem?_set_self hlt) _ _ rfl
    rw [hothers k hne]
    refine h.settled k hk' (System.unheld_of_set ht (fun m w hin => ?_) hunheld)
    exact hne (PartitionKey.names_pathUnder_inj hk' hk (Position.inside.inj hin).1.symm)

theorem Linear.leave (h : Linear s allowed fs₀ programs sys history records) {a : StoreAnswer}
    (ht : sys.threads[me]? = some ⟨todo, .inside key n (.finish a), endings⟩)
    (hsound : System.Sound
      ⟨sys.shared, registry, sys.threads.set me ⟨todo, .outside key n (some a), endings⟩⟩) :
    Linear s allowed fs₀ programs
      ⟨sys.shared, registry, sys.threads.set me ⟨todo, .outside key n (some a), endings⟩⟩
      history records := by
  obtain ⟨program, hprogram, -, hfollows⟩ := h.exists_program ht
  obtain ⟨q, -, pending, b, haccepted, rfl, hdoing, hpending, -, hleave⟩ := hfollows.inside
  have hk := valid_key haccepted
  obtain ⟨rfl, rfl⟩ := hdoing.eq_of_finish
  refine h.set hsound ht h.ready (.refl _) (fun program' hprogram' _ => ?_) (fun _ _ => ⟨rfl, rfl⟩)
    (fun _ _ _ => ⟨rfl, rfl, rfl⟩) fun k hk' hunheld => ?_
  · cases hprogram.symm.trans hprogram'
    exact hleave
  · by_cases hkey : k = q.key
    · -- All that the call had to add has been added.
      rw [hkey, hpending, List.append_nil]
    · refine h.settled k hk' (System.unheld_of_set ht (fun m w hin => ?_) hunheld)
      exact hkey (PartitionKey.names_pathUnder_inj hk' hk (Position.inside.inj hin).1.symm)

include hattain in
/-- A call that begins is answered at once only if it is refused. -/
theorem Linear.answer (h : Linear s allowed fs₀ programs sys history records)
    {call : StoreCall} {a : StoreAnswer} (hprepare : call.prepare sys.shared = (.result a, shared))
    (ht : sys.threads[me]? = some ⟨call :: todo, .idle, endings⟩)
    (hsound : System.Sound ⟨shared, registry, sys.threads.set me ⟨todo, .idle, some a :: endings⟩⟩) :
    Linear s allowed fs₀ programs
      ⟨shared, registry, sys.threads.set me ⟨todo, .idle, some a :: endings⟩⟩ history records := by
  obtain ⟨program, hprogram, hmem, hfollows⟩ := h.exists_program ht
  obtain ⟨q, hq, rfl, hrefused, -⟩ := hfollows.next
  cases hrefusal : q.refusal? with
  | some b =>
    cases (prepare_of_refusal hrefusal sys.shared).symm.trans hprepare
    refine h.pass hsound ht (fun _ _ _ => nofun) fun program' hprogram' _ => ?_
    cases hprogram.symm.trans hprogram'
    exact hrefused _ hrefusal
  | none =>
    obtain ⟨w, gs, hunder, -⟩ := exists_prepare h.ready hrefusal (hattain program hmem q hq)
    cases hunder.symm.trans hprepare

include hattain in
/-- A call that goes on to a lock is not refused. It has made directories at most. -/
theorem Linear.prepare (h : Linear s allowed fs₀ programs sys history records)
    {call : StoreCall} (hprepare : call.prepare sys.shared = (.under key job, shared))
    (ht : sys.threads[me]? = some ⟨call :: todo, .idle, endings⟩)
    (hsound : System.Sound
      ⟨shared, registry, sys.threads.set me ⟨todo, .prepared key job, endings⟩⟩) :
    Linear s allowed fs₀ programs
      ⟨shared, registry, sys.threads.set me ⟨todo, .prepared key job, endings⟩⟩ history records := by
  obtain ⟨program, hprogram, hmem, hfollows⟩ := h.exists_program ht
  obtain ⟨q, hq, rfl, -, hgoes⟩ := hfollows.next
  cases hrefusal : q.refusal? with
  | some a => cases (prepare_of_refusal hrefusal sys.shared).symm.trans hprepare
  | none =>
    obtain ⟨w, gs, hunder, hbegun, hready, hgrows, hentry⟩ :=
      exists_prepare h.ready hrefusal (hattain program hmem q hq)
    cases hunder.symm.trans hprepare
    refine h.set_outside hsound ht (fun _ _ _ => nofun) hready hgrows hentry
      fun program' hprogram' _ => ?_
    cases hprogram.symm.trans hprogram'
    exact hgoes hrefusal _ _ hbegun

include hcodec hcarries hattain in
/-- A step of a thread that does not wait leaves the history as it is. -/
theorem Linear.move (h : Linear s allowed fs₀ programs sys history records)
    (ht : sys.threads[me]? = some t)
    (hmoves : Thread.Moves me t sys.shared sys.registry t' shared registry)
    (hsound : System.Sound ⟨shared, registry, sys.threads.set me t'⟩)
    (hne : ∀ key n w, t.position ≠ .waiting key n w) :
    ∃ records', Linear s allowed fs₀ programs ⟨shared, registry, sys.threads.set me t'⟩ history
      records' := by
  cases hmoves with
  | answer hprepare => exact ⟨records, h.answer hattain hprepare ht hsound⟩
  | prepare hprepare => exact ⟨records, h.prepare hattain hprepare ht hsound⟩
  | join => exact ⟨records, h.pass hsound ht (fun _ _ _ => nofun) fun _ _ hfollows => hfollows.join _⟩
  | enter => exact absurd rfl (hne _ _ _)
  | work => exact h.work hcodec hcarries ht hsound
  | finish => exact ⟨records, h.leave ht hsound⟩
  | panic =>
    obtain ⟨_, _, -, hfollows⟩ := h.exists_program ht
    obtain ⟨q, -, pending, a, -, -, hdoing, -⟩ := hfollows.inside
    exact absurd rfl hdoing.ne_panic
  | retire => exact ⟨records, h.pass hsound ht (fun _ _ _ => nofun) fun _ _ hfollows => hfollows.retire⟩
  | letGo => exact ⟨records, h.pass hsound ht (fun _ _ _ => nofun) fun _ _ hfollows => hfollows.letGo⟩

include hcodec hcarries hattain in
/-- Every step keeps the invariant. The history has grown by the call that has entered, if any has. -/
theorem Linear.step (h : Linear s allowed fs₀ programs sys history records)
    {sys' : System (List String) FileSystem StoreAnswer} (hstep : sys.step me = some sys') :
    ∃ added records', Linear s allowed fs₀ programs sys' (history ++ added) records'
      ∧ added.map Prod.fst = if sys.enters me then [me] else [] := by
  have hsound := h.sound.step hstep
  obtain ⟨t, t', shared, registry, ht, hmoves, rfl⟩ := System.step_eq_some hstep
  -- Only a thread that waits enters; after any other step the history is what it was.
  by_cases hwaits : ∃ key n w, t.position = .waiting key n w
  · obtain ⟨key, n, w, hwaits⟩ := hwaits
    cases hmoves with
    | enter henter =>
      obtain ⟨q, hlinear⟩ := h.enter ht hsound
      refine ⟨[(me, q)], records, hlinear, ?_⟩
      rw [System.enters_of_waiting ht hstep]
      rfl
    | _ => cases hwaits
  · have hne : ∀ key n w, t.position ≠ .waiting key n w :=
      fun key n w heq => hwaits ⟨key, n, w, heq⟩
    obtain ⟨records', hlinear⟩ := h.move hcodec hcarries hattain ht hmoves hsound hne
    refine ⟨[], records', by rwa [List.append_nil], ?_⟩
    rw [System.not_enters ht hne]
    rfl

include hcodec hcarries hattain in
/-- Every schedule keeps the invariant. The history grows by the calls that enter. -/
theorem Linear.run (h : Linear s allowed fs₀ programs sys history records) (schedule : List Nat) :
    ∃ added records', Linear s allowed fs₀ programs (sys.run schedule) (history ++ added) records'
      ∧ added.map Prod.fst = sys.entrants schedule := by
  induction schedule generalizing sys history records with
  | nil => exact ⟨[], records, by rwa [List.append_nil], rfl⟩
  | cons me rest ih =>
    rw [System.run_cons, System.entrants]
    rcases System.turn_cases sys me with ⟨hnone, heq⟩ | hstep
    · rw [heq, System.not_enters_of_none hnone]
      exact ih h
    · obtain ⟨first, records₁, hlinear₁, hfirst⟩ := h.step hcodec hcarries hattain hstep
      obtain ⟨others, records₂, hlinear₂, hothers⟩ := ih hlinear₁
      refine ⟨first ++ others, records₂, by rwa [← List.append_assoc], ?_⟩
      rw [List.map_append, hfirst, hothers]

end Steps

theorem linear_start (hroot : EmptyRoot fs₀ s.root) (hquiet : fs₀.Quiet) (allowed : Codec → Prop)
    (programs : List (List StoreRequest)) :
    Linear s allowed fs₀ programs (start s fs₀ programs) [] fun _ => [] where
  sound := by
    have hstart := System.sound_start fs₀ (programs.map fun program => program.map (call s))
    rwa [List.map_map] at hstart
  ready := hroot.ready hquiet allowed
  length := List.length_map _
  follows i program t hprogram ht := by
    simp only [start] at ht
    rw [List.getElem?_map, hprogram] at ht
    cases ht
    exact ⟨[], [], program, [], [], [], rfl, rfl, .idle, List.forall_mem_nil _, rfl, rfl, rfl, rfl⟩
  settled _ _ _ := rfl

end Linear

/-! ## What follows -/

/-- A call has ended as it ought to: with its refusal, or with the answer that it has at its place in
the history, after the calls that its thread has made before. -/
def EndsAs (history : List (Nat × StoreRequest)) (i : Nat) (earlier : List StoreRequest)
    (q : StoreRequest) (ending : Ending StoreAnswer) : Prop :=
  (∃ a, q.refusal? = some a ∧ ending = some a)
    ∨ q.refusal? = none ∧ ∃ before rest, history = before ++ (i, q) :: rest
      ∧ ofThread i before = accepted earlier
      ∧ ending = some (q.answer (recordsOf (before.map Prod.snd) q.key))

/-- A thread agrees with a history: its acceptable calls have entered in the order of its program, and
those of its calls that have ended have ended as they ought to. -/
structure Agrees (history : List (Nat × StoreRequest)) (i : Nat) (program : List StoreRequest)
    (t : Thread (List String) FileSystem StoreAnswer) : Prop where
  order : ofThread i history <+: accepted program
  endings : ∀ n q ending, program[n]? = some q → t.endings.reverse[n]? = some ending →
    EndsAs history i (program.take n) q ending
  all : t.isDone = true → ofThread i history = accepted program ∧ t.endings.length = program.length

section Agrees

variable {s : Store} {allowed : Codec → Prop} {fs fs₀ : FileSystem}
  {programs : List (List StoreRequest)} {sys : System (List String) FileSystem StoreAnswer}
  {history : List (Nat × StoreRequest)} {records : PartitionKey → List DeviceRecord}
  {requests program : List StoreRequest} {t : Thread (List String) FileSystem StoreAnswer} {i : Nat}

theorem accepted_of_forall {requests : List StoreRequest} (h : ∀ q ∈ requests, q.refusal? = none) :
    accepted requests = requests :=
  List.filter_eq_self.2 fun q hq => by rw [h q hq]; rfl

theorem InCall.entered {p : Position (List String) FileSystem StoreAnswer} {now entered : List StoreRequest}
    {answer : List StoreAnswer} (h : InCall s allowed fs records requests p now entered answer) :
    entered <+: now := by
  cases h <;> simp

theorem endsAs_of_replies {past more : List StoreRequest} {before answer : List StoreAnswer} {n : Nat}
    {q : StoreRequest} {a : StoreAnswer} (hq : past[n]? = some q)
    (hpart : ofThread i history = accepted past ++ more)
    (hfound : ofThread i (answers history) = before ++ answer)
    (ha : (replies past before)[n]? = some a) : EndsAs history i (past.take n) q (some a) := by
  rcases getElem?_replies hq ha with hrefused | ⟨haccepted, hplace⟩
  · exact .inl ⟨a, hrefused, rfl⟩
  · obtain ⟨hn, rfl⟩ := List.getElem?_eq_some_iff.1 hq
    -- The call splits the accepted ones of its thread, and with them the history.
    have hsplit : accepted past = accepted (past.take n) ++ accepted (past.drop n) := by
      rw [← accepted_append, List.take_append_drop]
    have hfirst : accepted (past.drop n) = past[n] :: accepted (past.drop (n + 1)) := by
      rw [List.drop_eq_getElem_cons hn]
      exact List.filter_cons_of_pos (by rw [haccepted]; rfl)
    rw [hsplit, hfirst, List.append_assoc, List.cons_append] at hpart
    obtain ⟨front, rest, rfl, hfront⟩ := exists_of_ofThread hpart
    have hanswer := getElem?_answers front rest i past[n]
    rw [hfront, hfound,
      List.getElem?_append_left (List.getElem?_eq_some_iff.1 hplace).1, hplace] at hanswer
    exact .inr ⟨haccepted, front, rest, rfl, hfront, hanswer⟩

theorem Follows.agrees (h : Follows s allowed fs records requests program (ofThread i history)
    (ofThread i (answers history)) t) : Agrees history i program t := by
  obtain ⟨past, now, rest, entered, before, answer, rfl, htodo, hcall, haccepted, hpart, hfound, hlength,
    hendings⟩ := h
  have hnow := accepted_of_forall haccepted
  refine ⟨?_, fun n q ending hq hending => ?_, fun hdone => ?_⟩
  · rw [hpart, accepted_append, accepted_append, hnow, List.append_assoc]
    exact (List.prefix_append_right_inj _).2 (hcall.entered.trans (List.prefix_append _ _))
  · rw [hendings, List.getElem?_map, Option.map_eq_some_iff] at hending
    obtain ⟨a, ha, rfl⟩ := hending
    have hn : n < past.length := by
      rw [← length_replies hlength]
      exact (List.getElem?_eq_some_iff.1 ha).1
    rw [List.append_assoc, List.getElem?_append_left hn] at hq
    rw [List.append_assoc, List.take_append_of_le_length (Nat.le_of_lt hn)]
    exact endsAs_of_replies hq hpart hfound ha
  · rw [Thread.isDone, Bool.and_eq_true, List.isEmpty_iff, htodo, List.map_eq_nil_iff] at hdone
    obtain ⟨rfl, hidle⟩ := hdone
    generalize hp : t.position = p at hcall hidle
    cases hcall with
    | idle =>
      rw [hpart, List.append_nil, List.append_nil, List.append_nil, ← List.length_reverse, hendings,
        List.length_map, length_replies hlength]
      exact ⟨rfl, rfl⟩
    | _ => cases hidle

theorem endsWithin_start (s : Store) (fs : FileSystem) (programs : List (List StoreRequest)) :
    (start s fs programs).EndsWithin workSteps
      (callSteps workSteps * programs.flatten.length) := by
  have hcalls : ∀ todo ∈ programs.map (List.map (call s)), ∀ c ∈ todo, c.Within workSteps := by
    intro todo htodo c hc
    obtain ⟨program, -, rfl⟩ := List.mem_map.1 htodo
    obtain ⟨q, -, rfl⟩ := List.mem_map.1 hc
    exact within_call s q
  have hstart := System.endsWithin_start fs hcalls
  rwa [← List.map_flatten, List.length_map, List.map_map] at hstart

theorem unheld_of_isDone (h : sys.isDone = true) (key : List String) :
    System.Unheld sys.threads key := by
  intro j u hu n work hinside
  have hdone := List.all_eq_true.1 h u (List.mem_of_getElem? hu)
  rw [Thread.isDone, hinside] at hdone
  simp [Position.isIdle] at hdone

/-- When all calls are made every partition is read as the records of the history. -/
theorem Linear.read_eq (h : Linear s allowed fs₀ programs sys history records)
    (hdone : sys.isDone = true) {namespaceId deviceId : String} (instant : Instant)
    (hids : checkIds namespaceId deviceId = .ok ()) :
    s.read namespaceId deviceId instant sys.shared
      = .ok (recordsOf (history.map Prod.snd) (.of namespaceId deviceId instant)) := by
  have hk := (checkIds_eq_ok_iff instant).1 hids
  rw [h.ready.holds.read_eq instant hids, if_neg (h.ready.nonempty _ hk),
    h.settled _ hk (unheld_of_isDone hdone _)]

/-- Threads that save and read at the same time, in any order of their steps, find what they would find
if their calls were made one after another: there is a history of their acceptable calls in the order
in which they enter the locks, every thread agrees with it, and in the end every partition holds the
records that were saved to it in this order. They come to that end if each of them gets its turn again
and again. -/
theorem linearizable {s : Store} {fs : FileSystem} {programs : List (List StoreRequest)}
    (hroot : EmptyRoot fs s.root) (hquiet : fs.Quiet)
    (hcarried : ∀ program ∈ programs, ∀ q ∈ program, ∀ record, q.record? = some record →
      s.codec.Carries record.toDatum.bytes)
    (hattain : ∀ program ∈ programs, ∀ q ∈ program, q.record? ≠ none → Attainable fs s.root q.key)
    (schedule : List Nat) :
    let final := (start s fs programs).run schedule
    ∃ history : List (Nat × StoreRequest),
      history.map Prod.fst = (start s fs programs).entrants schedule
      ∧ (∀ (i : Nat) (program : List StoreRequest)
          (t : Thread (List String) FileSystem StoreAnswer), programs[i]? = some program →
        final.threads[i]? = some t → Agrees history i program t)
      ∧ (final.isDone = true → ∀ namespaceId deviceId instant, checkIds namespaceId deviceId = .ok () →
        s.read namespaceId deviceId instant final.shared
          = .ok (recordsOf (history.map Prod.snd) (.of namespaceId deviceId instant)))
      ∧ ∀ rounds : List (List Nat), callSteps workSteps * programs.flatten.length ≤ rounds.length →
        (∀ round ∈ rounds, ∀ i, i < programs.length → i ∈ round) →
          (final.run rounds.flatten).isDone = true := by
  intro final
  let allowed : Codec → Prop := fun codec => ∀ program ∈ programs, ∀ q ∈ program, ∀ record,
    q.record? = some record → codec.Carries record.toDatum.bytes
  have hcodec : allowed s.codec ∧ allowed s.codec.stated :=
    ⟨hcarried, fun program hp q hq record hr => (hcarried program hp q hq record hr).stated⟩
  obtain ⟨history, records, hlinear, horder⟩ := (linear_start hroot hquiet allowed programs).run hcodec
    (fun program hp q hq record hr codec hallowed => hallowed program hp q hq record hr) hattain schedule
  rw [List.nil_append] at hlinear
  refine ⟨history, horder, fun i program t hprogram ht => ?_, fun hdone _ _ instant hids => ?_,
    fun rounds hlength hfair => ?_⟩
  · exact (hlinear.follows i program t hprogram ht).agrees
  · exact hlinear.read_eq hdone instant hids
  · obtain ⟨k, hk, hends⟩ := (endsWithin_start s fs programs).run schedule
    refine System.isDone_run_flatten hlinear.sound hends (Nat.le_trans hk hlength)
      fun round hround i hi => ?_
    exact hfair round hround i (hlinear.length ▸ hi)

end Agrees

/-- Two threads: one saves the first version of a device and reads it, and the other names no device and
then saves the next version. -/
def twoThreads : List (List StoreRequest) :=
  let first := SaveCall.firstCall
  [[.save first.marker first.update first.instant, .read "ns" "dev" first.instant],
    [.save first.marker SaveCall.namelessCall.update first.instant,
      .save first.marker { first.update with version := 2 } first.instant]]

theorem carries_twoThreads : ∀ program ∈ twoThreads, ∀ q ∈ program, ∀ record,
    q.record? = some record → Codec.null.Carries record.toDatum.bytes := by
  intro program hprogram q hq record hrecord
  refine Codec.carries_null (Nat.lt_of_le_of_lt (DeviceRecord.length_bytes_le record) ?_)
  simp only [twoThreads, List.mem_cons, List.not_mem_nil, or_false] at hprogram
  rcases hprogram with rfl | rfl <;> simp only [List.mem_cons, List.not_mem_nil, or_false] at hq <;>
    rcases hq with rfl | rfl <;> cases hrecord <;> decide

theorem attainable_twoThreads : ∀ program ∈ twoThreads, ∀ q ∈ program, q.record? ≠ none →
    Attainable emptyStore ⟨"store"⟩ q.key := by
  decide +kernel

theorem linearizable_twoThreads :
    (EmptyRoot emptyStore ⟨"store"⟩ ∧ emptyStore.Quiet
      ∧ (∀ program ∈ twoThreads, ∀ q ∈ program, ∀ record, q.record? = some record →
        Codec.null.Carries record.toDatum.bytes)
      ∧ ∀ program ∈ twoThreads, ∀ q ∈ program, q.record? ≠ none →
        Attainable emptyStore ⟨"store"⟩ q.key)
    ∧ ∀ schedule,
      let initial := start ⟨⟨"store"⟩, .null⟩ emptyStore twoThreads
      ∃ history : List (Nat × StoreRequest),
        history.map Prod.fst = initial.entrants schedule
        ∧ (∀ (i : Nat) (program : List StoreRequest)
            (t : Thread (List String) FileSystem StoreAnswer), twoThreads[i]? = some program →
          (initial.run schedule).threads[i]? = some t → Agrees history i program t)
        ∧ ((initial.run schedule).isDone = true → ∀ namespaceId deviceId instant,
          checkIds namespaceId deviceId = .ok () →
            Store.read ⟨⟨"store"⟩, .null⟩ namespaceId deviceId instant (initial.run schedule).shared
              = .ok (recordsOf (history.map Prod.snd) (.of namespaceId deviceId instant)))
        ∧ ∀ rounds : List (List Nat), callSteps workSteps * twoThreads.flatten.length ≤ rounds.length →
          (∀ round ∈ rounds, ∀ i, i < twoThreads.length → i ∈ round) →
            ((initial.run schedule).run rounds.flatten).isDone = true :=
  have hquiet : emptyStore.Quiet := ⟨rfl, by decide⟩
  ⟨⟨emptyRoot_emptyStore, hquiet, carries_twoThreads, attainable_twoThreads⟩, fun schedule =>
    linearizable (s := ⟨⟨"store"⟩, .null⟩) emptyRoot_emptyStore hquiet carries_twoThreads
      attainable_twoThreads schedule⟩

end StoreRequest

end DeviceLog
