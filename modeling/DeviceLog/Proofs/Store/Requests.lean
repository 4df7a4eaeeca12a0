import DeviceLog.Proofs.Locks.Progress
import DeviceLog.Proofs.Store.Steps

/-! # What calls are to answer

A thread makes calls that are saves and reads. If calls are made one after another, a read answers with
the records that the calls before it have saved to its partition.

* `StoreRequest` is a call of a thread, and `answers` are the answers to a list of them in order.
* `replies` are the answers to all calls of a thread, those that are refused among them.
* `Store.Doing` says how far the work of a call under its lock has come, and `Doing.step` takes it one
  step further.
-/

namespace DeviceLog

inductive StoreRequest where
  | save (marker : Marker) (update : StateUpdate) (instant : Instant)
  | read (namespaceId deviceId : String) (instant : Instant)

namespace StoreRequest

def key : StoreRequest → PartitionKey
  | save _ u instant => u.key instant
  | read namespaceId deviceId instant => .of namespaceId deviceId instant

def call (s : Store) : StoreRequest → StoreCall
  | save marker u instant => s.saveCall marker u instant
  | read namespaceId deviceId instant => s.readCall namespaceId deviceId instant

def refusal? : StoreRequest → Option StoreAnswer
  | save _ u _ =>
    match Store.recordOf u with
    | .error e => some (.saved (.error e))
    | .ok _ => none
  | read namespaceId deviceId _ =>
    match Store.checkIds namespaceId deviceId with
    | .error e => some (.records (.error e))
    | .ok () => none

def record? : StoreRequest → Option DeviceRecord
  | save _ u _ => (Store.recordOf u).toOption
  | read _ _ _ => none

/-- The answer to an acceptable call, where its partition has these records. -/
def answer (records : List DeviceRecord) : StoreRequest → StoreAnswer
  | save _ _ _ => .saved (.ok ())
  | read _ _ _ => .records (.ok records)

/-- The records that calls have saved to a partition. -/
def recordsOf (requests : List StoreRequest) (k : PartitionKey) : List DeviceRecord :=
  (requests.filter fun q => q.key = k).filterMap record?

/-- The answers to acceptable calls, made in this order after others. -/
def answersAfter (before : List StoreRequest) : List (Nat × StoreRequest) → List (Nat × StoreAnswer)
  | [] => []
  | (i, q) :: rest => (i, q.answer (recordsOf before q.key)) :: answersAfter (before ++ [q]) rest

/-- The answers to acceptable calls of threads, made in this order. -/
def answers (history : List (Nat × StoreRequest)) : List (Nat × StoreAnswer) := answersAfter [] history

/-- What belongs to one thread. -/
def ofThread {α : Type} (i : Nat) (entries : List (Nat × α)) : List α :=
  (entries.filter fun e => e.1 = i).map Prod.snd

def accepted (requests : List StoreRequest) : List StoreRequest :=
  requests.filter fun q => q.refusal?.isNone

/-- The answers to calls, where these are the answers to the acceptable ones. -/
def replies : List StoreRequest → List StoreAnswer → List StoreAnswer
  | [], _ => []
  | q :: rest, found =>
    match q.refusal?, found with
    | some a, _ => a :: replies rest found
    | none, a :: more => a :: replies rest more
    | none, [] => []

variable {q : StoreRequest} {requests : List StoreRequest} {history : List (Nat × StoreRequest)}

/-! ## Lists of calls -/

theorem recordsOf_concat (requests : List StoreRequest) (q : StoreRequest) (k : PartitionKey) :
    recordsOf (requests ++ [q]) k
      = recordsOf requests k ++ if q.key = k then q.record?.toList else [] := by
  simp only [recordsOf]
  rw [List.filter_append, List.filterMap_append]
  by_cases hk : q.key = k
  · cases hrecord : q.record? <;> simp [hk, hrecord]
  · simp [hk]

theorem answersAfter_append (more : List (Nat × StoreRequest)) :
    ∀ (history : List (Nat × StoreRequest)) (before : List StoreRequest),
      answersAfter before (history ++ more)
        = answersAfter before history ++ answersAfter (before ++ history.map Prod.snd) more
  | [], before => by simp [answersAfter]
  | (j, p) :: rest, before => by
    rw [List.cons_append, answersAfter, answersAfter, answersAfter_append more rest]
    simp

theorem answers_concat (history : List (Nat × StoreRequest)) (i : Nat) (q : StoreRequest) :
    answers (history ++ [(i, q)])
      = answers history ++ [(i, q.answer (recordsOf (history.map Prod.snd) q.key))] :=
  answersAfter_append [(i, q)] history []

theorem length_ofThread_answersAfter (i : Nat) :
    ∀ (history : List (Nat × StoreRequest)) (before : List StoreRequest),
      (ofThread i (answersAfter before history)).length = (ofThread i history).length
  | [], _ => rfl
  | (j, p) :: rest, before => by
    have ih := length_ofThread_answersAfter i rest (before ++ [p])
    simp only [ofThread] at ih ⊢
    rw [answersAfter]
    by_cases h : j = i <;> simp_all

theorem getElem?_answers (before rest : List (Nat × StoreRequest)) (i : Nat) (q : StoreRequest) :
    (ofThread i (answers (before ++ (i, q) :: rest)))[(ofThread i before).length]?
      = some (q.answer (recordsOf (before.map Prod.snd) q.key)) := by
  have hlength := length_ofThread_answersAfter i before []
  simp only [answers]
  rw [answersAfter_append, List.nil_append, answersAfter]
  simp only [ofThread] at hlength ⊢
  rw [List.filter_append, List.map_append, List.getElem?_append_right (Nat.le_of_eq hlength), hlength,
    Nat.sub_self, List.filter_cons_of_pos (by simp), List.map_cons]
  rfl

/-- What belongs to a thread has its place among what belongs to all. -/
theorem exists_of_ofThread {α : Type} {i : Nat} {a : α} : ∀ {entries : List (Nat × α)} {front back : List α},
    ofThread i entries = front ++ a :: back →
      ∃ before rest, entries = before ++ (i, a) :: rest ∧ ofThread i before = front
  | [], front, back, h => by
    simp only [ofThread] at h
    simp at h
  | (j, b) :: rest, front, back, h => by
    by_cases hj : j = i
    · subst hj
      have hcons : ofThread j ((j, b) :: rest) = b :: ofThread j rest := by
        simp [ofThread]
      rw [hcons] at h
      cases front with
      | nil =>
        obtain ⟨rfl, -⟩ := List.cons.inj h
        exact ⟨[], rest, rfl, rfl⟩
      | cons c front =>
        obtain ⟨rfl, htail⟩ := List.cons.inj h
        obtain ⟨before, after, rfl, hbefore⟩ := exists_of_ofThread htail
        refine ⟨(j, b) :: before, after, rfl, ?_⟩
        simp [ofThread] at hbefore ⊢
        exact hbefore
    · have hskip : ∀ l, ofThread i ((j, b) :: l) = ofThread i l := by
        intro l
        simp [ofThread, hj]
      -- An entry of another thread goes in front and changes nothing.
      rw [hskip] at h
      obtain ⟨before, after, rfl, hbefore⟩ := exists_of_ofThread h
      exact ⟨(j, b) :: before, after, rfl, by rw [hskip, hbefore]⟩

theorem ofThread_concat {α : Type} (i j : Nat) (entries : List (Nat × α)) (a : α) :
    ofThread i (entries ++ [(j, a)]) = ofThread i entries ++ if j = i then [a] else [] := by
  simp only [ofThread]
  by_cases h : j = i <;> simp [h]

theorem accepted_append (requests more : List StoreRequest) :
    accepted (requests ++ more) = accepted requests ++ accepted more :=
  List.filter_append _ _

/-- A call that is refused takes no answer, and any other takes the first. -/
theorem answered_cons {q : StoreRequest} {rest : List StoreRequest} {found : List StoreAnswer}
    (h : found.length = (accepted (q :: rest)).length) :
    (∃ a, q.refusal? = some a ∧ found.length = (accepted rest).length)
      ∨ q.refusal? = none ∧ ∃ a others, found = a :: others ∧ others.length = (accepted rest).length := by
  cases hq : q.refusal? with
  | some a => exact .inl ⟨a, rfl, by simpa [accepted, hq] using h⟩
  | none =>
    cases found with
    | nil => simp [accepted, hq] at h
    | cons a others => exact .inr ⟨rfl, a, others, rfl, by simpa [accepted, hq] using h⟩

/-- Where all acceptable calls so far are answered, those that follow are answered by what follows. -/
theorem replies_append (more : List StoreRequest) (others : List StoreAnswer) :
    ∀ {requests : List StoreRequest} {found : List StoreAnswer},
      found.length = (accepted requests).length →
        replies (requests ++ more) (found ++ others) = replies requests found ++ replies more others
  | [], found, h => by
    cases List.length_eq_zero_iff.1 h
    rfl
  | q :: rest, found, h => by
    obtain ⟨a, hq, hrest⟩ | ⟨hq, a, left, rfl, hrest⟩ := answered_cons h
    · simp only [List.cons_append, replies, hq, replies_append more others hrest]
    · simp only [List.cons_append, replies, hq, replies_append more others hrest]

theorem length_replies : ∀ {requests : List StoreRequest} {found : List StoreAnswer},
    found.length = (accepted requests).length → (replies requests found).length = requests.length
  | [], _, _ => rfl
  | q :: rest, found, h => by
    obtain ⟨a, hq, hrest⟩ | ⟨hq, a, left, rfl, hrest⟩ := answered_cons h
    · simp only [replies, hq, List.length_cons, length_replies hrest]
    · simp only [replies, hq, List.length_cons, length_replies hrest]

/-- The answer to a call of a thread: that of its refusal, or that of its place among the acceptable
calls. -/
theorem getElem?_replies {a : StoreAnswer} : ∀ {requests : List StoreRequest} {found : List StoreAnswer}
    {n : Nat}, requests[n]? = some q → (replies requests found)[n]? = some a →
      q.refusal? = some a
        ∨ q.refusal? = none ∧ found[(accepted (requests.take n)).length]? = some a
  | [], _, n, hq, _ => by simp at hq
  | p :: rest, found, n, hq, ha => by
    cases hp : p.refusal? with
    | some b =>
      cases n with
      | zero =>
        cases hq
        simp only [replies, hp, List.getElem?_cons_zero] at ha
        exact .inl (hp.trans ha)
      | succ n =>
        simp only [replies, hp, List.getElem?_cons_succ] at ha hq
        simpa [accepted, hp] using getElem?_replies hq ha
    | none =>
      cases found with
      | nil => simp [replies, hp] at ha
      | cons b found =>
        cases n with
        | zero =>
          cases hq
          simp only [replies, hp, List.getElem?_cons_zero] at ha
          exact .inr ⟨hp, ha⟩
        | succ n =>
          simp only [replies, hp, List.getElem?_cons_succ] at ha hq
          simpa [accepted, hp] using getElem?_replies hq ha

/-! ## Calls that are refused and calls that are not -/

theorem exists_record {marker : Marker} {u : StateUpdate} {instant : Instant}
    (h : (save marker u instant).refusal? = none) : ∃ record, Store.recordOf u = .ok record := by
  cases hrecord : Store.recordOf u with
  | ok record => exact ⟨record, rfl⟩
  | error e => simp [refusal?, hrecord] at h

theorem checkIds_eq_ok {namespaceId deviceId : String} {instant : Instant}
    (h : (read namespaceId deviceId instant).refusal? = none) :
    Store.checkIds namespaceId deviceId = .ok () := by
  cases hids : Store.checkIds namespaceId deviceId with
  | ok u => rfl
  | error e => simp [refusal?, hids] at h

theorem valid_key (h : q.refusal? = none) : q.key.Valid := by
  cases q with
  | save marker u instant =>
    obtain ⟨record, hrecord⟩ := exists_record h
    exact ((Store.recordOf_eq_ok_iff instant).1 hrecord).1
  | read namespaceId deviceId instant => exact (Store.checkIds_eq_ok_iff instant).1 (checkIds_eq_ok h)

end StoreRequest

namespace Store

open FileSystem

/-! ## The work of a call -/

/-- The work of a call that has prepared. The log of a save can be found. -/
inductive Begun (s : Store) (fs : FileSystem) : StoreRequest → Work FileSystem StoreAnswer → Prop
  | save {marker u instant record} : recordOf u = .ok record →
      fs.find (s.pathOf (u.key instant)) = .ok (logPlace fs s.root (u.key instant)) →
      Begun s fs (.save marker u instant) (s.saveWork marker (s.pathOf (u.key instant)) record)
  | read {namespaceId deviceId instant} : checkIds namespaceId deviceId = .ok () →
      Begun s fs (.read namespaceId deviceId instant)
        (readWork (s.pathOf (.of namespaceId deviceId instant)))

/-- The work of a call that is inside the lock: what it has still to add to the records, and how it
will be answered. -/
inductive Doing (s : Store) (allowed : Codec → Prop) (fs : FileSystem)
    (records : PartitionKey → List DeviceRecord) :
    StoreRequest → List DeviceRecord → StoreAnswer → Work FileSystem StoreAnswer → Prop
  | begun {q w} : Begun s fs q w →
      Doing s allowed fs records q q.record?.toList (q.answer (records q.key)) w
  | opened {marker u instant record a old} : recordOf u = .ok record →
      fs.find (s.pathOf (u.key instant)) = .ok (logPlace fs s.root (u.key instant)) →
      a.Holds DeviceRecord.schema allowed (logPlace fs s.root (u.key instant)) old
        ((records (u.key instant)).map DeviceRecord.toDatum) fs →
      Doing s allowed fs records (.save marker u instant) [record] (.saved (.ok ()))
        (appendWork record a)
  | appended {marker u instant a old} :
      fs.find (s.pathOf (u.key instant)) = .ok (logPlace fs s.root (u.key instant)) →
      a.Holds DeviceRecord.schema allowed (logPlace fs s.root (u.key instant)) old
        ((records (u.key instant)).map DeviceRecord.toDatum) fs →
      Doing s allowed fs records (.save marker u instant) [] (.saved (.ok ())) (closeWork a)
  | done {q a} : Doing s allowed fs records q [] a (.finish a)

variable {s : Store} {allowed : Codec → Prop} {fs₀ fs gs : FileSystem}
  {records after : PartitionKey → List DeviceRecord} {q : StoreRequest} {a : StoreAnswer}
  {w : Work FileSystem StoreAnswer}

theorem find_of_grows {k : PartitionKey} (hgrows : fs.Grows gs)
    (hfind : fs.find (s.pathOf k) = .ok (logPlace fs s.root k)) :
    gs.find (s.pathOf k) = .ok (logPlace gs s.root k) := by
  rw [logPlace_of_grows hgrows]
  exact hgrows.find hfind

theorem Begun.of_grows (h : Begun s fs q w) (hgrows : fs.Grows gs) : Begun s gs q w := by
  cases h with
  | save hrecord hfind => exact .save hrecord (find_of_grows hgrows hfind)
  | read hids => exact .read hids

theorem holds_of_beside {k : PartitionKey} {appender : Appender} {old : Bytes} (hgrows : fs.Grows gs)
    (hentry : gs.entry? (logPlace gs s.root k) = fs.entry? (logPlace fs s.root k))
    (hrecords : after k = records k)
    (h : appender.Holds DeviceRecord.schema allowed (logPlace fs s.root k) old
      ((records k).map DeviceRecord.toDatum) fs) :
    appender.Holds DeviceRecord.schema allowed (logPlace gs s.root k) old
      ((after k).map DeviceRecord.toDatum) gs := by
  rw [logPlace_of_grows hgrows] at hentry ⊢
  rw [hrecords]
  exact h.of_entry hentry

/-- Work under a lock does not notice what others do to other logs. -/
theorem Doing.of_beside {pending : List DeviceRecord} (h : Doing s allowed fs records q pending a w)
    (hgrows : fs.Grows gs)
    (hentry : gs.entry? (logPlace gs s.root q.key) = fs.entry? (logPlace fs s.root q.key))
    (hrecords : after q.key = records q.key) : Doing s allowed gs after q pending a w := by
  cases h with
  | begun hbegun =>
    rw [← hrecords]
    exact .begun (hbegun.of_grows hgrows)
  | opened hrecord hfind ha =>
    exact .opened hrecord (find_of_grows hgrows hfind) (holds_of_beside hgrows hentry hrecords ha)
  | appended hfind ha =>
    exact .appended (find_of_grows hgrows hfind) (holds_of_beside hgrows hentry hrecords ha)
  | done => exact .done

theorem exists_prepare (h : Ready s.root allowed fs₀ fs records) (hq : q.refusal? = none)
    (hattain : q.record? ≠ none → Attainable fs₀ s.root q.key) :
    ∃ w gs, (q.call s).prepare fs = (.under (s.pathOf q.key).names w, gs) ∧ Begun s gs q w
      ∧ Ready s.root allowed fs₀ gs records ∧ fs.Grows gs
      ∧ ∀ k, gs.entry? (logPlace gs s.root k) = fs.entry? (logPlace fs s.root k) := by
  cases q with
  | save marker u instant =>
    obtain ⟨record, hrecord⟩ := StoreRequest.exists_record hq
    have hrecord? : (StoreRequest.save marker u instant).record? ≠ none := by
      simp [StoreRequest.record?, hrecord, Except.toOption]
    obtain ⟨gs, hprepare, hready, hgrows, hentry, hfind⟩ :=
      h.exists_prepare instant hrecord (hattain hrecord?)
    refine ⟨_, gs, ?_, .save hrecord hfind, hready, hgrows, hentry⟩
    simp only [StoreRequest.call, saveCall, hprepare]
    rfl
  | read namespaceId deviceId instant =>
    have hids := StoreRequest.checkIds_eq_ok hq
    refine ⟨_, fs, ?_, .read hids, h, .refl fs, fun _ => rfl⟩
    simp only [StoreRequest.call, readCall, hids]
    rfl

theorem prepare_of_refusal (hq : q.refusal? = some a) (fs : FileSystem) :
    (q.call s).prepare fs = (.result a, fs) := by
  cases q with
  | save marker u instant =>
    cases hrecord : recordOf u with
    | ok record => simp [StoreRequest.refusal?, hrecord] at hq
    | error e =>
      have hprepare : s.prepare u instant fs = (.error e, fs) := by
        simp only [prepare]
        rw [hrecord]
        rfl
      simp only [StoreRequest.refusal?, hrecord, Option.some.injEq] at hq
      simp only [StoreRequest.call, saveCall, hprepare, hq]
  | read namespaceId deviceId instant =>
    cases hids : checkIds namespaceId deviceId with
    | ok u => simp [StoreRequest.refusal?, hids] at hq
    | error e =>
      simp only [StoreRequest.refusal?, hids, Option.some.injEq] at hq
      simp only [StoreRequest.call, readCall, hids, hq]

/-- Work that has come to its end has added its record, and has its answer. -/
theorem Doing.eq_of_finish {pending : List DeviceRecord} {b : StoreAnswer}
    (h : Doing s allowed fs records q pending a (.finish b)) : pending = [] ∧ a = b := by
  generalize hw : Work.finish b = w at h
  cases h with
  | begun hbegun => cases hbegun <;> cases hw
  | opened => cases hw
  | appended => cases hw
  | done =>
    cases hw
    exact ⟨rfl, rfl⟩

theorem Doing.ne_panic {pending : List DeviceRecord}
    (h : Doing s allowed fs records q pending a w) : w ≠ .panic := by
  rintro rfl
  generalize hw : Work.panic = w at h
  cases h with
  | begun hbegun => cases hbegun <;> cases hw
  | opened => cases hw
  | appended => cases hw
  | done => cases hw

/-! ## Steps of the work -/

section Next

variable {next : FileSystem → Work FileSystem StoreAnswer × FileSystem} {marker : Marker} {path : Path}
  {record : DeviceRecord}

theorem next_saveWork {a : Appender} (hw : .step next = s.saveWork marker path record)
    (hopen : Appender.open path DeviceRecord.schema s.codec marker fs = (.ok a, gs)) :
    next fs = (appendWork record a, gs) := by
  have heq : next = fun fs => afterStep (appendWork record)
      (Appender.open path DeviceRecord.schema s.codec marker fs) := Work.step.inj hw
  rw [heq]
  simp only [hopen]
  rfl

theorem next_appendWork {a a' : Appender} (hw : .step next = appendWork record a)
    (happend : Appender.append record.toDatum (a, fs) = (.ok (), a', gs)) :
    next fs = (closeWork a', gs) := by
  cases hw
  simp only [happend]

theorem next_closeWork {a : Appender} (hw : .step next = closeWork a) (hclose : a.close fs = (.ok (), gs)) :
    next fs = (.finish (.saved (.ok ())), gs) := by
  cases hw
  simp only [hclose]
  rfl

theorem next_readWork {found : List DeviceRecord} (hw : .step next = readWork path)
    (hrecords : recordsAt fs path = .ok found) :
    next fs = (.finish (.records (.ok found)), fs) := by
  cases hw
  simp only [hrecords]

end Next

/-- A step of the work under a lock. What has been added to the records is no longer to be added. -/
theorem Doing.step {pending : List DeviceRecord}
    {next : FileSystem → Work FileSystem StoreAnswer × FileSystem}
    (h : Doing s allowed fs records q pending a (.step next))
    (hready : Ready s.root allowed fs₀ fs records) (hk : q.key.Valid)
    (hcodec : allowed s.codec ∧ allowed s.codec.stated)
    (hcarries : ∀ record, q.record? = some record → ∀ codec, allowed codec →
      codec.Carries record.toDatum.bytes) :
    ∃ after pending', Doing s allowed (next fs).2 after q pending' a (next fs).1
      ∧ Ready s.root allowed fs₀ (next fs).2 after ∧ Beside s.root q.key fs (next fs).2
      ∧ (∀ k, k ≠ q.key → after k = records k)
      ∧ after q.key ++ pending' = records q.key ++ pending := by
  generalize hw : Work.step next = w at h
  cases h with
  | begun hbegun =>
    cases hbegun with
    | @save marker u instant record hrecord hfind =>
      -- Opening adds nothing yet: the record is still pending.
      obtain ⟨a, old, gs, hopen, hready', hbeside, ha⟩ := hready.exists_open hk hfind hcodec marker
      have hpending : (StoreRequest.save marker u instant).record?.toList = [record] := by
        simp [StoreRequest.record?, hrecord, Except.toOption]
      rw [next_saveWork hw hopen, hpending]
      exact ⟨records, [record], .opened hrecord (find_of_grows hbeside.grows hfind) ha, hready', hbeside,
        fun _ _ => rfl, rfl⟩
    | read hids =>
      rw [next_readWork hw (hready.recordsAt_eq hk)]
      exact ⟨records, [], .done, hready, .refl _ fs, fun _ _ => rfl, rfl⟩
  | @opened marker u instant record a old hrecord hfind ha =>
    have hrecord? : (StoreRequest.save marker u instant).record? = some record := by
      simp [StoreRequest.record?, hrecord, Except.toOption]
    obtain ⟨a', gs, happend, hready', hbeside, ha'⟩ :=
      hready.exists_append hk hfind ha (hcarries record hrecord?)
    rw [next_appendWork hw happend]
    -- From here on the record is in the log, and in the records.
    refine ⟨_, [], .appended (find_of_grows hbeside.grows hfind) ha', hready', hbeside,
      fun k hne => if_neg hne, ?_⟩
    rw [List.append_nil]
    exact if_pos rfl
  | @appended marker u instant a old hfind ha =>
    obtain ⟨gs, hclose, hready', hbeside⟩ := hready.exists_close hk hfind ha
    rw [next_closeWork hw hclose]
    exact ⟨records, [], .done, hready', hbeside, fun _ _ => rfl, rfl⟩
  | done => cases hw

/-! ## How long calls take -/

/-- The most steps that the work of a call takes under its lock. -/
def workSteps : Nat := 3

theorem within_readWork (path : Path) : (readWork path).Within workSteps := by
  intro fs
  simp only
  split <;> trivial

theorem within_saveWork (s : Store) (marker : Marker) (path : Path) (record : DeviceRecord) :
    (s.saveWork marker path record).Within workSteps := by
  intro fs
  dsimp only
  cases Appender.open path DeviceRecord.schema s.codec marker fs with
  | mk r gs =>
    cases r with
    | error e => trivial
    | ok a =>
      intro hs
      dsimp only
      split
      · trivial
      · intro ks
        simp only [afterStep]
        split <;> trivial

theorem within_call (s : Store) (q : StoreRequest) : (q.call s).Within workSteps := by
  intro fs gs key work h
  cases q with
  | save marker u instant =>
    simp only [StoreRequest.call, saveCall] at h
    split at h
    · cases h
    · cases h
      exact within_saveWork s marker _ _
  | read namespaceId deviceId instant =>
    simp only [StoreRequest.call, readCall] at h
    split at h
    · cases h
    · cases h
      exact within_readWork _

end Store

end DeviceLog
