import DeviceLog.Proofs.Store.Save

/-! # Saves one after another

A run is any list of saves under one root. Each of them may be made by another store, with another
codec for new logs.

* `SaveCall.runAll` follows a run and notes how every call ended.
* `SaveCall.holds_runAll` carries the invariant of the root over a whole run.
* `SaveCall.read_runAll`: if no write fails, every partition reads as the updates that were saved to
  it, in the order of their calls.
-/

namespace DeviceLog

/-- A save under some root: how a new log is compressed, its marker, and the update. -/
structure SaveCall where
  codec : Codec
  marker : Marker
  update : StateUpdate
  instant : Instant

abbrev SaveOutcome := SaveCall × Except StoreError Unit

namespace SaveCall

def key (c : SaveCall) : PartitionKey := c.update.key c.instant

def run (root : Path) (c : SaveCall) : StoreAct Unit :=
  (Store.mk root c.codec).save c.marker c.update c.instant

/-- Makes calls one after another. -/
def runAll (root : Path) : List SaveCall → FileSystem → List SaveOutcome × FileSystem
  | [], fs => ([], fs)
  | c :: calls, fs =>
    let (r, fs) := c.run root fs
    let (outcomes, fs) := runAll root calls fs
    ((c, r) :: outcomes, fs)

/-- The updates that were saved to a partition, in the order of their calls. -/
def saved (outcomes : List SaveOutcome) (k : PartitionKey) : List StateUpdate :=
  (outcomes.filter fun o => o.2.isOk ∧ o.1.key = k).map fun o => o.1.update

/-- Whether every record of these calls can be written with every codec of theirs. -/
def Carried (calls : List SaveCall) : Prop :=
  ∀ c ∈ calls, ∀ other ∈ calls, ∀ record, Store.recordOf c.update = .ok record →
    other.codec.Carries record.toDatum.bytes

/-- Whether a codec can carry every record of these calls. -/
def Allowed (calls : List SaveCall) (codec : Codec) : Prop :=
  ∀ c ∈ calls, ∀ record, Store.recordOf c.update = .ok record → codec.Carries record.toDatum.bytes

theorem Carried.allowed {calls : List SaveCall} (h : Carried calls) {c : SaveCall} (hc : c ∈ calls) :
    Allowed calls c.codec ∧ Allowed calls c.codec.stated :=
  ⟨fun other hother record hrecord => h other hother c hc record hrecord,
    fun other hother record hrecord => (h other hother c hc record hrecord).stated⟩

variable {root : Path} {allowed : Codec → Prop}

/-- The records of every partition after a run are those before it and those of the updates that were
saved, whatever has failed. If no write is to fail then no log is left empty. -/
theorem holds_runAll : ∀ {calls : List SaveCall} {fs : FileSystem}
    {records : PartitionKey → List DeviceRecord}, Store.Holds root allowed fs records →
    (∀ c ∈ calls, allowed c.codec ∧ allowed c.codec.stated) →
    (∀ c ∈ calls, ∀ record, Store.recordOf c.update = .ok record →
      ∀ codec, allowed codec → codec.Carries record.toDatum.bytes) →
    ∃ after, Store.Holds root allowed (runAll root calls fs).2 after
      ∧ (fs.Quiet → Store.NoneEmpty root fs → Store.NoneEmpty root (runAll root calls fs).2)
      ∧ ∀ k, (after k).map Except.ok
        = (records k).map Except.ok ++ (saved (runAll root calls fs).1 k).map DeviceRecord.ofUpdate
  | [], fs, records, h, _, _ => ⟨records, h, fun _ hnone => hnone, fun k => by simp [runAll, saved]⟩
  | c :: calls, fs, records, h, hcodec, hcarries => by
    obtain ⟨r, gs, hsave, -, hquiet, hok, herror⟩ :=
      Store.save_spec (s := ⟨root, c.codec⟩) (u := c.update) c.marker c.instant h rfl
        (hcodec c List.mem_cons_self) (hcarries c List.mem_cons_self)
    have hrun : c.run root fs = (r, gs) := hsave
    have houtcomes : (runAll root (c :: calls) fs).1 = (c, r) :: (runAll root calls gs).1 := by
      simp only [runAll, hrun]
    have hstate : (runAll root (c :: calls) fs).2 = (runAll root calls gs).2 := by
      simp only [runAll, hrun]
    obtain ⟨middle, hmiddle, hrecords⟩ : ∃ middle, Store.Holds root allowed gs middle
        ∧ ∀ k, (middle k).map Except.ok
          = (records k).map Except.ok ++ (saved [(c, r)] k).map DeviceRecord.ofUpdate := by
      cases r with
      | error e => exact ⟨records, (herror e rfl).1, fun k => by simp [saved, Except.isOk, Except.toBool]⟩
      | ok _ =>
        obtain ⟨record, hrecord, hholds⟩ := hok rfl
        have hupdate := ((Store.recordOf_eq_ok_iff c.instant).1 hrecord).2
        refine ⟨_, hholds, fun k => ?_⟩
        simp only [Store.withRecord]
        by_cases hkey : c.key = k
        · subst hkey
          rw [if_pos (show c.key = c.update.key c.instant from rfl)]
          simp [saved, Except.isOk, Except.toBool, hupdate, key]
        · rw [if_neg (show k ≠ c.update.key c.instant from Ne.symm hkey)]
          simp [saved, hkey]
    obtain ⟨after, hafter, hnone, hrest⟩ := holds_runAll hmiddle
      (fun d hd => hcodec d (List.mem_cons_of_mem c hd))
      (fun d hd => hcarries d (List.mem_cons_of_mem c hd))
    rw [houtcomes, hstate]
    refine ⟨after, hafter, fun hq hnone' => hnone (hquiet hq).1 ((hquiet hq).2 hnone'), fun k => ?_⟩
    have hcons : saved ((c, r) :: (runAll root calls gs).1) k
        = saved [(c, r)] k ++ saved (runAll root calls gs).1 k := by
      simp only [saved]
      rw [← List.map_append, ← List.filter_append, List.singleton_append]
    rw [hrest k, hrecords k, hcons, List.map_append, List.append_assoc]

/-- The records of a partition after a run that began below an empty root are those of the updates
that were saved with its ids and in its hour, in the order of their calls. -/
theorem read_runAll {calls : List SaveCall} {fs : FileSystem} (hroot : Store.EmptyRoot fs root)
    (hquiet : fs.Quiet) (hcarried : Carried calls) {namespaceId deviceId : String}
    (hids : Store.checkIds namespaceId deviceId = .ok ()) (reader : Codec) (instant : Instant) :
    ∃ records,
      (Store.mk root reader).read namespaceId deviceId instant (runAll root calls fs).2 = .ok records
      ∧ records.map Except.ok
        = ((runAll root calls fs).1.filter fun o => o.2.isOk
            ∧ o.1.update.namespaceId = namespaceId ∧ o.1.update.deviceId = deviceId
            ∧ o.1.instant.date = instant.date ∧ o.1.instant.hour = instant.hour).map
          fun o => DeviceRecord.ofUpdate o.1.update := by
  obtain ⟨after, hholds, hnone, hrecords⟩ := holds_runAll (hroot.holds (Allowed calls))
    (fun c hc => hcarried.allowed hc) (fun c hc record hrecord codec hcodec =>
      hcodec c hc record hrecord)
  have hk := (Store.checkIds_eq_ok_iff instant).1 hids
  refine ⟨after (.of namespaceId deviceId instant), ?_, ?_⟩
  · rw [Store.Holds.read_eq (s := ⟨root, reader⟩) hholds instant hids]
    exact if_neg (hnone hquiet hroot.noneEmpty _ hk)
  · rw [hrecords, List.map_nil, List.nil_append, saved, List.map_map]
    congr 1
    -- Two saves belong to one partition if their ids, dates and hours are the same.
    refine List.filter_congr fun o _ => ?_
    simp [key, StateUpdate.key, PartitionKey.of]

def firstCall : SaveCall :=
  ⟨.null, .numbered 0, { deviceId := "dev", namespaceId := "ns", version := 1 },
    ⟨0, 0, by decide, by decide, by decide⟩⟩

def namelessCall : SaveCall := { firstCall with update := { firstCall.update with deviceId := "" } }

theorem carried_firstCalls : Carried [namelessCall, firstCall] := by
  intro c hc other hother record hrecord
  simp only [List.mem_cons, List.not_mem_nil, or_false] at hc hother
  have hnull : other.codec = .null := by
    rcases hother with rfl | rfl <;> rfl
  rw [hnull]
  refine Codec.carries_null ?_
  rcases hc with rfl | rfl
  · cases hrecord
  · cases hrecord
    exact Nat.lt_of_le_of_lt (DeviceRecord.length_bytes_le _) (by decide)

theorem read_runAll_firstCalls :
    (Store.EmptyRoot Store.emptyStore ⟨"store"⟩ ∧ Store.emptyStore.Quiet
      ∧ Carried [namelessCall, firstCall] ∧ Store.checkIds "ns" "dev" = .ok ())
    ∧ ∀ instant, ∃ records,
      (Store.mk ⟨"store"⟩ .standard).read "ns" "dev" instant
          (runAll ⟨"store"⟩ [namelessCall, firstCall] Store.emptyStore).2 = .ok records
      ∧ records.map Except.ok
        = ((runAll ⟨"store"⟩ [namelessCall, firstCall] Store.emptyStore).1.filter fun o => o.2.isOk
            ∧ o.1.update.namespaceId = "ns" ∧ o.1.update.deviceId = "dev"
            ∧ o.1.instant.date = instant.date ∧ o.1.instant.hour = instant.hour).map
          fun o => DeviceRecord.ofUpdate o.1.update :=
  have hquiet : Store.emptyStore.Quiet := ⟨rfl, by decide⟩
  ⟨⟨Store.emptyRoot_emptyStore, hquiet, carried_firstCalls, rfl⟩, fun instant =>
    read_runAll Store.emptyRoot_emptyStore hquiet carried_firstCalls rfl .standard instant⟩

end SaveCall

end DeviceLog
