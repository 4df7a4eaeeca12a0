import DeviceLog.Proofs.Store.Runs

/-! # Saves that fail

Writes and flushes may fail at any point of a run. A save that fails takes the log back to what it
held; where there was no log, it leaves an empty file, which is no log that can be read.

* `SaveCall.read_after_error` says which partitions are read as before a save that failed, and how
  the others are read.
-/

namespace DeviceLog.SaveCall

variable {root : Path} {fs gs : FileSystem} {namespaceId deviceId : String}

/-- Whether there is an empty file at the end where a partition had no log at the beginning. -/
def LeavesEmpty (root : Path) (fs gs : FileSystem) (k : PartitionKey) : Prop :=
  fs.entry? (Store.logPlace fs root k) = none
    ∧ gs.entry? (Store.logPlace gs root k) = some (.file [])

/-- After a save that failed a partition is read as before it, unless the save has left an empty file
where the partition had no log. Such a partition, which had no records, can no longer be read. -/
theorem read_after_error {calls : List SaveCall} {c : SaveCall} {e : StoreError}
    (hroot : Store.EmptyRoot fs root) (hcarried : Carried (calls ++ [c]))
    (herror : c.run root (runAll root calls fs).2 = (.error e, gs))
    (hids : Store.checkIds namespaceId deviceId = .ok ()) (reader : Codec) (instant : Instant) :
    let k := PartitionKey.of namespaceId deviceId instant
    let before := (Store.mk root reader).read namespaceId deviceId instant (runAll root calls fs).2
    let after := (Store.mk root reader).read namespaceId deviceId instant gs
    (after = before ↔ ¬LeavesEmpty root (runAll root calls fs).2 gs k)
      ∧ (LeavesEmpty root (runAll root calls fs).2 gs k →
        k = c.key ∧ before = .ok [] ∧ after = .error (.log (.corrupt .endOfData)))
      ∧ (saved (runAll root calls fs).1 k = [] →
        before = .ok [] ∨ before = .error (.log (.corrupt .endOfData))) := by
  intro k before after
  have hcall : ∀ d ∈ calls, d ∈ calls ++ [c] := fun d hd => List.mem_append_left _ hd
  have hc : c ∈ calls ++ [c] := List.mem_append_right _ List.mem_cons_self
  have hcarries : ∀ d ∈ calls ++ [c], ∀ record, Store.recordOf d.update = .ok record →
      ∀ codec, Allowed (calls ++ [c]) codec → codec.Carries record.toDatum.bytes :=
    fun d hd record hrecord codec hcodec => hcodec d hd record hrecord
  obtain ⟨records, hholds, -, hrecords⟩ := holds_runAll (hroot.holds (Allowed (calls ++ [c])))
    (fun d hd => hcarried.allowed (hcall d hd)) (fun d hd => hcarries d (hcall d hd))
  obtain ⟨r, hs, hsave, -, -, -, hfailed⟩ := Store.save_spec (s := ⟨root, c.codec⟩) (u := c.update)
    c.marker c.instant hholds rfl (hcarried.allowed hc) (hcarries c hc)
  have hrun : (r, hs) = (.error e, gs) := hsave.symm.trans herror
  cases hrun
  obtain ⟨hheld, huntouched⟩ := hfailed e rfl
  have hbefore : before = if _ then _ else _ := Store.Holds.read_eq (s := ⟨root, reader⟩) hholds instant hids
  have hafter : after = if _ then _ else _ := Store.Holds.read_eq (s := ⟨root, reader⟩) hheld instant hids
  -- Where the save has left an empty file there were no records to lose.
  have hnone : LeavesEmpty root (runAll root calls fs).2 gs k →
      before = .ok [] ∧ after = .error (.log (.corrupt .endOfData)) := by
    rintro ⟨hmissing, hempty⟩
    have hrecords : records k = [] := by
      rcases hholds.log k ((Store.checkIds_eq_ok_iff instant).1 hids) with ⟨_, h⟩ | ⟨_, hfile, _⟩
      · exact h
      · rw [hmissing] at hfile
        cases hfile
    refine ⟨?_, hafter.trans (if_pos hempty)⟩
    rw [hmissing, if_neg (by simp), hrecords] at hbefore
    exact hbefore
  refine ⟨⟨fun hsame hleaves => ?_, fun hleaves => ?_⟩, fun hleaves => ⟨?_, hnone hleaves⟩,
    fun hsaved => ?_⟩
  · obtain ⟨hok, hcorrupt⟩ := hnone hleaves
    rw [hok, hcorrupt] at hsame
    cases hsame
  · -- A log other than that of the save is untouched, and so is that one if it was there.
    rcases huntouched k with hentry | ⟨heq, hmissing, hempty, _⟩
    · rw [hafter, hbefore, hentry]
    · rw [← heq] at hmissing hempty
      exact absurd ⟨hmissing, hempty⟩ hleaves
  · rcases huntouched k with hentry | ⟨heq, _⟩
    · rw [hleaves.1, hleaves.2] at hentry
      cases hentry
    · exact heq
  · have hempty : records k = [] := by
      have hmap := hrecords k
      rw [hsaved] at hmap
      simpa using hmap
    rw [hbefore, hempty]
    split
    · exact .inr rfl
    · exact .inl rfl

/-- A directory for records where the next write fails after ten bytes. -/
def failingStore : FileSystem := { Store.emptyStore with fates := [.cut 10] }

theorem emptyRoot_failingStore : Store.EmptyRoot failingStore ⟨"store"⟩ :=
  ⟨Store.emptyRoot_emptyStore.nothing, Store.emptyRoot_emptyStore.reachable⟩

theorem exists_error {outcome : Except StoreError Unit × FileSystem} (h : outcome.1.isOk = false) :
    ∃ e, outcome = (.error e, outcome.2) := by
  obtain ⟨r, gs⟩ := outcome
  cases r with
  | error e => exact ⟨e, rfl⟩
  | ok _ => cases h

theorem read_after_error_failingStore :
    ∃ e, (Store.EmptyRoot failingStore ⟨"store"⟩ ∧ Carried ([namelessCall] ++ [firstCall])
      ∧ firstCall.run ⟨"store"⟩ (runAll ⟨"store"⟩ [namelessCall] failingStore).2
        = (.error e, (firstCall.run ⟨"store"⟩ failingStore).2)
      ∧ Store.checkIds "ns" "dev" = .ok ())
    ∧ (Store.mk ⟨"store"⟩ .null).read "ns" "dev" firstCall.instant
        (runAll ⟨"store"⟩ [namelessCall] failingStore).2 = .ok []
    ∧ (Store.mk ⟨"store"⟩ .null).read "ns" "dev" firstCall.instant
        (firstCall.run ⟨"store"⟩ failingStore).2 = .error (.log (.corrupt .endOfData)) := by
  have hstart : (runAll ⟨"store"⟩ [namelessCall] failingStore).2 = failingStore := by rfl
  obtain ⟨e, herror⟩ := exists_error
    (show (firstCall.run ⟨"store"⟩ failingStore).1.isOk = false by decide +kernel)
  have hempty : LeavesEmpty ⟨"store"⟩ failingStore (firstCall.run ⟨"store"⟩ failingStore).2
      (.of "ns" "dev" firstCall.instant) := ⟨by rfl, by decide +kernel⟩
  rw [← hstart] at herror hempty
  have hfailed := read_after_error emptyRoot_failingStore carried_firstCalls herror
    (show Store.checkIds "ns" "dev" = .ok () from rfl) .null firstCall.instant
  obtain ⟨-, hread, hcorrupt⟩ := hfailed.2.1 hempty
  exact ⟨e, ⟨emptyRoot_failingStore, carried_firstCalls, herror, rfl⟩, hread, hcorrupt⟩

end DeviceLog.SaveCall
