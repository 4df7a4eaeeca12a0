import DeviceLog.Proofs.Partition.Days
import DeviceLog.Proofs.Store.Runs

/-! # The paths of logs

The log of a partition is found by its path, when records are saved and when they are read.

* `Path.IsAbove`: the path of a directory on the way to another path.
* `Store.resolve_eq_pathOf`: what is made ready for a save is the path that is read.
* `Store.pathOf_identifies`: the path of a log stays below the root, tells its partition and is not on the
  way to another log.
-/

namespace DeviceLog

/-- Whether the names of a path are the first ones of another, which has more. -/
def Path.IsAbove (p q : Path) : Prop := p.names <+: q.names ∧ p.names ≠ q.names

namespace Store

theorem resolve_eq_pathOf {s : Store} {k : PartitionKey} {fs gs : FileSystem} {path : Path}
    (h : s.resolve k fs = (.ok path, gs)) : path = s.pathOf k := by
  cases hmake : FileSystem.makeDirectories (k.directoryUnder s.root) fs with
  | mk r hs =>
    cases r with
    | error e =>
      rw [resolve_of_error hmake] at h
      cases h
    | ok u =>
      rw [resolve_of_ok hmake] at h
      cases h
      rfl

theorem not_isAbove_pathUnder {a b : PartitionKey} (ha : a.Valid) (hb : b.Valid) (root : Path) :
    ¬(a.pathUnder root).IsAbove (b.pathUnder root) := by
  rintro ⟨hbegins, hne⟩
  rw [PartitionKey.names_pathUnder ha, PartitionKey.names_pathUnder hb] at hbegins hne
  apply hne
  apply hbegins.eq_of_length
  simp [PartitionKey.names, PartitionKey.directoryNames]

theorem eq_iff_of_instants {namespaceId namespaceId' deviceId deviceId' : String} {i i' : Instant} :
    PartitionKey.of namespaceId deviceId i = .of namespaceId' deviceId' i'
      ↔ namespaceId = namespaceId' ∧ deviceId = deviceId' ∧ i.localHours = i'.localHours := by
  rw [← Instant.date_hour_iff]
  simp only [PartitionKey.of, PartitionKey.mk.injEq]

/-- The path of a log is the same for a save and for a reader. It has five names besides those of the
root, each of which leads one step down. It tells the ids and the hour on the clocks of the zone, and it
is no directory on the way to another log. -/
theorem pathOf_identifies (s : Store) {namespaceId namespaceId' deviceId deviceId' : String}
    (hids : checkIds namespaceId deviceId = .ok ()) (hids' : checkIds namespaceId' deviceId' = .ok ())
    (i i' : Instant) :
    let path := s.pathOf (.of namespaceId deviceId i)
    let other := s.pathOf (.of namespaceId' deviceId' i')
    let five := [namespaceId, deviceId, i.date.text, toString i.hour, "device_state_" ++ deviceId ++ ".avro"]
    (∀ fs gs found, s.resolve (.of namespaceId deviceId i) fs = (.ok found, gs) → found = path)
      ∧ path.names = s.root.names ++ five
      ∧ (∀ name ∈ five, Path.IsStep name)
      ∧ (path.names = other.names ↔ namespaceId = namespaceId' ∧ deviceId = deviceId'
        ∧ (i.seconds + i.offset) / 3600 = (i'.seconds + i'.offset) / 3600)
      ∧ ¬path.IsAbove other := by
  intro path other five
  have hk := (checkIds_eq_ok_iff i).1 hids
  have hk' := (checkIds_eq_ok_iff i').1 hids'
  refine ⟨fun fs gs found h => resolve_eq_pathOf h, PartitionKey.names_pathUnder hk s.root,
    PartitionKey.isStep_of_mem_names hk, ?_, not_isAbove_pathUnder hk hk' s.root⟩
  constructor
  · intro hnames
    exact eq_iff_of_instants.1 (PartitionKey.names_pathUnder_inj hk hk' hnames)
  · intro hsame
    have hkey : PartitionKey.of namespaceId deviceId i = .of namespaceId' deviceId' i' :=
      eq_iff_of_instants.2 hsame
    show (s.pathOf (.of namespaceId deviceId i)).names = _
    rw [hkey]

/-- The first second of 1970, in universal time and in a zone that is an hour ahead. -/
def midnight : Instant := SaveCall.firstCall.instant

def oneAhead : Instant := { midnight with offset := 3600, offset_lt := by decide, isShown_local := by decide }

/-- The hour of the zone is in the path, and so are the ids. -/
theorem pathOf_identifies_oneAhead :
    (checkIds "ns" "dev" = .ok () ∧ checkIds "ns" "dev" = .ok ())
    ∧ ((Store.mk ⟨"store"⟩ .null).pathOf (.of "ns" "dev" midnight)).names
      = ["store", "ns", "dev", "1970-01-01", "0", "device_state_dev.avro"]
    ∧ ((Store.mk ⟨"store"⟩ .null).pathOf (.of "ns" "dev" midnight)).names
      ≠ ((Store.mk ⟨"store"⟩ .null).pathOf (.of "ns" "dev" oneAhead)).names := by
  have hids : checkIds "ns" "dev" = .ok () := rfl
  obtain ⟨-, hnames, -, hsame, -⟩ := pathOf_identifies ⟨⟨"store"⟩, .null⟩ hids hids midnight oneAhead
  refine ⟨⟨hids, hids⟩, hnames, ?_⟩
  intro heq
  have hhours := (hsame.1 heq).2.2
  exact absurd hhours (by decide)

end Store

end DeviceLog
