import DeviceLog.Proofs.Container.Exact

/-! # How often the records of a block are tried

A block states how many records it holds, and nobody checks that number before the records are read. What
ends the reading of a block that states too many is that its data end.

* `Action.counted` is an action that counts its runs. It makes no other difference
  (`Action.times_counted`), so that `Block.decoded` says how often the reader of a block reads a record.
* `Wire.Advances k p`: a value of `p` takes `k` bytes at least. A record takes one for each field.
* `Block.decoded_bound`: there is one attempt more than bytes at most, unless records have no fields.
-/

namespace DeviceLog

namespace Action

variable {ε σ α : Type} {p : Action ε σ α}

/-- An action that counts how often it is run. -/
def counted (p : Action ε σ α) : Action ε (Nat × σ) α := fun (runs, s) =>
  ((p s).1, runs + 1, (p s).2)

theorem counted_of_eq {s s' : σ} {r : Except ε α} (h : p s = (r, s')) (runs : Nat) :
    p.counted (runs, s) = (r, runs + 1, s') := by
  simp only [counted, h]

/-- Counting changes neither the outcome nor the state. -/
theorem times_counted (p : Action ε σ α) (n : Nat) : ∀ (runs : Nat) (s : σ),
    ∃ total, times p.counted n (runs, s) = ((times p n s).1, total, (times p n s).2) := by
  induction n with
  | zero => exact fun runs s => ⟨runs, rfl⟩
  | succ n ih =>
    intro runs s
    rw [times_succ, times_succ]
    cases hp : p s with
    | mk r s' =>
      cases r with
      | error e =>
        rw [bind_of_error hp, bind_of_error (counted_of_eq hp runs)]
        exact ⟨runs + 1, rfl⟩
      | ok a =>
        obtain ⟨total, htotal⟩ := ih (runs + 1) s'
        rw [bind_of_ok hp, bind_of_ok (counted_of_eq hp runs)]
        cases hmore : times p n s' with
        | mk r' s'' =>
          rw [hmore] at htotal
          refine ⟨total, ?_⟩
          cases r' with
          | error e => rw [bind_of_error hmore, bind_of_error htotal]
          | ok as =>
            rw [bind_of_ok hmore, bind_of_ok htotal]
            rfl

theorem runs_of_error {s s' : σ} {e : ε} (hp : p s = (.error e, s')) (n runs : Nat) :
    (times p.counted (n + 1) (runs, s)).2.1 = runs + 1 := by
  rw [times_succ, bind_of_error (counted_of_eq hp runs)]

/-- What is done with the value of a run is not a run. -/
theorem runs_of_ok {s s' : σ} {a : α} (hp : p s = (.ok a, s')) (n runs : Nat) :
    (times p.counted (n + 1) (runs, s)).2.1 = (times p.counted n (runs + 1, s')).2.1 := by
  rw [times_succ, bind_of_ok (counted_of_eq hp runs)]
  cases hmore : times p.counted n (runs + 1, s') with
  | mk r s'' =>
    cases r with
    | error e => rw [bind_of_error hmore]
    | ok as =>
      rw [bind_of_ok hmore]
      rfl

/-- Where every value makes the state smaller, there are as many runs as it is large, and one that fails. -/
theorem runs_le {size : σ → Nat} (hp : ∀ {s a s'}, p s = (.ok a, s') → size s' + 1 ≤ size s)
    (n : Nat) : ∀ (runs : Nat) (s : σ), (times p.counted n (runs, s)).2.1 ≤ runs + size s + 1 := by
  induction n with
  | zero =>
    intro runs s
    show runs ≤ _
    omega
  | succ n ih =>
    intro runs s
    cases hrun : p s with
    | mk r s' =>
      cases r with
      | error e =>
        rw [runs_of_error hrun]
        omega
      | ok a =>
        rw [runs_of_ok hrun]
        have hless := hp hrun
        have hmore := ih (runs + 1) s'
        omega

/-- An action that always yields a value is run to the end. -/
theorem runs_eq (hp : ∀ s, ∃ a s', p s = (.ok a, s')) (n : Nat) : ∀ (runs : Nat) (s : σ),
    (times p.counted n (runs, s)).2.1 = runs + n := by
  induction n with
  | zero => exact fun _ _ => rfl
  | succ n ih =>
    intro runs s
    obtain ⟨a, s', hrun⟩ := hp s
    rw [runs_of_ok hrun, ih]
    omega

end Action

/-! ## What values take -/

namespace Wire

variable {α β : Type}

/-- A value takes so many bytes at least. -/
def Advances (least : Nat) (p : Reader α) : Prop :=
  ∀ ⦃bytes rest : Bytes⦄ ⦃a : α⦄, p bytes = (.ok a, rest) → rest.length + least ≤ bytes.length

theorem Advances.done (a : α) : Advances 0 (Action.done a) := by
  intro bytes rest b h
  cases h
  exact Nat.le_refl _

theorem Advances.fail (least : Nat) (e : FormatError) : Advances least (Action.fail e : Reader α) := by
  intro bytes rest b h
  cases h

theorem Advances.bind {m n : Nat} {p : Reader α} {k : α → Reader β} (hp : Advances m p)
    (hk : ∀ a, Advances n (k a)) : Advances (m + n) (p >>= k) := by
  intro bytes rest b h
  obtain ⟨a, middle, hfirst, hsecond⟩ := Action.bind_eq_ok h
  have hm := hp hfirst
  have hn := hk a hsecond
  omega

theorem Advances.ite {least : Nat} {c : Prop} [Decidable c] {p q : Reader α} (hp : Advances least p)
    (hq : Advances least q) : Advances least (if c then p else q) := by
  split
  · exact hp
  · exact hq

theorem advances_byte : Advances 1 byte := by
  intro bytes rest b h
  cases bytes with
  | nil => cases h
  | cons first bytes =>
    cases h
    exact Nat.le_refl _

theorem advances_readGroups (budget : Nat) : Advances 1 (Varint.readGroups budget) := by
  induction budget with
  | zero => exact .fail 1 _
  | succ budget ih =>
    intro bytes rest n h
    cases bytes with
    | nil => cases h
    | cons b bytes =>
      simp only [Varint.readGroups] at h
      rw [List.length_cons]
      split at h
      · cases h
        exact Nat.le_refl _
      · split at h
        · rename_i m left hmore
          cases h
          have := ih hmore
          omega
        · cases h

theorem advances_decode : Advances 1 Varint.decode := (advances_readGroups _).bind fun _ => .done _

theorem advances_take (count : Nat) : Advances 0 (take count) := by
  intro bytes rest taken h
  simp only [take] at h
  split at h
  · cases h
  · cases h
    rw [List.length_drop]
    omega

theorem advances_bytes : Advances 1 bytes := by
  have hlength : Advances 1 length := advances_decode.bind fun _ => .ite (.fail 0 _) (.done _)
  exact hlength.bind advances_take

theorem advances_string : Advances 1 string := by
  refine advances_bytes.bind (n := 0) fun b => ?_
  split
  · exact .done _
  · exact .fail 0 _

end Wire

theorem FieldType.advances_read (t : FieldType) : Wire.Advances 1 t.read := by
  cases t with
  | boolean =>
    have hboolean : Wire.Advances 1 Wire.boolean :=
      Wire.advances_byte.bind fun _ => .ite (.done _) (.ite (.done _) (.fail 0 _))
    exact hboolean.bind fun _ => .done _
  | int =>
    have hint : Wire.Advances 1 Wire.int := Wire.advances_decode.bind fun _ => .ite (.done _) (.fail 0 _)
    exact hint.bind fun _ => .done _
  | long => exact Wire.advances_decode.bind fun _ => .done _
  | string => exact Wire.advances_string.bind fun _ => .done _
  | bytes => exact Wire.advances_bytes.bind fun _ => .done _

/-- A record takes a byte for each field at least. -/
theorem Datum.advances_readFields (fields : List Field) : Wire.Advances fields.length (readFields fields) := by
  induction fields with
  | nil => exact .done []
  | cons f fields ih =>
    rw [List.length_cons, Nat.add_comm]
    exact f.type.advances_read.bind fun v => (ih.bind fun vs => .done (v :: vs) : Wire.Advances _ _)

/-! ## Blocks -/

namespace Block

/-- How often a record is read, or tried to be read, when the records of a block are. -/
def decoded (schema : Schema) (b : Block) : Nat :=
  (Action.times (Datum.read schema).counted b.count (0, b.data)).2.1

/-- The number is the one of the very loop that reads the records. -/
theorem times_counted_read (schema : Schema) (b : Block) :
    Action.times (Datum.read schema).counted b.count (0, b.data)
      = ((Action.times (Datum.read schema) b.count b.data).1, b.decoded schema,
        (Action.times (Datum.read schema) b.count b.data).2) := by
  obtain ⟨total, htotal⟩ := Action.times_counted (Datum.read schema) b.count 0 b.data
  rw [decoded, htotal]

theorem decoded_le {schema : Schema} (hfields : schema.fields ≠ []) (b : Block) :
    b.decoded schema ≤ b.data.length + 1 := by
  have hpos := List.length_pos_iff.2 hfields
  have hless : ∀ {bytes d rest}, Datum.read schema bytes = (.ok d, rest) → rest.length + 1 ≤ bytes.length := by
    intro bytes d rest hread
    have htaken := Datum.advances_readFields schema.fields hread
    omega
  have hruns := Action.runs_le hless b.count 0 b.data
  rwa [Nat.zero_add] at hruns

/-- Where records have no fields there is nothing that ends the reading but the number itself. -/
theorem decoded_of_nil {schema : Schema} (hfields : schema.fields = []) (b : Block) :
    b.decoded schema = b.count := by
  have hread : ∀ bytes, ∃ d rest, Datum.read schema bytes = (.ok d, rest) := by
    intro bytes
    rw [Datum.read, hfields]
    exact ⟨[], bytes, rfl⟩
  rw [decoded, Action.runs_eq hread, Nat.zero_add]

/-- The loop over the records of a block reads at most one record more than there are bytes, whatever number
the block states, as long as records have fields; records without fields take no bytes, and are read as
often as is stated. -/
theorem decoded_bound (schema : Schema) (b : Block) :
    Action.times (Datum.read schema).counted b.count (0, b.data)
        = ((Action.times (Datum.read schema) b.count b.data).1, b.decoded schema,
          (Action.times (Datum.read schema) b.count b.data).2)
      ∧ (schema.fields ≠ [] → b.decoded schema ≤ b.data.length + 1)
      ∧ (schema.fields = [] → b.decoded schema = b.count) :=
  ⟨times_counted_read schema b, (decoded_le · b), (decoded_of_nil · b)⟩

/-- The header of a log whose records have no fields. -/
def hollowHeader : Header := .new ⟨"Empty", none, []⟩ .null (.numbered 0)

/-- A block of three such records. -/
def hollow : Block := ⟨3, []⟩

/-- Three records are read from no bytes. -/
theorem decoded_hollow :
    Header.read (hollowHeader.encode ++ hollow.encode hollowHeader)
        = (.ok hollowHeader.stated, hollow.encode hollowHeader)
      ∧ (hollowHeader.stated.blocks (hollow.encode hollowHeader)).found = [hollow]
      ∧ hollowHeader.stated.datums (hollow.encode hollowHeader) = .ok [[], [], []]
      ∧ ¬hollow.decoded hollowHeader.stated.schema ≤ hollow.data.length + 1 := by
  have hwritable : hollowHeader.Writable := Header.writable_new (by decide +kernel)
  have hframed : hollow.Framed hollowHeader.stated (hollow.encode hollowHeader) :=
    framed_encode (show 3 < 2 ^ 63 by decide) (show 0 < 2 ^ 63 by decide)
  have hframes := Header.Frames.cons hframed .nil
  rw [List.append_nil] at hframes
  refine ⟨(Header.reads_encode hwritable).whole _, ?_, ?_, ?_⟩
  · rw [Header.blocks_frames hframes]
  · rw [Header.datums_frames hframes]
    rfl
  · rw [decoded_of_nil rfl]
    decide

end Block

end DeviceLog
