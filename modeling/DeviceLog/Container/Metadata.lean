import DeviceLog.Action

/-! # Metadata

The header of a log holds named byte strings. They are kept in the order of their names, each name
once, so equal contents are equal values.

* `find?`, `insert` and `erase` are the operations; `find?_insert` and `find?_erase` say what they do.
-/

namespace DeviceLog

/-- Whether entries stand in the order of their names, each name once. -/
abbrev InOrder (entries : List (String × Bytes)) : Prop :=
  entries.Pairwise fun a b => a.1 < b.1

structure Metadata where
  entries : List (String × Bytes)
  inOrder : InOrder entries
  deriving DecidableEq

namespace Metadata

/-! ## Entries in order -/

/-- Puts an entry among entries in order; it takes the place of one of the same name. -/
def insertEntry (name : String) (value : Bytes) : List (String × Bytes) → List (String × Bytes)
  | [] => [(name, value)]
  | e :: rest =>
    if name < e.1 then (name, value) :: e :: rest
    else if name = e.1 then (name, value) :: rest
    else e :: insertEntry name value rest

/-- Of two names neither of which is before the other, both are the same. -/
theorem lt_of_not_lt_of_ne {a b : String} (h : ¬a < b) (hne : a ≠ b) : b < a :=
  String.not_le.1 fun hle => hne (String.le_antisymm hle (String.not_lt.1 h))

theorem mem_insertEntry {name : String} {value : Bytes} {e : String × Bytes} :
    ∀ {entries : List (String × Bytes)}, e ∈ insertEntry name value entries →
      e = (name, value) ∨ e ∈ entries
  | [], h => .inl (by simpa [insertEntry] using h)
  | f :: rest, h => by
    unfold insertEntry at h
    split at h
    · simpa using h
    · split at h
      · rcases List.mem_cons.1 h with h | h
        · exact .inl h
        · exact .inr (List.mem_cons_of_mem _ h)
      · rcases List.mem_cons.1 h with h | h
        · exact .inr (h ▸ List.mem_cons_self)
        · rcases mem_insertEntry h with h | h
          · exact .inl h
          · exact .inr (List.mem_cons_of_mem _ h)

theorem inOrder_insertEntry (name : String) (value : Bytes) :
    ∀ {entries : List (String × Bytes)}, InOrder entries → InOrder (insertEntry name value entries)
  | [], _ => by simp [insertEntry, InOrder]
  | e :: rest, h => by
    have hrest := List.pairwise_cons.1 h
    unfold insertEntry
    split
    · rename_i hlt
      refine List.pairwise_cons.2 ⟨fun f hf => ?_, h⟩
      rcases List.mem_cons.1 hf with rfl | hf
      · exact hlt
      · exact String.lt_trans hlt (hrest.1 f hf)
    · split
      · rename_i heq
        exact List.pairwise_cons.2 ⟨fun f hf => heq ▸ hrest.1 f hf, hrest.2⟩
      · rename_i hlt hne
        refine List.pairwise_cons.2 ⟨fun f hf => ?_, inOrder_insertEntry name value hrest.2⟩
        rcases mem_insertEntry hf with rfl | hf
        · exact lt_of_not_lt_of_ne hlt hne
        · exact hrest.1 f hf

/-! ## Operations -/

def empty : Metadata := ⟨[], List.Pairwise.nil⟩

def find? (m : Metadata) (name : String) : Option Bytes := m.entries.lookup name

def insert (m : Metadata) (name : String) (value : Bytes) : Metadata :=
  ⟨insertEntry name value m.entries, inOrder_insertEntry name value m.inOrder⟩

def erase (m : Metadata) (name : String) : Metadata :=
  ⟨m.entries.filter fun e => e.1 ≠ name, List.Pairwise.filter _ m.inOrder⟩

/-- The entries of a list; of those of one name the last stands. -/
def ofList (entries : List (String × Bytes)) : Metadata :=
  entries.foldl (fun m e => m.insert e.1 e.2) empty

theorem lookup_cons (key other : String) (value : Bytes) (rest : List (String × Bytes)) :
    ((key, value) :: rest).lookup other = if other = key then some value else rest.lookup other := by
  by_cases h : other = key
  · rw [if_pos h, h, List.lookup_cons_self]
  · rw [if_neg h, List.lookup_cons, beq_eq_false_iff_ne.2 h]

theorem lookup_insertEntry (name other : String) (value : Bytes) :
    ∀ entries : List (String × Bytes),
      (insertEntry name value entries).lookup other
        = if other = name then some value else entries.lookup other
  | [] => by rw [insertEntry, lookup_cons]
  | (key, bytes) :: rest => by
    unfold insertEntry
    split
    · rw [lookup_cons]
    · split
      · rename_i hkey
        subst hkey
        rw [lookup_cons, lookup_cons]
        split <;> rfl
      · rename_i hkey
        rw [lookup_cons, lookup_cons, lookup_insertEntry name other value rest]
        by_cases h : other = key
        · subst h
          simp [Ne.symm hkey]
        · simp [h]

/-- An inserted entry is found, and nothing else changes. -/
theorem find?_insert (m : Metadata) (name other : String) (value : Bytes) :
    (m.insert name value).find? other = if other = name then some value else m.find? other :=
  lookup_insertEntry name other value m.entries

/-- An erased entry is not found, and nothing else changes. -/
theorem find?_erase (m : Metadata) (name other : String) :
    (m.erase name).find? other = if other = name then none else m.find? other := by
  obtain ⟨entries, h⟩ := m
  simp only [find?, erase]
  clear h
  induction entries with
  | nil => simp
  | cons e rest ih =>
    obtain ⟨key, bytes⟩ := e
    by_cases hkey : key = name
    · subst hkey
      rw [List.filter_cons_of_neg (by simp), ih, lookup_cons]
      by_cases h : other = key <;> simp [h]
    · rw [List.filter_cons_of_pos (by simpa using hkey), lookup_cons, lookup_cons, ih]
      by_cases h : other = key
      · subst h
        simp [hkey]
      · simp [h]

end Metadata

end DeviceLog
