import Mathlib.Data.List.Nodup

/-! # Looking up entries by their keys -/

namespace DeviceLog

variable {α β : Type} [BEq α] [LawfulBEq α] {a : α} {x : β}

theorem lookup_cons_eq [DecidableEq α] (a b : α) (x : β) (rest : List (α × β)) :
    ((a, x) :: rest).lookup b = if b = a then some x else rest.lookup b := by
  by_cases h : b = a
  · rw [if_pos h, h, List.lookup_cons_self]
  · rw [if_neg h, List.lookup_cons, beq_eq_false_iff_ne.2 h]

theorem mem_of_lookup : ∀ {entries : List (α × β)}, entries.lookup a = some x → (a, x) ∈ entries
  | (b, y) :: rest, h => by
    rw [List.lookup_cons] at h
    split at h
    · rename_i heq
      cases h
      cases eq_of_beq heq
      exact List.mem_cons_self
    · exact List.mem_cons_of_mem _ (mem_of_lookup h)

/-- Where no key is there twice, what is there is found. -/
theorem lookup_of_mem : ∀ {entries : List (α × β)}, (entries.map Prod.fst).Nodup →
    (a, x) ∈ entries → entries.lookup a = some x
  | (b, y) :: rest, hnodup, h => by
    rw [List.map_cons, List.nodup_cons] at hnodup
    cases h with
    | head => exact List.lookup_cons_self
    | tail _ hmem =>
      have hne : a ≠ b := by
        rintro rfl
        exact hnodup.1 (List.mem_map.2 ⟨_, hmem, rfl⟩)
      rw [List.lookup_cons, beq_eq_false_iff_ne.2 hne]
      exact lookup_of_mem hnodup.2 hmem

/-- Where no key is there twice, what is found among some of the entries is what is found among all, if
it is one of them. -/
theorem lookup_filter (p : α × β → Bool) {entries : List (α × β)}
    (hnodup : (entries.map Prod.fst).Nodup) (a : α) :
    (entries.filter p).lookup a = (entries.lookup a).filter fun x => p (a, x) := by
  have hsub : ((entries.filter p).map Prod.fst).Nodup := hnodup.sublist (List.filter_sublist.map _)
  refine Option.ext fun x => ?_
  rw [Option.filter_eq_some_iff]
  constructor
  · intro h
    obtain ⟨hmem, hp⟩ := List.mem_filter.1 (mem_of_lookup h)
    exact ⟨lookup_of_mem hnodup hmem, hp⟩
  · rintro ⟨h, hp⟩
    exact lookup_of_mem hsub (List.mem_filter.2 ⟨mem_of_lookup h, hp⟩)

end DeviceLog
