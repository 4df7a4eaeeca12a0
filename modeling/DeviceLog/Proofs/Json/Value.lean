import DeviceLog.Proofs.Json.Number
import DeviceLog.Proofs.Json.Reads

/-! # Documents are read as the values they were written from

* `Value.induction`: a property of all values, from items and members to what they are in.
* `Value.tokens`: the tokens of a value. `Value.apart` says that a rendered value spells them.
* `Value.ofDocument` reads any document, and `Value.ofDocument_render`: a rendered value is read back, unless
  one of its numbers takes more than 64 bits.
* `Value.sorted_object`: sorting members whose names are distinct only changes their order.
-/

namespace DeviceLog.Json

namespace Value

/-- A property of all values, which lists and objects have if what is in them has it. -/
theorem induction {motive : Value → Prop} (null : motive .null) (bool : ∀ b, motive (.bool b))
    (integer : ∀ n, motive (.integer n)) (text : ∀ s, motive (.text s))
    (list : ∀ items, (∀ v ∈ items, motive v) → motive (.list items))
    (object : ∀ members, (∀ m ∈ members, motive m.2) → motive (.object members)) (v : Value) : motive v :=
  @Value.rec motive (fun items => ∀ v ∈ items, motive v) (fun members => ∀ m ∈ members, motive m.2)
    (fun m => motive m.2) null bool integer text list object nofun
    (fun _ _ hv hitems => List.forall_mem_cons.2 ⟨hv, hitems⟩) nofun
    (fun _ _ hm hmembers => List.forall_mem_cons.2 ⟨hm, hmembers⟩) (fun _ _ hv => hv) v

/-! ## Tokens -/

mutual

/-- The tokens of a value. -/
def tokens : Value → List Token
  | null => [.null]
  | bool b => [.bool b]
  | integer n => [.number (.ofInt n)]
  | text s => [.text (some s)]
  | list items => listTokens (itemTokens items)
  | object members => objectTokens (memberTokens members)

def itemTokens : List Value → List (List Token)
  | [] => []
  | v :: rest => tokens v :: itemTokens rest

def memberTokens : List (String × Value) → List (String × List Token)
  | [] => []
  | (name, v) :: rest => (name, tokens v) :: memberTokens rest

end

theorem itemTokens_eq_map (items : List Value) : itemTokens items = items.map tokens := by
  induction items with
  | nil => rfl
  | cons v items ih => rw [itemTokens, ih, List.map_cons]

theorem memberTokens_eq_map (members : List (String × Value)) :
    memberTokens members = members.map fun m => (m.1, m.2.tokens) := by
  induction members with
  | nil => rfl
  | cons m members ih => rw [memberTokens, ih, List.map_cons]

theorem tokens_list (items : List Value) : (list items).tokens = listTokens (items.map tokens) := by
  rw [tokens, itemTokens_eq_map]

theorem tokens_object (members : List (String × Value)) :
    (object members).tokens = objectTokens (members.map fun m => (m.1, m.2.tokens)) := by
  rw [tokens, memberTokens_eq_map]

theorem starts_tokens (v : Value) : Decoder.Starts .closeList v.tokens := by
  cases v with
  | null | bool b | integer n | text s => exact ⟨_, _, rfl, nofun⟩
  | list items => exact ⟨_, _, tokens_list items, nofun⟩
  | object members => exact ⟨_, _, tokens_object members, nofun⟩

/-- A rendered value spells the tokens of the value where no number goes on after it. -/
theorem apart (v : Value) : Renders.Apart v.render v.tokens := by
  induction v using induction with
  | null => exact ⟨fun _ hmore => .token rfl rfl (Nat.le_add_right _ 3) hmore⟩
  | bool b =>
    cases b with
    | true => exact ⟨fun _ hmore => .token rfl rfl (Nat.le_add_right _ 3) hmore⟩
    | false => exact ⟨fun _ hmore => .token rfl rfl (Nat.le_add_right _ 4) hmore⟩
  | integer n => exact apart_integer n
  | text s => exact (renders_text s).apart
  | list items ih =>
    have hpairs : ∀ p ∈ items.map fun v => (v, v.tokens), Renders.Apart p.1.render p.2 := List.forall_mem_map.2 ih
    have hlist := renders_list hpairs
    rw [List.map_map, List.map_map] at hlist
    have hitems : items.map (Prod.fst ∘ fun v : Value => (v, v.tokens)) = items := List.map_id items
    rw [hitems] at hlist
    rw [tokens_list]
    exact hlist.apart
  | object members ih =>
    have hobject := renders_object (members.map fun m => (m.1, m.2, m.2.tokens)) (List.forall_mem_map.2 ih)
    rw [List.map_map, List.map_map] at hobject
    rw [tokens_object]
    have hmembers : members.map ((fun p => (p.1, p.2.1)) ∘ fun m : String × Value => (m.1, m.2, m.2.tokens))
        = members := List.map_id members
    rw [hmembers] at hobject
    exact hobject.apart

/-- A rendered value is split into the tokens of the value. -/
theorem ofBytes_render (v : Value) : Token.ofBytes (Utf8.encode v.render) = v.tokens := by
  have hend : Token.EndNumber [] := nofun
  have hspelled := v.apart.spelled hend .nil
  rw [List.append_nil, List.append_nil] at hspelled
  exact Token.ofBytes_of_spelled hspelled

/-! ## Reading back -/

end Value

namespace Decoder

variable {α : Type}

/-- Reads more entries up to a closing token. -/
def moreEntries (closing : Token) (entry : Decoder α) : Nat → Decoder (List α)
  | 0 => notJson
  | turns + 1 => fun tokens =>
    match tokens with
    | .comma :: rest =>
      (entry >>= fun a => moreEntries closing entry turns >>= fun as => Action.done (a :: as)) rest
    | t :: rest => if t = closing then (.ok [], rest) else notJson tokens
    | [] => notJson []

/-- Reads entries with commas between them up to a closing token. -/
def entries (closing : Token) (entry : Decoder α) (turns : Nat) : Decoder (List α) := fun tokens =>
  if tokens.head? = some closing then (.ok [], tokens.tail)
  else (entry >>= fun a => moreEntries closing entry turns >>= fun as => Action.done (a :: as)) tokens

/-- Reads a name, a colon and a value. -/
def member (value : Decoder Value) : Decoder (String × Value) := fun tokens =>
  match tokens with
  | .text (some name) :: .colon :: rest => (value >>= fun v => Action.done (name, v)) rest
  | _ => notJson tokens

theorem moreEntries_reads {closing : Token} (hclosing : closing ≠ .comma) {entry : Decoder α} {as : List α}
    {tokens : List (List Token)} (h : List.Forall₂ (fun a own => Reads entry own a) as tokens) :
    ∀ turns, as.length < turns →
      Reads (moreEntries closing entry turns) (tokens.flatMap (fun own => .comma :: own) ++ [closing]) as := by
  induction h with
  | nil =>
    intro turns hturns rest
    obtain ⟨turns, rfl⟩ := Nat.exists_eq_succ_of_ne_zero (Nat.ne_of_gt hturns)
    show moreEntries closing entry (turns + 1) (closing :: rest) = _
    rw [moreEntries.eq_def]
    simp
  | @cons a own as tokens hfirst _ ih =>
    intro turns hturns rest
    obtain ⟨turns, rfl⟩ := Nat.exists_eq_succ_of_ne_zero (Nat.ne_of_gt (Nat.zero_lt_of_lt hturns))
    have hmore := ih turns (by simpa using hturns) rest
    simp only [List.flatMap_cons, List.cons_append, List.append_assoc] at hmore ⊢
    show (entry >>= fun a => moreEntries closing entry turns >>= fun as => Action.done (a :: as)) _ = _
    rw [Action.bind_of_ok (hfirst _), Action.bind_of_ok hmore]
    rfl

/-- Entries are read from their tokens, up to the closing one. -/
theorem reads_entries {closing : Token} (hclosing : closing ≠ .comma) {entry : Decoder α} {as : List α}
    {tokens : List (List Token)} {turns : Nat} (hturns : as.length ≤ turns)
    (h : List.Forall₂ (fun a own => Reads entry own a ∧ Starts closing own) as tokens) :
    Reads (entries closing entry turns) (separated tokens ++ [closing]) as := by
  intro rest
  cases h with
  | nil => exact if_pos rfl
  | @cons a own as tokens hfirst hmore =>
    obtain ⟨hentry, t, ts, rfl, hne⟩ := hfirst
    have hothers := moreEntries_reads hclosing (hmore.imp fun _ _ h => h.1) turns hturns rest
    simp only [separated, List.append_assoc] at hothers ⊢
    rw [entries, if_neg (by simpa using hne), Action.bind_of_ok (hentry _), Action.bind_of_ok hothers]
    rfl

end Decoder

namespace Value

/-- Reads any value. A value in another takes a turn more. -/
def reader : Nat → Decoder Value
  | 0 => Decoder.notJson
  | turns + 1 => fun tokens =>
    match tokens with
    | .null :: rest => (.ok null, rest)
    | .bool b :: rest => (.ok (bool b), rest)
    | .number n :: rest =>
      match n.value with
      | some (.integer i) => (.ok (integer i), rest)
      | _ => Decoder.notJson tokens
    | .text (some s) :: rest => (.ok (text s), rest)
    | .openList :: rest =>
      (Decoder.entries .closeList (reader turns) turns >>= fun items => Action.done (list items)) rest
    | .openObject :: rest =>
      (Decoder.entries .closeObject (Decoder.member (reader turns)) turns
        >>= fun members => Action.done (object members)) rest
    | _ => Decoder.notJson tokens

/-- Reads a document as a value. -/
def ofDocument (document : Bytes) : Except Error Value :=
  decode (fun tokens => reader tokens.length tokens) document

/-- Whether the numbers in a value take 64 bits at most, with or without a sign. -/
inductive Fits : Value → Prop
  | null : Fits null
  | bool (b : Bool) : Fits (bool b)
  | integer {n : Int} : -0x8000000000000000 ≤ n → n < Numeral.bound → Fits (integer n)
  | text (s : String) : Fits (text s)
  | list {items : List Value} : (∀ v ∈ items, Fits v) → Fits (list items)
  | object {members : List (String × Value)} : (∀ m ∈ members, Fits m.2) → Fits (object members)

/-- Each of several things has no more tokens than all of them with their commas. -/
theorem length_le_separated {own : List Token} : ∀ {parts : List (List Token)}, own ∈ parts →
    own.length ≤ (separated parts).length
  | first :: others, h => by
    rw [separated, List.length_append]
    rcases List.mem_cons.1 h with rfl | h
    · exact Nat.le_add_right _ _
    · have hle := (List.sublist_flatten_of_mem (List.mem_map_of_mem (f := fun own => Token.comma :: own) h)).length_le
      rw [List.flatMap_def]
      rw [List.length_cons] at hle
      omega

/-- There is a comma between two things each. -/
theorem length_le_length_separated (parts : List (List Token)) : parts.length ≤ (separated parts).length + 1 := by
  cases parts with
  | nil => exact Nat.zero_le _
  | cons first others =>
    have hle := Decoder.length_le_flatMap others
    rw [separated, List.length_append, List.length_cons]
    omega

/-- A value is read from its tokens in as many turns as there are tokens. -/
theorem reads_reader {v : Value} (h : v.Fits) : ∀ turns, v.tokens.length ≤ turns →
    Decoder.Reads (reader turns) v.tokens v := by
  -- The values in a list or an object have fewer tokens, so that a turn less is enough for them.
  induction h with
  | null | bool | text =>
    intro turns hturns rest
    obtain ⟨turns, rfl⟩ := Nat.exists_eq_succ_of_ne_zero (Nat.ne_of_gt hturns)
    rfl
  | integer hlow hhigh =>
    intro turns hturns rest
    obtain ⟨turns, rfl⟩ := Nat.exists_eq_succ_of_ne_zero (Nat.ne_of_gt hturns)
    simp only [tokens, List.cons_append, List.nil_append, reader, Numeral.value_ofInt hlow hhigh]
  | @list items _ ih =>
    intro turns hturns
    rw [tokens_list] at hturns ⊢
    obtain ⟨turns, rfl⟩ := Nat.exists_eq_succ_of_ne_zero (Nat.ne_of_gt (Nat.lt_of_lt_of_le (Nat.succ_pos _) hturns))
    simp only [listTokens, List.length_append, List.length_cons, List.length_nil] at hturns
    have hitems : List.Forall₂ (fun v own => Decoder.Reads (reader turns) own v ∧ Decoder.Starts .closeList own)
        items (items.map tokens) := by
      refine List.forall₂_map_right_iff.2 (List.forall₂_same.2 fun v hv => ⟨ih v hv turns ?_, v.starts_tokens⟩)
      have hle := length_le_separated (List.mem_map_of_mem (f := tokens) hv)
      omega
    have hcount := length_le_length_separated (items.map tokens)
    rw [List.length_map] at hcount
    exact (Decoder.reads_entries (show Token.closeList ≠ .comma by decide) (by omega) hitems).map rfl
  | @object members _ ih =>
    intro turns hturns
    rw [tokens_object] at hturns ⊢
    obtain ⟨turns, rfl⟩ := Nat.exists_eq_succ_of_ne_zero (Nat.ne_of_gt (Nat.lt_of_lt_of_le (Nat.succ_pos _) hturns))
    simp only [objectTokens, List.map_map, List.length_append, List.length_cons, List.length_nil] at hturns ⊢
    have hmembers : List.Forall₂ (fun m own => Decoder.Reads (Decoder.member (reader turns)) own m
          ∧ Decoder.Starts .closeObject own) members
        (members.map ((fun m => .text (some m.1) :: .colon :: m.2) ∘ fun m => (m.1, m.2.tokens))) := by
      refine List.forall₂_map_right_iff.2 (List.forall₂_same.2 fun m hm => ⟨?_, _, _, rfl, by simp⟩)
      have hle := length_le_separated (List.mem_map_of_mem
        (f := (fun m => Token.text (some m.1) :: .colon :: m.2) ∘ fun m => (m.1, m.2.tokens)) hm)
      simp only [Function.comp_apply, List.length_cons] at hle
      exact (ih m hm turns (by omega)).map rfl
    have hcount := length_le_length_separated
      (members.map ((fun m => .text (some m.1) :: .colon :: m.2) ∘ fun m => (m.1, m.2.tokens)))
    rw [List.length_map] at hcount
    exact (Decoder.reads_entries (show Token.closeObject ≠ .comma by decide) (by omega) hmembers).map rfl

/-- A rendered value is read back, unless one of its numbers takes more than 64 bits. -/
theorem ofDocument_render {v : Value} (h : v.Fits) : ofDocument (Utf8.encode v.render) = .ok v := by
  have hreads := reads_reader h _ (Nat.le_refl _) []
  rw [List.append_nil] at hreads
  simp only [ofDocument, decode, ofBytes_render, hreads]

/-! ## Sorting -/

/-- A member with a new name is put among the others. -/
theorem perm_put {name : String} (v : Value) : ∀ {members : List (String × Value)},
    name ∉ members.map Prod.fst → (put name v members).Perm ((name, v) :: members)
  | [], _ => .refl _
  | (other, w) :: members, h => by
    rw [List.map_cons, List.mem_cons, not_or] at h
    rw [put]
    split
    · exact .refl _
    · rw [if_neg h.1]
      exact ((perm_put v h.2).cons _).trans (.swap _ _ _)

theorem perm_sortedMembers : ∀ {members placed : List (String × Value)},
    ((members ++ placed).map Prod.fst).Nodup →
      (sortedMembers members placed).Perm ((members.map fun m => (m.1, m.2.sorted)) ++ placed)
  | [], _, _ => .refl _
  | (name, v) :: members, placed, h => by
    rw [List.cons_append, List.map_cons, List.nodup_cons, List.map_append, List.mem_append, not_or] at h
    obtain ⟨⟨hname, hplaced⟩, hrest⟩ := h
    have hput := perm_put v.sorted hplaced
    have hnodup : ((members ++ put name v.sorted placed).map Prod.fst).Nodup := by
      rw [List.map_append, ((hput.map Prod.fst).append_left _).nodup_iff]
      exact List.nodup_middle.2 (List.nodup_cons.2 ⟨by simp [hname, hplaced], hrest⟩)
    rw [sortedMembers, List.map_cons, List.cons_append]
    exact (perm_sortedMembers hnodup).trans ((hput.append_left _).trans List.perm_middle)

/-- Sorting the members of an object only changes their order where no two names are the same. -/
theorem sorted_object {members : List (String × Value)} (h : (members.map Prod.fst).Nodup) :
    ∃ ordered, (object members).sorted = object ordered
      ∧ ordered.Perm (members.map fun m => (m.1, m.2.sorted)) := by
  rw [← List.append_nil members] at h
  have hperm := perm_sortedMembers h
  rw [List.append_nil] at hperm
  exact ⟨_, sorted.eq_def _, hperm⟩

theorem sortedItems_eq_map (items : List Value) : sortedItems items = items.map sorted := by
  induction items with
  | nil => rfl
  | cons v items ih => rw [sortedItems, ih, List.map_cons]

end Value

end DeviceLog.Json
