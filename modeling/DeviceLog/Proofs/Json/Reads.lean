import DeviceLog.Json.Decode
import DeviceLog.Proofs.Json.Spelling
import Mathlib.Data.List.Nodup

/-! # Lists and objects are read from their tokens

`Decoder.Reads p tokens a` says of a decoder that it takes a value from tokens, whatever follows them.

* `Decoder.Reads.list`: a list is read where its items are.
* `Layout.reads_object`: so is an object, whatever the order of its members is, and whatever others are
  among them. In `having names` the members with these names have been read; `Layout.Adds` says of a member
  that it is read into such a draft.
-/

namespace DeviceLog.Json

namespace Decoder

variable {α β : Type}

/-- A decoder takes a value from tokens, whatever follows them. -/
def Reads (p : Decoder α) (tokens : List Token) (a : α) : Prop :=
  ∀ rest, p (tokens ++ rest) = (.ok a, rest)

/-- A value is made of what has been read. -/
theorem Reads.map {p : Decoder α} {tokens : List Token} {a : α} {f : α → β} {b : β} (h : Reads p tokens a)
    (hb : f a = b) : Reads (p >>= fun a => Action.done (f a)) tokens b := by
  subst hb
  exact fun rest => Action.bind_of_ok (h rest)

/-- What is read of the tokens of a document is what the document is read as. -/
theorem Reads.decode {p : Decoder α} {bytes : Bytes} {a : α} (h : Reads p (Token.ofBytes bytes) a) :
    decode p bytes = .ok a := by
  have hall := h []
  rw [List.append_nil] at hall
  simp only [Json.decode, hall]

theorem reads_text (s : String) : Reads text [.text (some s)] s := fun _ => rfl

/-! ## Lists -/

/-- Tokens of which the first is another one than that which ends what they are in. -/
def Starts (closing : Token) (tokens : List Token) : Prop := ∃ t ts, tokens = t :: ts ∧ t ≠ closing

/-- The items after the first are read from their tokens, given a turn for each and one for the end. -/
theorem moreItems_reads {item : Decoder α} {items : List α} {tokens : List (List Token)}
    (h : List.Forall₂ (fun a own => Reads item own a) items tokens) (rest : List Token) :
    ∀ (before : List α) (turns : List Token), items.length < turns.length →
      moreItems item before turns (tokens.flatMap (fun own => .comma :: own) ++ .closeList :: rest)
        = (.ok (before.reverse ++ items), rest) := by
  induction h with
  | nil =>
    intro before turns hturns
    obtain ⟨turn, turns, rfl⟩ := List.exists_cons_of_length_pos hturns
    simp [moreItems]
  | @cons a own items tokens hitem _ ih =>
    intro before turns hturns
    obtain ⟨turn, turns, rfl⟩ := List.exists_cons_of_length_pos (Nat.zero_lt_of_lt hturns)
    simp only [List.flatMap_cons, List.cons_append, List.append_assoc, moreItems]
    rw [Action.bind_of_ok (hitem _), ih (a :: before) turns (by simpa using hturns)]
    simp

/-- The commas in front of things are as many tokens as things at least. -/
theorem length_le_flatMap (tokens : List (List Token)) :
    tokens.length ≤ (tokens.flatMap fun own => Token.comma :: own).length := by
  induction tokens with
  | nil => exact Nat.zero_le _
  | cons own tokens ih =>
    rw [List.flatMap_cons, List.length_append, List.length_cons, List.length_cons]
    omega

/-- A list is read from the tokens of its items between brackets. No item may begin as a list ends. -/
theorem Reads.list {item : Decoder α} {items : List α} {tokens : List (List Token)}
    (h : List.Forall₂ (fun a own => Reads item own a ∧ Starts .closeList own) items tokens) :
    Reads (list item) (listTokens tokens) items := by
  intro rest
  cases h with
  | nil => rfl
  | @cons a own items tokens hfirst hmore =>
    obtain ⟨hitem, t, ts, rfl, hne⟩ := hfirst
    have hitems := moreItems_reads (hmore.imp fun _ _ h => h.1) rest [a]
    have hitem' := hitem (tokens.flatMap (fun own => .comma :: own) ++ .closeList :: rest)
    have hstep : ∀ more, Decoder.list item (.openList :: t :: more)
        = (item >>= fun a => moreItems item [a] (t :: more)) (t :: more) := by
      intro more
      rw [list.eq_def]
      split
      · rename_i heq
        simp only [List.cons.injEq, true_and] at heq
        exact absurd heq.1 hne
      · rename_i heq
        simp only [List.cons.injEq, true_and] at heq
        rw [heq]
      · rename_i hnone
        exact absurd rfl (hnone _)
    simp only [listTokens, separated, List.cons_append, List.append_assoc, List.nil_append] at hitem' ⊢
    rw [hstep, Action.bind_of_ok hitem', hitems]
    · rfl
    · have hcount := hmore.length_eq
      have hle := length_le_flatMap tokens
      simp only [List.length_cons, List.length_append]
      omega

end Decoder

/-! ## Objects -/

namespace Layout

variable {δ α : Type} {l : Layout δ α} {having : List String → δ}

/-- The names of the members that a record has. -/
def names (l : Layout δ α) : List String := l.members.map Member.name

/-- A member is read into a draft that does not have it yet. -/
structure Adds (l : Layout δ α) (having : List String → δ) (m : String × List Token) : Prop where
  known : m.1 ∈ l.names
  read : ∀ names rest, m.1 ∉ names →
    l.member (having names) m.1 (.colon :: (m.2 ++ rest)) = (.ok (having (m.1 :: names)), rest)

theorem adds_of_find {m : String × List Token} {member : Member δ}
    (hfind : (l.members.find? fun other => other.name == m.1) = some member)
    (hgiven : ∀ names, m.1 ∉ names → member.given (having names) = false)
    (hread : ∀ names, Decoder.Reads (member.read (having names)) m.2 (having (m.1 :: names))) :
    l.Adds having m where
  known := by
    have heq := List.find?_some hfind
    rw [← eq_of_beq heq]
    exact List.mem_map_of_mem (List.mem_of_find?_eq_some hfind)
  read names rest hfresh := by
    have hnew := hgiven names hfresh
    simp only [Layout.member, hfind, hnew]
    exact (Action.bind_of_ok rfl).trans (hread names rest)

/-- A member of another name is passed over. -/
theorem member_of_skip {m : String × List Token} (h : m.1 ∉ l.names)
    (hskip : Decoder.Reads Decoder.skip m.2 ()) (draft : δ) (rest : List Token) :
    l.member draft m.1 (.colon :: (m.2 ++ rest)) = (.ok draft, rest) := by
  have hfind : (l.members.find? fun other => other.name == m.1) = none := by
    refine List.find?_eq_none.2 fun other hother heq => h ?_
    rw [← eq_of_beq heq]
    exact List.mem_map_of_mem hother
  simp only [member, hfind]
  exact (Action.bind_of_ok rfl).trans (Action.bind_of_ok (hskip rest))

/-- A member goes into the draft so far. -/
theorem moreMembers_member {draft draft' : δ} {name : String} {turn : Token}
    {turns rest rest' : List Token} (h : l.member draft name rest = (.ok draft', rest')) :
    l.moreMembers (turn :: turns) draft (.comma :: .text (some name) :: rest)
      = l.moreMembers turns draft' rest' :=
  Action.bind_of_ok h

/-- The names among those of some members that a record has. -/
def known (l : Layout δ α) (members : List (String × List Token)) : List String :=
  (members.map Prod.fst).filter (· ∈ l.names)

/-- Members of an object are read into the draft or passed over, one after another. -/
theorem moreMembers_having {members : List (String × List Token)}
    (hown : ∀ m ∈ members, m.1 ∈ l.names → l.Adds having m)
    (hothers : ∀ m ∈ members, m.1 ∉ l.names → Decoder.Reads Decoder.skip m.2 ()) (rest : List Token) :
    ∀ (names : List String) (turns : List Token), members.length < turns.length →
      ((l.known members).reverse ++ names).Nodup →
        l.moreMembers turns (having names)
            ((members.flatMap fun m => .comma :: .text (some m.1) :: .colon :: m.2) ++ .closeObject :: rest)
          = l.finish (having ((l.known members).reverse ++ names)) rest := by
  induction members with
  | nil =>
    intro names turns hturns _
    obtain ⟨turn, turns, rfl⟩ := List.exists_cons_of_length_pos hturns
    rfl
  | cons m members ih =>
    intro names turns hturns hnodup
    obtain ⟨turn, turns, rfl⟩ := List.exists_cons_of_length_pos (Nat.zero_lt_of_lt hturns)
    rw [List.forall_mem_cons] at hown hothers
    have hmore := ih hown.2 hothers.2
    simp only [List.flatMap_cons, List.cons_append, List.append_assoc]
    by_cases hm : m.1 ∈ l.names
    · have hknown : l.known (m :: members) = m.1 :: l.known members :=
        List.filter_cons_of_pos (by simpa using hm)
      rw [hknown, List.reverse_cons, List.append_assoc, List.singleton_append] at hnodup ⊢
      have hfresh : m.1 ∉ names := (List.nodup_cons.1 (List.nodup_append.1 hnodup).2.1).1
      rw [moreMembers_member ((hown.1 hm).read names _ hfresh),
        hmore (m.1 :: names) turns (by simpa using hturns) hnodup]
    · have hknown : l.known (m :: members) = l.known members := List.filter_cons_of_neg (by simpa using hm)
      rw [hknown] at hnodup ⊢
      rw [moreMembers_member (member_of_skip hm (hothers.1 hm) _ _),
        hmore names turns (by simpa using hturns) hnodup]

/-- The first member of an object is read as one more after none. -/
theorem read_object (turn : Token) (name : String) (rest : List Token) :
    l.read (.openObject :: .text (some name) :: rest)
      = l.moreMembers (turn :: rest) l.blank (.comma :: .text (some name) :: rest) := rfl

/-- An object is read as the draft that has all its members. Only names that the record has must be there
once. -/
theorem reads_having {members : List (String × List Token)} {a : α} (hblank : l.blank = having [])
    (hown : ∀ m ∈ members, m.1 ∈ l.names → l.Adds having m)
    (hothers : ∀ m ∈ members, m.1 ∉ l.names → Decoder.Reads Decoder.skip m.2 ())
    (hnodup : (l.known members).Nodup)
    (hfinish : ∀ rest, l.finish (having (l.known members).reverse) rest = (.ok a, rest)) :
    Decoder.Reads l.read (objectTokens members) a := by
  intro rest
  rw [← hfinish rest]
  have hmore := moreMembers_having hown hothers rest []
  rw [← hblank, List.append_nil, List.nodup_reverse] at hmore
  cases members with
  | nil =>
    show l.finish l.blank rest = _
    rw [hblank]
    rfl
  | cons m members =>
    have htokens : objectTokens (m :: members) ++ rest = .openObject :: .text (some m.1) :: .colon
        :: (m.2 ++ ((members.flatMap fun m => .comma :: .text (some m.1) :: .colon :: m.2)
          ++ .closeObject :: rest)) := by
      simp [objectTokens, separated, List.flatMap_map]
    simp only [List.flatMap_cons, List.cons_append, List.append_assoc] at hmore
    rw [htokens, read_object .comma, hmore _ _ hnodup]
    -- Each member has a comma before it, so there are as many tokens as turns are needed.
    have hle := Decoder.length_le_flatMap (members.map fun m => .text (some m.1) :: .colon :: m.2)
    rw [List.length_map, List.flatMap_map] at hle
    simp only [List.length_cons, List.length_append]
    omega

/-- An object is read whatever the order of its members is, and whatever others are among them. -/
theorem reads_object {own others members : List (String × List Token)} {a : α}
    (hperm : members.Perm (own ++ others)) (hblank : l.blank = having []) (hown : ∀ m ∈ own, l.Adds having m)
    (hothers : ∀ m ∈ others, m.1 ∉ l.names ∧ Decoder.Reads Decoder.skip m.2 ())
    (hnodup : (own.map Prod.fst).Nodup)
    (hfinish : ∀ names rest, (∀ m ∈ own, m.1 ∈ names) → l.finish (having names) rest = (.ok a, rest)) :
    Decoder.Reads l.read (objectTokens members) a := by
  have hmem : ∀ m ∈ members, m ∈ own ∨ m ∈ others := fun m hm => List.mem_append.1 (hperm.mem_iff.1 hm)
  have hknown : (l.known members).Perm (own.map Prod.fst) := by
    have hall : (own.map Prod.fst).filter (· ∈ l.names) = own.map Prod.fst :=
      List.filter_eq_self.2 (List.forall_mem_map.2 fun m hm => decide_eq_true (hown m hm).known)
    have hnone : (others.map Prod.fst).filter (· ∈ l.names) = [] :=
      List.filter_eq_nil_iff.2 (List.forall_mem_map.2 fun m hm => by simp [(hothers m hm).1])
    have hfiltered := (hperm.map Prod.fst).filter (· ∈ l.names)
    rwa [List.map_append, List.filter_append, hall, hnone, List.append_nil] at hfiltered
  refine reads_having hblank (fun m hm hname => ?_) (fun m hm hname => ?_) (hknown.nodup_iff.2 hnodup)
    fun rest => hfinish _ rest fun m hm => ?_
  · exact (hmem m hm).elim (hown m) fun hother => absurd hname (hothers m hother).1
  · exact (hmem m hm).elim (fun hm => absurd (hown m hm).known hname) fun hother => (hothers m hother).2
  · rw [List.mem_reverse]
    exact hknown.mem_iff.2 (List.mem_map_of_mem hm)

end Layout

end DeviceLog.Json
