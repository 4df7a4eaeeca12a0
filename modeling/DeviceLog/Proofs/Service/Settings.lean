import DeviceLog.Service.Settings
import Mathlib.Data.List.Induction
import Mathlib.Data.List.TakeWhile

/-! # Which variables make settings

A variable that is not set or empty stands for a standard value, and one that is set for what its text
spells, if it spells anything.

* `Text.trimmed_eq_iff`: what is left of a text without the blanks around it.
* `Settings.SpelledLevel` says how a level is written, and `Settings.numberOf?_iff` that it is read so.
* `Settings.Chosen` and `Settings.Unusable` say what a variable stands for and when it cannot be used. All
  variables are read in one way (`Settings.settled`).
* `Settings.ofVariables_iff` puts these together: which settings variables make, which of them is named when
  they make none, and which variables make no difference.
-/

namespace DeviceLog

/-! ## Blanks -/

namespace Text

/-- Characters with blanks around them. -/
def Padded (cs t : List Char) : Prop :=
  ∃ front back, cs = front ++ t ++ back ∧ (∀ c ∈ front, isBlank c = true) ∧ ∀ c ∈ back, isBlank c = true

theorem padded_trimmed (cs : List Char) : Padded cs (trimmed cs) := by
  refine ⟨cs.takeWhile isBlank, ((cs.dropWhile isBlank).reverse.takeWhile isBlank).reverse, ?_,
    fun c hc => List.mem_takeWhile_imp hc, fun c hc => List.mem_takeWhile_imp (List.mem_reverse.1 hc)⟩
  have hback : trimmed cs ++ ((cs.dropWhile isBlank).reverse.takeWhile isBlank).reverse
      = cs.dropWhile isBlank := by
    rw [trimmed, ← List.reverse_append, List.takeWhile_append_dropWhile, List.reverse_reverse]
  rw [List.append_assoc, hback, List.takeWhile_append_dropWhile]

theorem dropWhile_isBlank {t : List Char} (ht : ∀ c ∈ t, isBlank c = false) : t.dropWhile isBlank = t := by
  cases t with
  | nil => rfl
  | cons c t => rw [List.dropWhile_cons, ht c List.mem_cons_self, if_neg Bool.false_ne_true]

/-- Of characters among which there is no blank nothing is trimmed but what is around them. -/
theorem trimmed_eq_iff {cs t : List Char} (ht : ∀ c ∈ t, isBlank c = false) :
    trimmed cs = t ↔ Padded cs t := by
  constructor
  · rintro rfl
    exact padded_trimmed cs
  · rintro ⟨front, back, rfl, hfront, hback⟩
    have hback' : ∀ c ∈ back.reverse, isBlank c = true := fun c hc => hback c (List.mem_reverse.1 hc)
    have ht' : ∀ c ∈ t.reverse, isBlank c = false := fun c hc => ht c (List.mem_reverse.1 hc)
    rw [trimmed, List.append_assoc, List.dropWhile_append_of_pos hfront, List.dropWhile_append,
      dropWhile_isBlank ht]
    split
    · rename_i hempty
      rw [List.isEmpty_iff] at hempty
      rw [List.dropWhile_eq_nil_iff.2 hback, hempty]
      rfl
    · rw [List.reverse_append, List.dropWhile_append_of_pos hback', dropWhile_isBlank ht',
        List.reverse_reverse]

theorem isBlank_of_isDigit {c : Char} (h : c.isDigit = true) : isBlank c = false := by
  rw [Char.isDigit_iff_toNat] at h
  have hlow : 48 ≤ c.toNat := h.1
  have hhigh : c.toNat ≤ 57 := h.2
  simp only [isBlank, decide_eq_false_iff_not]
  omega

end Text

namespace Settings

/-! ## Levels -/

/-- How a level is written: as one digit, with zeros in front of it if one likes, and a plus. -/
def SpelledLevel (level : Nat) (cs : List Char) : Prop :=
  level ≤ 9 ∧ ∃ sign zeros, (sign = [] ∨ sign = ['+'])
    ∧ cs = sign ++ (List.replicate zeros '0' ++ [Nat.digitChar level])

/-- The value of digits, the first one highest. -/
def decimal (ds : List Char) : Nat := ds.foldl (fun n c => n * 10 + (c.toNat - 48)) 0

theorem decimal_concat (ds : List Char) (c : Char) :
    decimal (ds ++ [c]) = decimal ds * 10 + (c.toNat - 48) := by
  simp [decimal]

theorem decimal_zeros (n : Nat) : decimal (List.replicate n '0') = 0 := by
  induction n with
  | zero => rfl
  | succ n ih => rw [List.replicate_succ', decimal_concat, ih]; rfl

theorem isDigit_iff {c : Char} : c.isDigit = true ↔ 48 ≤ c.toNat ∧ c.toNat ≤ 57 := Char.isDigit_iff_toNat

theorem isDigit_digitChar {level : Nat} (h : level ≤ 9) : (Nat.digitChar level).isDigit = true := by
  rw [isDigit_iff, Nat.toNat_digitChar_of_lt_ten (Nat.lt_succ_of_le h)]
  omega

theorem isDigit_of_mem_zeros (zeros : Nat) {level : Nat} (h : level ≤ 9) :
    ∀ c ∈ List.replicate zeros '0' ++ [Nat.digitChar level], c.isDigit = true := by
  intro c hc
  cases List.mem_append.1 hc with
  | inl hzero =>
    rw [List.eq_of_mem_replicate hzero]
    rfl
  | inr hlast =>
    rw [List.mem_singleton.1 hlast]
    exact isDigit_digitChar h

theorem digitChar_sub {c : Char} (h : c.isDigit = true) : Nat.digitChar (c.toNat - 48) = c := by
  rw [isDigit_iff] at h
  rw [← Char.toNat_inj, Nat.toNat_digitChar_of_lt_ten (by omega)]
  omega

theorem eq_zeros_of_decimal {ds : List Char} (hdigits : ∀ c ∈ ds, c.isDigit = true) (h : decimal ds = 0) :
    ds = List.replicate ds.length '0' := by
  induction ds using List.reverseRecOn with
  | nil => rfl
  | append_singleton ds c ih =>
    rw [decimal_concat] at h
    have hc : Nat.digitChar (c.toNat - 48) = c := digitChar_sub (hdigits c (by simp))
    rw [show c.toNat - 48 = 0 by omega] at hc
    have hds := ih (fun c' hc' => hdigits c' (List.mem_append_left _ hc')) (by omega)
    rw [List.length_append, List.length_singleton, List.replicate_succ', ← hds, ← hc]
    rfl

/-- Digits make a small number only if all but the last one are zeros. -/
theorem eq_zeros_append {ds : List Char} (hdigits : ∀ c ∈ ds, c.isDigit = true) (hne : ds ≠ [])
    (h : decimal ds ≤ 9) : ∃ zeros, ds = List.replicate zeros '0' ++ [Nat.digitChar (decimal ds)] := by
  obtain ⟨front, c, rfl⟩ : ∃ front c, ds = front ++ [c] := ⟨_, _, (List.dropLast_concat_getLast hne).symm⟩
  have hc := hdigits c (by simp)
  rw [decimal_concat] at h ⊢
  have hfront : decimal front = 0 := by omega
  refine ⟨front.length, ?_⟩
  rw [hfront, Nat.zero_mul, Nat.zero_add, digitChar_sub hc]
  rw [← eq_zeros_of_decimal (fun c' hc' => hdigits c' (List.mem_append_left _ hc')) hfront]

theorem decimal_append_digitChar (zeros : Nat) {level : Nat} (h : level ≤ 9) :
    decimal (List.replicate zeros '0' ++ [Nat.digitChar level]) = level := by
  rw [decimal_concat, decimal_zeros, Nat.toNat_digitChar_of_lt_ten (Nat.lt_succ_of_le h)]
  omega

/-- What is left of a number without a plus in front of it. -/
def unsigned (cs : List Char) : List Char :=
  match cs with
  | '+' :: rest => rest
  | cs => cs

theorem numberOf?_eq (cs : List Char) : numberOf? cs =
    if unsigned cs ≠ [] ∧ (unsigned cs).all Char.isDigit then some (decimal (unsigned cs)) else none := rfl

theorem exists_sign (cs : List Char) : ∃ sign, (sign = [] ∨ sign = ['+']) ∧ cs = sign ++ unsigned cs := by
  unfold unsigned
  split
  · exact ⟨['+'], .inr rfl, rfl⟩
  · exact ⟨[], .inl rfl, rfl⟩

theorem unsigned_append {sign ds : List Char} (hsign : sign = [] ∨ sign = ['+'])
    (hdigits : ∀ c ∈ ds, c.isDigit = true) : unsigned (sign ++ ds) = ds := by
  cases hsign with
  | inr hplus => rw [hplus]; rfl
  | inl hnone =>
    rw [hnone, List.nil_append]
    unfold unsigned
    split
    · exact absurd (hdigits '+' List.mem_cons_self) (by decide)
    · rfl

theorem numberOf?_iff {level : Nat} {cs : List Char} :
    (numberOf? cs).filter (· ≤ 9) = some level ↔ SpelledLevel level cs := by
  rw [Option.filter_eq_some_iff, numberOf?_eq, decide_eq_true_eq]
  constructor
  · rintro ⟨hread, hle⟩
    split at hread
    · rename_i hdigits
      obtain ⟨hne, hall⟩ := hdigits
      cases hread
      obtain ⟨zeros, hzeros⟩ := eq_zeros_append (List.all_eq_true.1 hall) hne hle
      obtain ⟨sign, hsign, hcs⟩ := exists_sign cs
      refine ⟨hle, sign, zeros, hsign, ?_⟩
      rw [← hzeros, ← hcs]
    · cases hread
  · rintro ⟨hle, sign, zeros, hsign, rfl⟩
    have hdigits := isDigit_of_mem_zeros zeros hle
    rw [unsigned_append hsign hdigits, if_pos ⟨by simp, List.all_eq_true.2 hdigits⟩,
      decimal_append_digitChar zeros hle]
    exact ⟨rfl, hle⟩

theorem SpelledLevel.isBlank_eq {level : Nat} {cs : List Char} (h : SpelledLevel level cs) :
    ∀ c ∈ cs, Text.isBlank c = false := by
  obtain ⟨hle, sign, zeros, hsign, rfl⟩ := h
  intro c hc
  cases List.mem_append.1 hc with
  | inl hplus =>
    rcases hsign with rfl | rfl
    · cases hplus
    · rw [List.mem_singleton.1 hplus]
      rfl
  | inr hdigits => exact Text.isBlank_of_isDigit (isDigit_of_mem_zeros zeros hle c hdigits)

/-! ## One variable -/

section Variable

variable {α : Type} {standard a : α} {Spelled : String → α → Prop} {value : Option String} {raw : String}
  {read : String → Option α} {fault : String → SettingsError} {e : SettingsError}

/-- What a variable stands for. One that is not set or empty stands for what is standard. -/
inductive Chosen (standard : α) (Spelled : String → α → Prop) : Option String → α → Prop
  | unset : Chosen standard Spelled none standard
  | empty : Chosen standard Spelled (some "") standard
  | stated {raw : String} {a : α} : raw ≠ "" → Spelled raw a → Chosen standard Spelled (some raw) a

/-- A value that is not empty and spells nothing. -/
structure Unusable (Spelled : String → α → Prop) (value : Option String) (raw : String) : Prop where
  stated : value = some raw
  ne_empty : raw ≠ ""
  not_spelled : ∀ a, ¬Spelled raw a

/-- How each variable is read. -/
def settled (standard : α) (read : String → Option α) (fault : String → SettingsError)
    (value : Option String) : Except SettingsError α :=
  match value.filter (· ≠ "") with
  | none => .ok standard
  | some raw =>
    match read raw with
    | some a => .ok a
    | none => .error (fault raw)

theorem settled_of_ne (hne : raw ≠ "") : settled standard read fault (some raw) =
    match read raw with
    | some a => .ok a
    | none => .error (fault raw) := by
  rw [settled, Option.filter_some, if_pos (by simpa using hne)]

theorem chosen_iff_of_ne (hne : raw ≠ "") : Chosen standard Spelled (some raw) a ↔ Spelled raw a := by
  constructor
  · intro h
    cases h with
    | empty => exact absurd rfl hne
    | stated _ hspelled => exact hspelled
  · exact .stated hne

theorem settled_eq_ok_iff (hread : ∀ raw a, read raw = some a ↔ Spelled raw a) :
    settled standard read fault value = .ok a ↔ Chosen standard Spelled value a := by
  have hstandard : (Except.ok standard : Except SettingsError α) = .ok a ↔ standard = a := by
    rw [Except.ok.injEq]
  cases value with
  | none =>
    apply hstandard.trans
    constructor
    · rintro rfl
      exact .unset
    · intro h
      cases h
      rfl
  | some raw =>
    by_cases hne : raw = ""
    · subst hne
      apply hstandard.trans
      constructor
      · rintro rfl
        exact .empty
      · intro h
        cases h with
        | empty => rfl
        | stated hne _ => exact absurd rfl hne
    · rw [settled_of_ne hne, chosen_iff_of_ne hne, ← hread]
      cases read raw <;> simp

theorem settled_eq_error_iff (hread : ∀ raw a, read raw = some a ↔ Spelled raw a) :
    settled standard read fault value = .error e ↔ ∃ raw, Unusable Spelled value raw ∧ e = fault raw := by
  constructor
  · intro h
    cases value with
    | none => cases h
    | some raw =>
      by_cases hne : raw = ""
      · subst hne
        cases h
      · rw [settled_of_ne hne] at h
        cases hr : read raw with
        | some a =>
          rw [hr] at h
          cases h
        | none =>
          rw [hr] at h
          cases h
          refine ⟨raw, ⟨rfl, hne, fun a hspelled => ?_⟩, rfl⟩
          rw [← hread, hr] at hspelled
          cases hspelled
  · rintro ⟨raw, ⟨rfl, hne, hnot⟩, rfl⟩
    rw [settled_of_ne hne]
    cases hr : read raw with
    | some a => exact absurd ((hread raw a).1 hr) (hnot a)
    | none => rfl

end Variable

/-! ## The three that may be wrong -/

def SpellsAddress (raw : String) (address : SocketAddress) : Prop := SocketAddress.ofText? raw = some address

theorem addressOf?_iff (raw : String) (address : SocketAddress) :
    SocketAddress.ofText? raw = some address ↔ SpellsAddress raw address := Iff.rfl

/-- A level is spelled with blanks around it, if one likes, and so is the name of a codec. -/
def SpellsLevel (raw : String) (level : Nat) : Prop := ∃ t, Text.Padded raw.toList t ∧ SpelledLevel level t

def SpellsCodec (raw name : String) : Prop :=
  (name = "deflate" ∨ name = "null") ∧ Text.Padded raw.toList name.toList

def levelOf? (raw : String) : Option Nat := (numberOf? (Text.trimmed raw.toList)).filter (· ≤ 9)

theorem levelOf?_iff (raw : String) (level : Nat) : levelOf? raw = some level ↔ SpellsLevel raw level := by
  rw [levelOf?, numberOf?_iff]
  constructor
  · intro h
    exact ⟨_, Text.padded_trimmed _, h⟩
  · rintro ⟨t, hpadded, hspelled⟩
    rwa [(Text.trimmed_eq_iff hspelled.isBlank_eq).2 hpadded]

/-- The name of a codec that a text is. -/
def nameOf? (raw : String) : Option String :=
  let name := String.ofList (Text.trimmed raw.toList)
  if name = "deflate" ∨ name = "null" then some name else none

theorem nameOf?_iff (raw name : String) : nameOf? raw = some name ↔ SpellsCodec raw name := by
  have htrimmed : (name = "deflate" ∨ name = "null") →
      (Text.trimmed raw.toList = name.toList ↔ Text.Padded raw.toList name.toList) := by
    intro hname
    have hblank : name.toList.any Text.isBlank = false := by
      rcases hname with rfl | rfl <;> rfl
    exact Text.trimmed_eq_iff fun c hc => Bool.eq_false_iff.2 (List.any_eq_false.1 hblank c hc)
  simp only [nameOf?, Option.ite_none_right_eq_some, Option.some.injEq]
  constructor
  · rintro ⟨hname, rfl⟩
    exact ⟨hname, (htrimmed hname).1 String.toList_ofList.symm⟩
  · rintro ⟨hname, hpadded⟩
    rw [(htrimmed hname).2 hpadded, String.ofList_toList]
    exact ⟨hname, rfl⟩

/-- The codec of a name at a level. -/
def compression (name : String) (level : Nat) : Codec := if name = "null" then .null else .deflate level

theorem bindOf_eq (vars : Variables) :
    bindOf vars = settled standardBind SocketAddress.ofText? .bind (vars "DEVSTATE_BIND") := by
  simp only [bindOf, settled, value?]
  cases (vars "DEVSTATE_BIND").filter (· ≠ "") with
  | none => rfl
  | some raw =>
    simp only
    cases SocketAddress.ofText? raw <;> rfl

theorem levelOf_eq (vars : Variables) :
    levelOf vars = settled 5 levelOf? .level (vars "DEVSTATE_DEFLATE_LEVEL") := by
  simp only [levelOf, settled, value?, levelOf?]
  cases (vars "DEVSTATE_DEFLATE_LEVEL").filter (· ≠ "") with
  | none => rfl
  | some raw =>
    simp only
    cases (numberOf? (Text.trimmed raw.toList)).filter (· ≤ 9) <;> rfl

theorem ofName?_eq (name : String) (level : Nat) : Codec.ofName? name level =
    (if name = "deflate" ∨ name = "null" then some name else none).map (compression · level) := by
  unfold Codec.ofName? compression
  by_cases hnull : name = "null"
  · simp [hnull]
  · by_cases hdeflate : name = "deflate" <;> simp [hnull, hdeflate]

theorem codecOf_eq (vars : Variables) (level : Nat) : codecOf vars level =
    (settled "deflate" nameOf? .codec (vars "DEVSTATE_CODEC")).map fun name => compression name level := by
  simp only [codecOf, settled, value?, ofName?_eq, nameOf?]
  cases (vars "DEVSTATE_CODEC").filter (· ≠ "") with
  | none => rfl
  | some raw =>
    simp only
    generalize String.ofList (Text.trimmed raw.toList) = name
    by_cases hname : name = "deflate" ∨ name = "null"
    · rw [if_pos hname]
      rfl
    · rw [if_neg hname]
      rfl

/-! ## All of them -/

/-- The variables that settings are made of. -/
def names : List String :=
  ["DEVSTATE_ROOT", "HOME", "DEVSTATE_BIND", "DEVSTATE_DEFLATE_LEVEL", "DEVSTATE_CODEC"]

theorem ofVariables_congr {vars other : Variables}
    (h : ∀ name ∈ names, value? vars name = value? other name) : ofVariables vars = ofVariables other := by
  simp only [names, List.forall_mem_cons] at h
  obtain ⟨hroot, hhome, hbind, hlevel, hcodec, -⟩ := h
  simp only [ofVariables, rootOf, bindOf, levelOf, codecOf, hroot, hhome, hbind, hlevel, hcodec]

section Three

variable {ε α β γ δ : Type} {x : Except ε α} {y : Except ε β} {z : Except ε γ} {f : α → β → γ → δ}
  {d : δ} {e : ε}

theorem bind_bind_map_eq_ok_iff : (x >>= fun a => y >>= fun b => z.map (f a b)) = .ok d
    ↔ ∃ a b c, x = .ok a ∧ y = .ok b ∧ z = .ok c ∧ f a b c = d := by
  cases x <;> cases y <;> cases z <;> simp [Bind.bind, Except.bind, Except.map]

/-- Of three that are read one after another, the first that is refused ends it. -/
theorem bind_bind_map_eq_error_iff : (x >>= fun a => y >>= fun b => z.map (f a b)) = .error e
    ↔ x = .error e ∨ (∃ a, x = .ok a) ∧ (y = .error e ∨ (∃ b, y = .ok b) ∧ z = .error e) := by
  cases x <;> cases y <;> cases z <;> simp [Bind.bind, Except.bind, Except.map]

end Three

/-- Which value no settings can be made with. Those of the variables before it can be used. -/
inductive FirstFault (vars : Variables) : SettingsError → Prop
  | bind {raw : String} : Unusable SpellsAddress (vars "DEVSTATE_BIND") raw → FirstFault vars (.bind raw)
  | level {raw : String} {address : SocketAddress} :
      Chosen standardBind SpellsAddress (vars "DEVSTATE_BIND") address →
      Unusable SpellsLevel (vars "DEVSTATE_DEFLATE_LEVEL") raw → FirstFault vars (.level raw)
  | codec {raw : String} {address : SocketAddress} {level : Nat} :
      Chosen standardBind SpellsAddress (vars "DEVSTATE_BIND") address →
      Chosen 5 SpellsLevel (vars "DEVSTATE_DEFLATE_LEVEL") level →
      Unusable SpellsCodec (vars "DEVSTATE_CODEC") raw → FirstFault vars (.codec raw)

theorem ofVariables_eq (vars : Variables) : ofVariables vars =
    (settled standardBind SocketAddress.ofText? .bind (vars "DEVSTATE_BIND") >>= fun address =>
      settled 5 levelOf? .level (vars "DEVSTATE_DEFLATE_LEVEL") >>= fun level =>
        (settled "deflate" nameOf? .codec (vars "DEVSTATE_CODEC")).map fun name =>
          ⟨rootOf vars, address, compression name level⟩) := by
  simp only [ofVariables, bindOf_eq, levelOf_eq, codecOf_eq]
  congr 1
  funext address
  congr 1
  funext level
  cases settled "deflate" nameOf? .codec (vars "DEVSTATE_CODEC") <;> rfl

theorem chosen_level_le {value : Option String} {level : Nat} (h : Chosen 5 SpellsLevel value level) :
    level ≤ 9 := by
  cases h with
  | unset => decide
  | empty => decide
  | stated _ hspells =>
    obtain ⟨t, -, hle, -⟩ := hspells
    exact hle

theorem ofVariables_eq_ok_iff {vars : Variables} {s : Settings} : ofVariables vars = .ok s ↔
    ∃ address level name, Chosen standardBind SpellsAddress (vars "DEVSTATE_BIND") address
      ∧ Chosen 5 SpellsLevel (vars "DEVSTATE_DEFLATE_LEVEL") level
      ∧ Chosen "deflate" SpellsCodec (vars "DEVSTATE_CODEC") name
      ∧ ⟨rootOf vars, address, compression name level⟩ = s := by
  rw [ofVariables_eq, bind_bind_map_eq_ok_iff]
  simp only [settled_eq_ok_iff addressOf?_iff, settled_eq_ok_iff levelOf?_iff, settled_eq_ok_iff nameOf?_iff]

theorem ofVariables_eq_error_iff {vars : Variables} {e : SettingsError} :
    ofVariables vars = .error e ↔ FirstFault vars e := by
  rw [ofVariables_eq, bind_bind_map_eq_error_iff]
  simp only [settled_eq_ok_iff addressOf?_iff, settled_eq_ok_iff levelOf?_iff,
    settled_eq_error_iff addressOf?_iff, settled_eq_error_iff levelOf?_iff, settled_eq_error_iff nameOf?_iff]
  constructor
  · rintro (⟨raw, hraw, rfl⟩ | ⟨⟨address, hbind⟩, hrest⟩)
    · exact .bind hraw
    · obtain ⟨raw, hraw, rfl⟩ | ⟨⟨level, hlevel⟩, raw, hraw, rfl⟩ := hrest
      · exact .level hbind hraw
      · exact .codec hbind hlevel hraw
  · intro h
    cases h with
    | bind hraw => exact .inl ⟨_, hraw, rfl⟩
    | level hbind hraw => exact .inr ⟨⟨_, hbind⟩, .inl ⟨_, hraw, rfl⟩⟩
    | codec hbind hlevel hraw => exact .inr ⟨⟨_, hbind⟩, .inr ⟨⟨_, hlevel⟩, _, hraw, rfl⟩⟩

/-- Settings are made exactly if each of the three variables that may be wrong is not set or empty or spells
something: an address, a level, a codec. The codec of the settings is the one that is named, at the level that
is stated, which is nine at most. Where no settings are made, the first value in this order that cannot be
used is named as it was given; so a level is, even if no codec needs it. That a variable is empty makes no
difference to its not being set, and no other variable makes any. -/
theorem ofVariables_iff (vars : Variables) :
    (∀ s, ofVariables vars = .ok s ↔ ∃ address level name,
      Chosen standardBind SpellsAddress (vars "DEVSTATE_BIND") address
      ∧ Chosen 5 SpellsLevel (vars "DEVSTATE_DEFLATE_LEVEL") level ∧ level ≤ 9
      ∧ Chosen "deflate" SpellsCodec (vars "DEVSTATE_CODEC") name
      ∧ s = ⟨rootOf vars, address, if name = "null" then .null else .deflate level⟩)
    ∧ (∀ e, ofVariables vars = .error e ↔ FirstFault vars e)
    ∧ ofVariables (fun name => (vars name).filter (· ≠ "")) = ofVariables vars
    ∧ ∀ others : Variables, ofVariables (fun name => if name ∈ names then vars name else others name)
      = ofVariables vars := by
  refine ⟨fun s => ?_, fun e => ofVariables_eq_error_iff, ?_, fun others => ?_⟩
  · rw [ofVariables_eq_ok_iff]
    constructor
    · rintro ⟨address, level, name, hbind, hlevel, hcodec, rfl⟩
      exact ⟨address, level, name, hbind, hlevel, chosen_level_le hlevel, hcodec, rfl⟩
    · rintro ⟨address, level, name, hbind, hlevel, -, hcodec, rfl⟩
      exact ⟨address, level, name, hbind, hlevel, hcodec, rfl⟩
  · apply ofVariables_congr
    intro name _
    simp only [value?, Option.filter_filter, Bool.and_self]
  · apply ofVariables_congr
    intro name hname
    rw [value?, value?, if_pos hname]

/-- A level that the codec does not need. -/
example : ofVariables (fun name => if name = "DEVSTATE_CODEC" then some "null"
    else if name = "DEVSTATE_DEFLATE_LEVEL" then some " 10" else none) = .error (.level " 10") := rfl

end Settings

end DeviceLog
