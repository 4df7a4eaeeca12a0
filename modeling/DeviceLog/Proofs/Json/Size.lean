import DeviceLog.Json.Decode
import DeviceLog.Proofs.Text.Utf8
import DeviceLog.Proofs.Wire.Exact
import Mathlib.Data.List.TakeDrop

/-! # What is read of a document is no longer than the document

* `Token.within_ofBytes`: the texts of a document take space in proportion to the document.
* `Decoder.Yields P good d`: if all tokens have a property, then what `d` yields has one, and the tokens
  that it leaves have theirs. Decoders made of such decoders are so (`Yields.bind`), and so is a record
  whose members are (`Layout.yields_read`).
-/

namespace DeviceLog.Json

/-! ## Texts -/

namespace Token

/-- A text has no more parts than bytes. -/
theorem length_textParts_le {before parts : List Part} {bytes rest : Bytes}
    (h : textParts before bytes = some (parts, rest)) :
    parts.length ≤ before.length + bytes.length ∧ rest.length ≤ bytes.length := by
  fun_induction textParts before bytes with
  | case1 | case3 | case5 | case6 | case8 | case9 => cases h
  | case2 before more =>
    cases h
    simp only [List.length_reverse, List.length_cons]
    omega
  | case4 before h₁ h₂ h₃ h₄ more n hn _ ih =>
    have hmore := ih h
    simp only [List.length_cons] at hmore ⊢
    omega
  | case7 before e more _ b hb _ ih =>
    have hmore := ih h
    simp only [List.length_cons] at hmore ⊢
    omega
  | case10 before b more _ _ _ ih =>
    have hmore := ih h
    simp only [List.length_cons] at hmore ⊢
    omega

/-- A part stands for four bytes at most. -/
theorem length_partBytes_le {before found : Bytes} {parts : List Part}
    (h : partBytes before parts = some found) : found.length ≤ before.length + 4 * parts.length := by
  have hchar : ∀ c : Char, (Utf8.encodeChar c).length ≤ 4 := fun c => by
    rw [Utf8.length_encodeChar]
    exact c.utf8Size_le_four
  fun_induction partBytes before parts with
  | case1 before =>
    cases h
    simp
  | case2 before b rest ih =>
    have hrest := ih h
    simp only [List.length_cons] at hrest ⊢
    omega
  | case3 before n _ m rest _ c ih =>
    have hrest := ih h
    have hc := hchar c
    simp only [List.length_cons, List.length_append, List.length_reverse] at hrest ⊢
    omega
  | case4 | case5 | case6 => cases h
  | case7 before n rest _ _ ih =>
    have hrest := ih h
    have hc := hchar (Char.ofNat n)
    simp only [List.length_cons, List.length_append, List.length_reverse] at hrest ⊢
    omega

theorem utf8ByteSize_content_le {parts : List Part} {s : String} (h : content parts = some s) :
    s.utf8ByteSize ≤ 16 * parts.length := by
  obtain ⟨bytes, hbytes, hs⟩ := Option.bind_eq_some_iff.1 h
  have hlength := length_partBytes_le hbytes
  have hsize := Utf8.utf8ByteSize_of_decode? hs
  rw [List.length_nil, Nat.zero_add] at hlength
  omega

/-! ## Splitting -/

theorem length_digits_le (s : Bytes) : (digits s).2.length ≤ s.length := by
  simp only [digits, List.span_eq_takeWhile_dropWhile]
  exact (List.dropWhile_suffix _).length_le

theorem length_fraction_le {s rest : Bytes} {found : Option (List Nat)} (h : fraction s = some (found, rest)) :
    rest.length ≤ s.length := by
  unfold fraction at h
  split at h
  · rename_i s
    have hdigits := length_digits_le s
    split at h
    · cases h
    · rename_i hsplit
      cases h
      rw [hsplit] at hdigits
      exact Nat.le_succ_of_le hdigits
  · cases h
    exact Nat.le_refl _

theorem length_exponentDigits_le {down : Bool} {s rest : Bytes} {found : Option (Bool × List Nat)}
    (h : exponentDigits down s = some (found, rest)) : rest.length ≤ s.length := by
  have hdigits := length_digits_le s
  unfold exponentDigits at h
  split at h
  · cases h
  · rename_i hsplit
    cases h
    rw [hsplit] at hdigits
    exact hdigits

theorem length_exponent_le {s rest : Bytes} {found : Option (Bool × List Nat)}
    (h : exponent s = some (found, rest)) : rest.length ≤ s.length := by
  unfold exponent at h
  split at h
  · split at h
    · split at h
      · have hle := length_exponentDigits_le h
        simp only [List.length_cons]
        omega
      · have hle := length_exponentDigits_le h
        simp only [List.length_cons]
        omega
      · exact Nat.le_succ_of_le (length_exponentDigits_le h)
    · cases h
      exact Nat.le_refl _
  · cases h
    exact Nat.le_refl _

theorem length_numeral_le {negative : Bool} {s rest : Bytes} {n : Numeral}
    (h : numeral negative s = some (n, rest)) : rest.length ≤ s.length := by
  unfold numeral at h
  obtain ⟨-, -, h⟩ := Option.bind_eq_some_iff.1 h
  obtain ⟨⟨found, after⟩, hfraction, h⟩ := Option.bind_eq_some_iff.1 h
  obtain ⟨⟨found', after'⟩, hexponent, h⟩ := Option.bind_eq_some_iff.1 h
  cases h
  exact Nat.le_trans (length_exponent_le hexponent)
    (Nat.le_trans (length_fraction_le hfraction) (length_digits_le s))

/-- Whether the content of a text takes so many bytes at most. -/
def Within (most : Nat) : Token → Prop
  | text (some s) => s.utf8ByteSize ≤ most
  | _ => True

theorem Within.mono {most most' : Nat} {token : Token} (h : token.Within most) (hle : most ≤ most') :
    token.Within most' := by
  unfold Within at h ⊢
  split
  · exact Nat.le_trans h hle
  · trivial

/-- The bytes after a token are those after its first one, or fewer, or all. -/
theorem next_bounds {b : UInt8} {bytes rest : Bytes} {token : Token} (h : next b bytes = some (token, rest)) :
    token.Within (16 * bytes.length) ∧ rest.length ≤ bytes.length + 1 := by
  have hsame : ∀ {t : Token}, some (t, bytes) = some (token, rest) → t.Within (16 * bytes.length) →
      token.Within (16 * bytes.length) ∧ rest.length ≤ bytes.length + 1 := by
    rintro t heq ht
    cases heq
    exact ⟨ht, Nat.le_succ _⟩
  unfold next at h
  split at h
  · exact hsame h trivial
  split at h
  · exact hsame h trivial
  split at h
  · exact hsame h trivial
  split at h
  · exact hsame h trivial
  split at h
  · exact hsame h trivial
  split at h
  · exact hsame h trivial
  split at h
  · -- A text has no more parts than bytes.
    obtain ⟨⟨parts, after⟩, hparts, heq⟩ := Option.map_eq_some_iff.1 h
    cases heq
    obtain ⟨hcount, hafter⟩ := length_textParts_le hparts
    rw [List.length_nil, Nat.zero_add] at hcount
    refine ⟨?_, Nat.le_succ_of_le hafter⟩
    cases hcontent : content parts with
    | none => trivial
    | some s => exact Nat.le_trans (utf8ByteSize_content_le hcontent) (Nat.mul_le_mul_left 16 hcount)
  split at h
  · obtain ⟨⟨n, after⟩, hnumeral, heq⟩ := Option.map_eq_some_iff.1 h
    cases heq
    exact ⟨trivial, Nat.le_succ_of_le (length_numeral_le hnumeral)⟩
  split at h
  · obtain ⟨⟨n, after⟩, hnumeral, heq⟩ := Option.map_eq_some_iff.1 h
    cases heq
    exact ⟨trivial, length_numeral_le hnumeral⟩
  split at h
  · cases h
    exact ⟨trivial, by simp only [List.length_cons]; omega⟩
  · cases h
    exact ⟨trivial, by simp only [List.length_cons]; omega⟩
  · cases h
    exact ⟨trivial, by simp only [List.length_cons]; omega⟩
  · cases h

theorem within_split {most : Nat} (turns : Nat) : ∀ {found : List Token} {bytes : Bytes},
    (∀ t ∈ found, t.Within most) → 16 * bytes.length ≤ most → ∀ t ∈ split found turns bytes, t.Within most := by
  induction turns with
  | zero =>
    intro found bytes hfound _ t ht
    exact hfound t (List.mem_reverse.1 ht)
  | succ turns ih =>
    intro found bytes hfound hbytes
    cases bytes with
    | nil =>
      intro t ht
      exact hfound t (List.mem_reverse.1 ht)
    | cons b bytes =>
      rw [List.length_cons] at hbytes
      rw [split]
      split
      · exact ih hfound (by omega)
      split
      · rename_i token rest hnext
        obtain ⟨htoken, hrest⟩ := next_bounds hnext
        refine ih (List.forall_mem_cons.2 ⟨htoken.mono (by omega), hfound⟩) (by omega)
      · intro t ht
        rcases List.mem_cons.1 (List.mem_reverse.1 ht) with rfl | ht
        · trivial
        · exact hfound t ht

/-- The texts of a document take space in proportion to the document. -/
theorem within_ofBytes (document : Bytes) : ∀ t ∈ ofBytes document, t.Within (16 * document.length) :=
  within_split document.length nofun (Nat.le_refl _)

end Token

/-! ## Decoders -/

namespace Decoder

variable {P : Token → Prop} {α β : Type} {good : α → Prop} {good' : β → Prop}

/-- From tokens that all have a property, a decoder yields what has another one, and leaves only such
tokens. -/
def Yields (P : Token → Prop) (good : α → Prop) (d : Decoder α) : Prop :=
  ∀ ⦃tokens rest : List Token⦄ ⦃a : α⦄, (∀ t ∈ tokens, P t) → d tokens = (.ok a, rest) →
    good a ∧ ∀ t ∈ rest, P t

theorem Yields.done {a : α} (h : good a) : Yields P good (Action.done a) := by
  intro tokens rest b htokens heq
  cases heq
  exact ⟨h, htokens⟩

theorem Yields.fail (e : Error) : Yields P good (Action.fail e) := by
  intro tokens rest b _ heq
  cases heq

theorem Yields.bind {d : Decoder α} {next : α → Decoder β} (h : Yields P good d)
    (h' : ∀ a, good a → Yields P good' (next a)) : Yields P good' (d >>= next) := by
  intro tokens rest b htokens heq
  obtain ⟨a, middle, hfirst, hsecond⟩ := Action.bind_eq_ok heq
  obtain ⟨ha, hmiddle⟩ := h htokens hfirst
  exact h' a ha hmiddle hsecond

theorem refuse_ne_ok (wanted : Wanted) (tokens rest : List Token) (a : α) :
    (refuse wanted : Decoder α) tokens ≠ (.ok a, rest) := by
  unfold refuse
  split <;> nofun

theorem yields_exactly (token : Token) : Yields P (fun _ => True) (exactly token) := by
  intro tokens rest _ htokens heq
  unfold exactly at heq
  split at heq
  · split at heq
    · cases heq
      exact ⟨trivial, fun t ht => htokens t (List.mem_cons_of_mem _ ht)⟩
    · cases heq
  · cases heq

theorem yields_text {most : Nat} : Yields (Token.Within most) (fun s => s.utf8ByteSize ≤ most) text := by
  intro tokens rest s htokens heq
  unfold text at heq
  split at heq
  · cases heq
    obtain ⟨hfirst, hrest⟩ := List.forall_mem_cons.1 htokens
    exact ⟨hfirst, hrest⟩
  · exact absurd heq (refuse_ne_ok _ _ _ _)

theorem yields_integer (wanted : Wanted) (low high : Int) : Yields P (fun _ => True) (integer wanted low high) := by
  intro tokens rest n htokens heq
  unfold integer at heq
  split at heq
  · split at heq
    · split at heq
      · cases heq
        exact ⟨trivial, fun t ht => htokens t (List.mem_cons_of_mem _ ht)⟩
      · cases heq
    · exact absurd heq (refuse_ne_ok _ _ _ _)
  · exact absurd heq (refuse_ne_ok _ _ _ _)

theorem yields_unsigned : Yields P (fun _ => True) unsigned :=
  (yields_integer _ _ _).bind fun _ _ => .done trivial

theorem yields_skipFrom (tokens : List Token) : ∀ {place : Place} {stack : List Bracket} {rest : List Token},
    (∀ t ∈ tokens, P t) → skipFrom place stack tokens = (.ok (), rest) → ∀ t ∈ rest, P t := by
  induction tokens with
  | nil =>
    intro place stack rest _ heq
    cases heq
  | cons token tokens ih =>
    intro place stack rest htokens heq
    obtain ⟨-, hmore⟩ := List.forall_mem_cons.1 htokens
    rw [skipFrom] at heq
    split at heq
    · cases heq
    · cases heq
      exact hmore
    · exact ih hmore heq

theorem yields_skip : Yields P (fun _ => True) skip := fun tokens _ _ htokens heq =>
  ⟨trivial, yields_skipFrom tokens htokens heq⟩

end Decoder

/-! ## Records -/

namespace Layout

open Decoder

variable {P : Token → Prop} {α δ : Type} {good : δ → Prop} {good' : α → Prop} {l : Layout δ α}

theorem yields_finish (hbuild : ∀ draft a, good draft → l.build draft = some a → good' a) {draft : δ}
    (h : good draft) : Yields P good' (l.finish draft) := by
  unfold finish
  split
  · exact .fail _
  · cases ha : l.build draft with
    | none => exact .fail _
    | some a => exact .done (hbuild draft a h ha)

theorem yields_member (hmembers : ∀ m ∈ l.members, ∀ draft, good draft → Yields P good (m.read draft))
    {draft : δ} (h : good draft) (name : String) : Yields P good (l.member draft name) := by
  unfold member
  split
  · rename_i m hm
    split
    · exact .fail _
    · exact (yields_exactly _).bind fun _ _ => hmembers m (List.mem_of_find?_eq_some hm) draft h
  · exact (yields_exactly _).bind fun _ _ => yields_skip.bind fun _ _ => .done h

theorem yields_moreMembers (hmembers : ∀ m ∈ l.members, ∀ draft, good draft → Yields P good (m.read draft))
    (hbuild : ∀ draft a, good draft → l.build draft = some a → good' a) (turns : List Token) :
    ∀ {draft : δ}, good draft → Yields P good' (l.moreMembers turns draft) := by
  induction turns with
  | nil => intro draft _; exact .fail _
  | cons turn turns ih =>
    intro draft h tokens rest a htokens heq
    unfold moreMembers at heq
    split at heq
    · exact yields_finish hbuild h (List.forall_mem_cons.1 htokens).2 heq
    · exact ((yields_member hmembers h _).bind fun _ => ih)
        (List.forall_mem_cons.1 (List.forall_mem_cons.1 htokens).2).2 heq
    · cases heq

theorem yields_inOrder (hbuild : ∀ draft a, good draft → l.build draft = some a → good' a)
    (members : List (Member δ)) : (∀ m ∈ members, ∀ draft, good draft → Yields P good (m.read draft)) →
      ∀ {place : Nat} {draft : δ}, good draft → Yields P good' (l.inOrder place members draft) := by
  induction members with
  | nil =>
    intro _ place draft h tokens rest a htokens heq
    unfold inOrder at heq
    split at heq
    · exact yields_finish hbuild h (List.forall_mem_cons.1 htokens).2 heq
    · cases heq
  | cons m members ih =>
    intro hmembers place draft h tokens rest a htokens heq
    obtain ⟨hm, hothers⟩ := List.forall_mem_cons.1 hmembers
    unfold inOrder at heq
    split at heq
    · split at heq
      · cases heq
      · exact ih hothers h htokens heq
    · have hrest : Yields P good' (m.read draft >>= fun draft => l.inOrder (place + 1) members draft) :=
        (hm draft h).bind fun _ => ih hothers
      split at heq
      · exact ((yields_exactly _).bind fun _ _ => hrest) htokens heq
      · exact hrest htokens heq

theorem yields_read (hblank : good l.blank)
    (hmembers : ∀ m ∈ l.members, ∀ draft, good draft → Yields P good (m.read draft))
    (hbuild : ∀ draft a, good draft → l.build draft = some a → good' a) : Yields P good' l.read := by
  intro tokens rest a htokens heq
  unfold read at heq
  split at heq
  · exact yields_finish hbuild hblank (List.forall_mem_cons.1 (List.forall_mem_cons.1 htokens).2).2 heq
  · exact ((yields_member hmembers hblank _).bind fun _ => yields_moreMembers hmembers hbuild _)
      (List.forall_mem_cons.1 (List.forall_mem_cons.1 htokens).2).2 heq
  · cases heq
  · exact yields_inOrder hbuild l.members hmembers hblank (List.forall_mem_cons.1 htokens).2 heq
  · exact absurd heq (refuse_ne_ok _ _ _ _)

end Layout

/-- What is decoded from a document has what its decoder yields from tokens that are no longer. -/
theorem good_of_decode {α : Type} {good : α → Prop} {d : Decoder α} {document : Bytes} {a : α}
    (hd : d.Yields (Token.Within (16 * document.length)) good) (h : decode d document = .ok a) : good a := by
  unfold decode at h
  split at h
  · rename_i heq
    cases h
    exact (hd (Token.within_ofBytes document) heq).1
  · cases h
  · cases h

end DeviceLog.Json
