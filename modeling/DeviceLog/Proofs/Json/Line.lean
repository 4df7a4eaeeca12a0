import DeviceLog.Proofs.Json.Value

/-! # A value takes one line

`Plain s` says that there are no control characters in a text, and so no line breaks. `Value.plain_render`: a
rendered value is plain, whatever its texts are.
-/

namespace DeviceLog.Json

/-- Whether a text has no control characters, of which line breaks are some. -/
def Plain (s : String) : Prop := ∀ c ∈ s.toList, ¬c.toNat < 0x20

instance (s : String) : Decidable (Plain s) := List.decidableBAll _ s.toList

theorem Plain.append {s t : String} (hs : Plain s) (ht : Plain t) : Plain (s ++ t) := by
  intro c hc
  rw [String.toList_append, List.mem_append] at hc
  exact hc.elim (hs c) (ht c)

theorem plain_intercalate : ∀ {parts : List String}, (∀ s ∈ parts, Plain s) → Plain (String.intercalate "," parts)
  | [], _ => nofun
  | [s], h => by
    simpa using h s List.mem_cons_self
  | s :: t :: parts, h => by
    have hcomma : Plain "," := by decide
    have hrest := plain_intercalate fun r hr => h r (List.mem_cons_of_mem s hr)
    have hall := ((h s List.mem_cons_self).append hcomma).append hrest
    simpa [String.append_assoc] using hall

theorem plain_escaped (c : Char) : Plain (escaped c) := by
  have hcontrol : ∀ m < 0x20, Plain ("\\u00" ++ Text.hexByte (UInt8.ofNat m)) := by decide
  simp only [escaped]
  split_ifs with _ _ _ _ _ _ _ h
  -- Seven escapes are texts of their own; a character that has none is no control character.
  any_goals decide
  · exact hcontrol c.toNat h
  · intro d hd
    rw [String.toList_singleton, List.mem_singleton] at hd
    rwa [hd]

theorem plain_renderText (s : String) : Plain (renderText s) := by
  have hquote : Plain "\"" := by decide
  have hjoin : Plain (String.join (s.toList.map escaped)) := by
    intro c hc
    rw [String.toList_join, List.mem_flatMap] at hc
    obtain ⟨t, ht, hc⟩ := hc
    obtain ⟨d, -, rfl⟩ := List.mem_map.1 ht
    exact plain_escaped d c hc
  exact (hquote.append hjoin).append hquote

theorem plain_natToString (n : Nat) : Plain (toString n) := by
  intro c hc
  rw [Nat.toString_eq_repr, Nat.toList_repr] at hc
  have hdigit := Nat.isDigit_of_mem_toDigits (by decide) (by decide) hc
  have hleast : 0x30 ≤ c.toNat := by
    simp only [Char.isDigit, Bool.and_eq_true, decide_eq_true_eq] at hdigit
    exact UInt32.le_iff_toNat_le.1 hdigit.1
  omega

theorem plain_intToString (n : Int) : Plain (toString n) := by
  cases n with
  | ofNat n => exact plain_natToString n
  | negSucc n =>
    have hsign : Plain "-" := by decide
    exact hsign.append (plain_natToString (n + 1))

namespace Value

/-- A value is rendered without control characters, so that it takes one line. -/
theorem plain_render (v : Value) : Plain v.render := by
  have hmark : ∀ s ∈ ["[", "]", "\x7b", "\x7d", ":", "null", "true", "false"], Plain s := by decide
  induction v using induction with
  | null => exact hmark _ (by decide)
  | bool b => cases b <;> exact hmark _ (by decide)
  | integer n => exact plain_intToString n
  | text s => exact plain_renderText s
  | list items ih =>
    have hitems : Plain (String.intercalate "," (renderItems items)) := by
      rw [renderItems_eq_map]
      exact plain_intercalate (List.forall_mem_map.2 ih)
    rw [render]
    exact ((hmark "[" (by decide)).append hitems).append (hmark "]" (by decide))
  | object members ih =>
    have hmembers : Plain (String.intercalate "," (renderMembers members)) := by
      rw [renderMembers_eq_map]
      exact plain_intercalate (List.forall_mem_map.2 fun m hm =>
        ((plain_renderText m.1).append (hmark ":" (by decide))).append (ih m hm))
    rw [render]
    exact ((hmark "\x7b" (by decide)).append hmembers).append (hmark "\x7d" (by decide))

end Value

end DeviceLog.Json
