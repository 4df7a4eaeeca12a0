import DeviceLog.Partition.Calendar

/-! # The text of a date tells the date

* `padded_inj`: zeros in front do not make numbers alike.
* `yearText_inj`: the first character tells apart years of four digits, later years and years before
  the year 0, and the digits tell the year.
* `Date.text_inj`: month and day follow the last two dashes.
-/

namespace DeviceLog.Date

/-! ## Numbers -/

theorem toList_padded (width n : Nat) :
    (padded width n).toList
      = List.replicate (width - (toString n).length) '0' ++ Nat.toDigits 10 n := by
  simp [padded]

theorem isDigit_of_mem_padded {width n : Nat} {c : Char} (h : c ∈ (padded width n).toList) :
    c.isDigit = true := by
  rw [toList_padded] at h
  rcases List.mem_append.1 h with h | h
  · rw [(List.mem_replicate.1 h).2]
    decide
  · exact Nat.isDigit_of_mem_toDigits (by decide) (by decide) h

/-- Zeros in front do not make numbers alike. -/
theorem padded_inj {width m n : Nat} (h : padded width m = padded width n) : m = n := by
  have hvalue : ∀ k, Nat.ofDigitChars 10 (padded width k).toList 0 = k := by
    intro k
    rw [toList_padded, Nat.ofDigitChars_append, Nat.ofDigitChars_replicate_zero]
    simp
  rw [← hvalue m, h, hvalue]

/-! ## Years -/

theorem head?_padded {width n : Nat} {c : Char} (h : (padded width n).toList.head? = some c) :
    c.isDigit = true :=
  isDigit_of_mem_padded (List.mem_of_mem_head? h)

/-- The three kinds of years. -/
theorem yearText_cases (year : Int) :
    (0 ≤ year ∧ yearText year = padded 4 year.toNat)
      ∨ (0 ≤ year ∧ yearText year = "+" ++ padded 4 year.toNat)
      ∨ year < 0 ∧ yearText year = "-" ++ padded 4 year.natAbs := by
  simp only [yearText]
  split
  · rename_i h
    exact .inl ⟨h.1, rfl⟩
  · split
    · rename_i h
      exact .inr (.inl ⟨h, rfl⟩)
    · rename_i h
      exact .inr (.inr ⟨by omega, rfl⟩)

theorem padded_ne_signed {sign : String} {c : Char} (hsign : sign.toList = [c])
    (hc : c.isDigit = false) (width n : Nat) (s : String) : padded width n ≠ sign ++ s := by
  intro h
  have hhead : (padded width n).toList.head? = some c := by
    rw [h, String.toList_append, hsign]
    rfl
  rw [head?_padded hhead] at hc
  cases hc

theorem eq_of_sign_append {sign s t : String} (h : sign ++ s = sign ++ t) : s = t := by
  have hlist := congrArg String.toList h
  rw [String.toList_append, String.toList_append, List.append_right_inj] at hlist
  exact String.toList_inj.1 hlist

theorem yearText_inj {m n : Int} (h : yearText m = yearText n) : m = n := by
  have hplus := @padded_ne_signed "+" '+' rfl rfl 4
  have hminus := @padded_ne_signed "-" '-' rfl rfl 4
  have hsigns : ∀ s t : String, "+" ++ s ≠ "-" ++ t := by
    intro s t heq
    have hhead := congrArg (fun u => u.toList.head?) heq
    simp at hhead
  -- Years of one kind are told by their digits, and years of two kinds by the sign.
  rcases yearText_cases m with ⟨hm, htm⟩ | ⟨hm, htm⟩ | ⟨hm, htm⟩ <;>
    rcases yearText_cases n with ⟨hn, htn⟩ | ⟨hn, htn⟩ | ⟨hn, htn⟩ <;> rw [htm, htn] at h
  · have := padded_inj h
    omega
  · exact absurd h (hplus _ _)
  · exact absurd h (hminus _ _)
  · exact absurd h.symm (hplus _ _)
  · have := padded_inj (eq_of_sign_append h)
    omega
  · exact absurd h (hsigns _ _)
  · exact absurd h.symm (hminus _ _)
  · exact absurd h.symm (hsigns _ _)
  · have := padded_inj (eq_of_sign_append h)
    omega

/-! ## Dates -/

/-- What stands after the last dash, and what stands before it. -/
theorem eq_of_append_dash {s t s' t' : List Char} (ht : '-' ∉ t) (ht' : '-' ∉ t')
    (h : s ++ '-' :: t = s' ++ '-' :: t') : s = s' ∧ t = t' := by
  have key : ∀ {u v : List Char}, '-' ∉ u →
      (u.reverse ++ '-' :: v).takeWhile (· ≠ '-') = u.reverse := by
    intro u v hu
    have hall : ∀ c ∈ u.reverse, decide (c ≠ '-') = true := fun c hc => by
      rw [decide_eq_true_eq]
      rintro rfl
      exact hu (List.mem_reverse.1 hc)
    rw [List.takeWhile_append_of_pos hall]
    simp
  have hreverse : t.reverse ++ '-' :: s.reverse = t'.reverse ++ '-' :: s'.reverse := by
    simpa using congrArg List.reverse h
  have htails : t.reverse = t'.reverse := by
    rw [← @key t s.reverse ht, hreverse, key ht']
  have hts : t = t' := List.reverse_inj.1 htails
  subst hts
  exact ⟨List.append_cancel_right h, rfl⟩

theorem dash_not_mem_padded (width n : Nat) : '-' ∉ (padded width n).toList := fun h => by
  have := isDigit_of_mem_padded h
  revert this
  decide

theorem text_inj {a b : Date} (h : a.text = b.text) : a = b := by
  have hlist : ∀ d : Date, d.text.toList
      = ((yearText d.year).toList ++ '-' :: (padded 2 d.month).toList) ++ '-' :: (padded 2 d.day).toList := by
    intro d
    simp [text]
  have h' := congrArg String.toList h
  rw [hlist, hlist] at h'
  obtain ⟨hfront, hday⟩ := eq_of_append_dash (dash_not_mem_padded _ _) (dash_not_mem_padded _ _) h'
  obtain ⟨hyear, hmonth⟩ :=
    eq_of_append_dash (dash_not_mem_padded _ _) (dash_not_mem_padded _ _) hfront
  obtain ⟨year, month, day⟩ := a
  obtain ⟨year', month', day'⟩ := b
  rw [Date.mk.injEq]
  exact ⟨yearText_inj (String.toList_inj.1 hyear), padded_inj (String.toList_inj.1 hmonth),
    padded_inj (String.toList_inj.1 hday)⟩

/-- The characters of a date are digits, dashes and perhaps a plus sign. -/
theorem slash_not_mem_text (d : Date) : '/' ∉ d.text.toList := by
  have hpadded : ∀ width n : Nat, '/' ∉ (padded width n).toList := fun width n h => by
    have := isDigit_of_mem_padded h
    revert this
    decide
  have hyear : '/' ∉ (yearText d.year).toList := by
    simp only [yearText]
    split
    · exact hpadded _ _
    · split <;> simp [hpadded]
  simp [text, hyear, hpadded]

theorem dash_mem_text (d : Date) : '-' ∈ d.text.toList := by
  simp [text]

end DeviceLog.Date
