import Grammarian.Text.Visible

/-!
# Fields and lines

Names and lines are put together of fields with separators between them, and a text of lines with a line feed behind
each. What has no separator in it is found again: numbers have digits only, and visible text has no line feed.
-/

namespace Grammarian.Text

variable {c : Char} {front front' back back' : List Char}

/-! ## Separators -/

/-- What stands in front of the first separator, and behind it. -/
theorem eq_of_first_separator (h : front ++ c :: back = front' ++ c :: back') (hfront : c ∉ front)
    (hfront' : c ∉ front') : front = front' ∧ back = back' := by
  have hsplit := congrArg (List.splitOn c) h
  rw [List.splitOn_append_cons_self_of_not_mem hfront, List.splitOn_append_cons_self_of_not_mem hfront'] at hsplit
  obtain rfl := (List.cons.inj hsplit).1
  exact ⟨rfl, (List.cons.inj (List.append_cancel_left h)).2⟩

/-- What stands in front of the last separator, and behind it. -/
theorem eq_of_last_separator (h : front ++ c :: back = front' ++ c :: back') (hback : c ∉ back)
    (hback' : c ∉ back') : front = front' ∧ back = back' := by
  have hreverse : back.reverse ++ c :: front.reverse = back'.reverse ++ c :: front'.reverse := by
    simpa using congrArg List.reverse h
  obtain ⟨hbehind, hbefore⟩ :=
    eq_of_first_separator hreverse (mt List.mem_reverse.1 hback) (mt List.mem_reverse.1 hback')
  exact ⟨List.reverse_inj.1 hbefore, List.reverse_inj.1 hbehind⟩

/-- Lines that are written with a line feed behind each. -/
theorem splitOn_lines {lines : List (List Char)} (h : ∀ l ∈ lines, '\n' ∉ l) :
    (lines.flatMap (· ++ ['\n'])).splitOn '\n' = lines ++ [[]] := by
  induction lines with
  | nil => rfl
  | cons l lines ih =>
    rw [List.forall_mem_cons] at h
    rw [List.flatMap_cons, List.append_assoc, List.singleton_append,
      List.splitOn_append_cons_self_of_not_mem h.1, ih h.2, List.cons_append]

/-! ## Numbers -/

theorem not_mem_toDigits (hc : c.isDigit = false) (k : Nat) : c ∉ Nat.toDigits 10 k := fun hmem => by
  rw [Nat.isDigit_of_mem_toDigits (by decide) (by decide) hmem] at hc
  cases hc

theorem toDigits_inj {k k' : Nat} (h : Nat.toDigits 10 k = Nat.toDigits 10 k') : k = k' := by
  rw [← Nat.ofDigitChars_ten_toDigits (n := k), h, Nat.ofDigitChars_ten_toDigits]

/-! ## Visible text -/

theorem lineFeed_not_mem_hexDigits (n : Nat) : '\n' ∉ hexDigits n := by
  have hdigit : ∀ d, d < 16 → '\n' ≠ Nat.digitChar d := by decide
  unfold hexDigits
  induction n using Nat.strongRecOn with
  | ind n ih =>
    rw [Nat.toDigits_eq_if (by decide)]
    split
    next hlt => simp [hdigit n hlt]
    next hge =>
      rw [List.mem_append, List.mem_singleton, not_or]
      exact ⟨ih (n / 16) (by omega), hdigit _ (Nat.mod_lt n (by decide))⟩

theorem lineFeed_not_mem_visibleChar (c : Char) : '\n' ∉ visibleChar c := by
  unfold visibleChar
  split
  · decide
  · decide
  · decide
  · decide
  · decide
  · decide
  next hfeed _ _ _ =>
    split
    · simp [lineFeed_not_mem_hexDigits]
    · simpa using Ne.symm hfeed

/-- Visible text stays on one line. -/
theorem lineFeed_not_mem_visible (cs : List Char) : '\n' ∉ visible cs := by
  simp [visible, lineFeed_not_mem_visibleChar]

end Grammarian.Text
