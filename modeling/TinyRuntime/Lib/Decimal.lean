import Mathlib.Data.List.Induction
import Mathlib.Tactic.Common

/-!
# Spellings of a Number

Sequences of decimal digits and the numbers they are read as. The digits a number is
printed with are one sequence that is read as it, and all others have zeros in front
of them.

## Theorems

* `digitChar_value`: A digit is printed as it is read.
* `spelled`: A sequence of digits is its number's, with zeros in front.
* `toDigits_spelled`: The number's own digits have no zeros in front.
* `toString_injective`: The text of a number determines it.
-/

namespace Decimal

/-- The value of a sequence of digits. -/
abbrev value (digits : List Char) : Nat :=
  Nat.ofDigitChars 10 digits 0

theorem value_concat (digits : List Char) (c : Char) :
    value (digits ++ [c]) = 10 * value digits + (c.toNat - 48) := by
  rw [value, Nat.ofDigitChars_append, Nat.ofDigitChars_cons, Nat.ofDigitChars_nil]
  rfl

theorem digit_bounds {c : Char} (h : c.isDigit = true) : 48 ≤ c.toNat ∧ c.toNat ≤ 57 := by
  simp only [Char.isDigit, Bool.and_eq_true, decide_eq_true_eq] at h
  exact h

/-- A digit is printed as it is read. -/
theorem digitChar_value {c : Char} (h : c.isDigit = true) :
    c.toNat - 48 < 10 ∧ Nat.digitChar (c.toNat - 48) = c := by
  have hbounds := digit_bounds h
  have hlt : c.toNat - 48 < 10 := by omega
  refine ⟨hlt, Char.toNat_inj.mp ?_⟩
  rw [Nat.toNat_digitChar_of_lt_ten hlt]
  omega

/-- Digits whose value is zero are zeros. -/
theorem zeros_of_value {digits : List Char} (h : ∀ c ∈ digits, c.isDigit = true)
    (hv : value digits = 0) : digits = List.replicate digits.length '0' := by
  refine List.eq_replicate_of_mem fun c hc => ?_
  induction digits using List.reverseRecOn with
  | nil => cases hc
  | append_singleton digits d ih =>
      rw [value_concat] at hv
      rcases List.mem_append.mp hc with hc | hc
      · exact ih (fun x hx => h x (List.mem_append_left _ hx)) (by omega) hc
      · rw [List.mem_singleton.mp hc]
        have hd := digitChar_value (h d (List.mem_append_right _ (List.mem_singleton_self d)))
        rw [show d.toNat - 48 = 0 by omega] at hd
        exact hd.2.symm

/-- A sequence of digits is its number's, with zeros in front. By induction from the
    last digit. -/
theorem spelled {digits : List Char} (h : ∀ c ∈ digits, c.isDigit = true)
    (hv : 0 < value digits) :
    ∃ zeros, digits = List.replicate zeros '0' ++ Nat.toDigits 10 (value digits) := by
  induction digits using List.reverseRecOn with
  | nil => cases hv
  | append_singleton digits d ih =>
      have hdigits := fun x hx => h x (List.mem_append_left [d] hx)
      have hd := digitChar_value (h d (List.mem_append_right _ (List.mem_singleton_self d)))
      rw [value_concat] at hv ⊢
      by_cases hzero : value digits = 0
      · -- The last digit is the number.
        refine ⟨digits.length, ?_⟩
        rw [hzero, Nat.mul_zero, Nat.zero_add, Nat.toDigits_of_lt_base hd.1, hd.2,
          ← zeros_of_value hdigits hzero]
      · have hpos := Nat.pos_of_ne_zero hzero
        rcases ih hdigits hpos with ⟨zeros, hzeros⟩
        refine ⟨zeros, ?_⟩
        rw [← Nat.toDigits_append_toDigits (by decide) hpos hd.1, Nat.toDigits_of_lt_base hd.1,
          hd.2, ← List.append_assoc, ← hzeros]

/-- The digits a number is printed with do not begin with a zero. -/
theorem head_toDigits {n : Nat} (hn : 0 < n) : (Nat.toDigits 10 n).head? ≠ some '0' := by
  induction n using Nat.strongRecOn with
  | ind n ih =>
      rw [Nat.toDigits_eq_if (by decide)]
      split
      · rename_i hlt
        intro hhead
        have hchar : Nat.digitChar n = '0' := Option.some.inj hhead
        have hvalue := Nat.toNat_digitChar_of_lt_ten hlt
        rw [hchar] at hvalue
        have hz : '0'.toNat = 48 := rfl
        omega
      · rename_i hge
        have hdiv : 0 < n / 10 := Nat.div_pos (Nat.le_of_not_lt hge) (by decide)
        have hhead := ih (n / 10) (Nat.div_lt_self hn (by decide)) hdiv
        rcases List.exists_cons_of_ne_nil (@Nat.toDigits_ne_nil (n / 10) 10) with ⟨c, cs, hcs⟩
        rw [hcs] at hhead ⊢
        exact hhead

/-- Zeros in front of a number's digits are seen. -/
theorem toDigits_spelled {m n zeros : Nat} (hm : 0 < m)
    (h : Nat.toDigits 10 m = List.replicate zeros '0' ++ Nat.toDigits 10 n) :
    zeros = 0 ∧ m = n := by
  cases zeros with
  | zero =>
      refine ⟨rfl, ?_⟩
      rw [List.replicate_zero, List.nil_append] at h
      rw [← @Nat.ofDigitChars_ten_toDigits m, h, Nat.ofDigitChars_ten_toDigits]
  | succ zeros =>
      refine absurd ?_ (head_toDigits hm)
      rw [h, List.replicate_succ]
      rfl

/-- The text of a number determines it. -/
theorem toString_injective {m n : Nat} (h : toString m = toString n) : m = n := by
  have hdigits : Nat.toDigits 10 m = Nat.toDigits 10 n := String.ofList_injective h
  rw [← @Nat.ofDigitChars_ten_toDigits m, hdigits, Nat.ofDigitChars_ten_toDigits]

end Decimal
