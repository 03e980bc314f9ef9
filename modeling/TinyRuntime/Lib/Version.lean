import TinyRuntime.Lib.Separator
import TinyRuntime.Lib.Decimal
import Mathlib.Data.String.Basic

/-!
# Dotted Versions

Versions as lists of numbers, compared component by component, and their texts, compared
character by character. The two orders agree as long as the components that decide have
the same number of digits. Where they do not, the text of the smaller number may be the
greater one, and a version that another one goes on from is compared with whatever
follows the version in the text.

## Main definitions

* `Version`, `Version.text`: A version and its text.
* `Version.Shown`: When a greater version has the greater text, number by number.

## Theorems

* `Decimal.lt_of_value`: Texts of one length compare like their numbers.
* `Version.text_injective`: The text determines the version.
* `Version.text_lt_iff`: When the greater version has the greater text.
-/

namespace Decimal

theorem value_lt_pow {digits : List Char} (h : ∀ c ∈ digits, c.isDigit = true) :
    value digits < 10 ^ digits.length := by
  induction digits using List.reverseRecOn with
  | nil => exact Nat.zero_lt_one
  | append_singleton digits d ih =>
      have hd := digitChar_value (h d (List.mem_append_right _ (List.mem_singleton_self d)))
      have hvalue := ih fun c hc => h c (List.mem_append_left _ hc)
      rw [value_concat, List.length_append, List.length_singleton, Nat.pow_succ]
      omega

/-- Read on from a number. -/
theorem ofDigitChars_bounds {digits : List Char} (h : ∀ c ∈ digits, c.isDigit = true)
    (n : Nat) :
    10 ^ digits.length * n ≤ Nat.ofDigitChars 10 digits n ∧
      Nat.ofDigitChars 10 digits n < 10 ^ digits.length * (n + 1) := by
  have hvalue : Nat.ofDigitChars 10 digits 0 < 10 ^ digits.length := value_lt_pow h
  rw [Nat.ofDigitChars_eq_ofDigitChars_zero, Nat.mul_succ]
  omega

/-- Texts of one length compare like their numbers. By induction from the first digit. -/
theorem lt_of_value {first second : List Char} (hlen : first.length = second.length)
    (h : ∀ c ∈ first, c.isDigit = true) (h' : ∀ c ∈ second, c.isDigit = true) {n : Nat}
    (hlt : Nat.ofDigitChars 10 first n < Nat.ofDigitChars 10 second n) : first < second := by
  induction first generalizing second n with
  | nil =>
      rw [List.length_eq_zero_iff.mp hlen.symm] at hlt
      exact absurd hlt (Nat.lt_irrefl _)
  | cons c first ih =>
      cases second with
      | nil => cases hlen
      | cons d second =>
          have hrest : first.length = second.length := Nat.succ.inj hlen
          have hfirst := fun x hx => h x (List.mem_cons_of_mem _ hx)
          have hsecond := fun x hx => h' x (List.mem_cons_of_mem _ hx)
          have hc := digit_bounds (h c List.mem_cons_self)
          have hd := digit_bounds (h' d List.mem_cons_self)
          have hzero : '0'.toNat = 48 := rfl
          rw [Nat.ofDigitChars_cons, Nat.ofDigitChars_cons, hzero] at hlt
          rw [List.cons_lt_cons_iff]
          by_cases hcd : c = d
          · subst hcd
            exact .inr ⟨rfl, ih hrest hfirst hsecond hlt⟩
          · refine .inl (Char.lt_def.mpr ?_)
            by_contra hnot
            -- A greater first digit outweighs everything behind it.
            have hne : c.toNat ≠ d.toNat := fun heq => hcd (Char.toNat_inj.mp heq)
            have hle : d.toNat ≤ c.toNat := Nat.le_of_not_lt hnot
            have hdc : 10 * n + (d.toNat - 48) + 1 ≤ 10 * n + (c.toNat - 48) := by omega
            have hscaled := Nat.mul_le_mul_left (10 ^ second.length) hdc
            have hgreat := (ofDigitChars_bounds hfirst (10 * n + (c.toNat - 48))).1
            have hsmall := (ofDigitChars_bounds hsecond (10 * n + (d.toNat - 48))).2
            rw [hrest] at hgreat
            exact Nat.lt_irrefl _ (hlt.trans (hsmall.trans_le (hscaled.trans hgreat)))

/-- The number that the first digits of another one make. -/
theorem toDigits_leading {n k : Nat} (hk : k < (Nat.toDigits 10 n).length) :
    ∃ rest, rest.length = k ∧ Nat.toDigits 10 n = Nat.toDigits 10 (n / 10 ^ k) ++ rest := by
  induction k with
  | zero => exact ⟨[], rfl, by rw [Nat.pow_zero, Nat.div_one, List.append_nil]⟩
  | succ k ih =>
      rcases ih (Nat.lt_of_succ_lt hk) with ⟨rest, hrest, hn⟩
      have hlength := congrArg List.length hn
      rw [List.length_append, hrest] at hlength
      have hmore : 10 ≤ n / 10 ^ k := by
        by_contra hsmall
        rw [Nat.toDigits_of_lt_base (Nat.lt_of_not_le hsmall), List.length_singleton] at hlength
        omega
      refine ⟨Nat.digitChar (n / 10 ^ k % 10) :: rest, congrArg (· + 1) hrest, ?_⟩
      rw [hn, Nat.toDigits_of_base_le (by decide) hmore, Nat.div_div_eq_div_mul, ← Nat.pow_succ,
        List.append_assoc]
      rfl

theorem length_toDigits_mono {m n : Nat} (h : m ≤ n) :
    (Nat.toDigits 10 m).length ≤ (Nat.toDigits 10 n).length :=
  (Nat.length_toDigits_le_iff (by decide) Nat.length_toDigits_pos).mpr
    (h.trans_lt ((Nat.length_toDigits_le_iff (by decide) Nat.length_toDigits_pos).mp
      (Nat.le_refl _)))

/-- Numbers with equally many digits. -/
theorem toDigits_lt {m n : Nat} (hlen : (Nat.toDigits 10 m).length = (Nat.toDigits 10 n).length)
    (h : m < n) : Nat.toDigits 10 m < Nat.toDigits 10 n := by
  refine @lt_of_value _ _ hlen (fun c hc => ?_) (fun c hc => ?_) 0 ?_
  · exact Nat.isDigit_of_mem_toDigits (by decide) (by decide) hc
  · exact Nat.isDigit_of_mem_toDigits (by decide) (by decide) hc
  · rw [Nat.ofDigitChars_ten_toDigits, Nat.ofDigitChars_ten_toDigits]
    exact h

end Decimal

/-! ## Orders of texts -/

/-- What follows two texts of one length does not matter if they differ. -/
theorem List.append_lt_append {α : Type} [LinearOrder α] {first second : List α}
    (hlen : first.length = second.length) (h : first < second) (x y : List α) :
    first ++ x < second ++ y := by
  induction first generalizing second with
  | nil =>
      rw [List.length_eq_zero_iff.mp hlen.symm] at h
      exact absurd h (List.lt_irrefl _)
  | cons c first ih =>
      cases second with
      | nil => cases hlen
      | cons d second =>
          rw [List.cons_lt_cons_iff] at h
          rw [List.cons_append, List.cons_append, List.cons_lt_cons_iff]
          rcases h with h | ⟨rfl, h⟩
          · exact .inl h
          · exact .inr ⟨rfl, ih (Nat.succ.inj hlen) h⟩

theorem List.append_left_lt_iff {α : Type} [LinearOrder α] (shared : List α) {x y : List α} :
    shared ++ x < shared ++ y ↔ x < y := by
  refine ⟨fun h => ?_, List.append_left_lt⟩
  rcases lt_trichotomy x y with hlt | rfl | hgt
  · exact hlt
  · exact absurd h (List.lt_irrefl _)
  · exact absurd (h.trans (List.append_left_lt hgt)) (List.lt_irrefl _)

/-! ## Versions -/

/-- A version, the most significant number first. -/
abbrev Version := List Nat

namespace Version

/-- The dotted text of a version. -/
def text (v : Version) : List Char :=
  Separator.joined '.' (v.map (Nat.toDigits 10))

/-- The rest of a version's text behind one of its numbers, and what follows it. -/
def tail (suffix : List Char) : Version → List Char
  | [] => suffix
  | n :: v => '.' :: (Nat.toDigits 10 n ++ tail suffix v)

/-- How many more digits a number has than another one. -/
def extra (m n : Nat) : Nat :=
  (Nat.toDigits 10 n).length - (Nat.toDigits 10 m).length

/-- A greater version, given first, has the greater text when both are followed by
    `suffix`. The first digits of the number that decides, as many as the other version's
    number has, make a greater number than that one; or the same one, and a dot or what
    follows the versions comes before the digit that is next. -/
def Shown (suffix : List Char) : Version → Version → Prop
  | n :: v, m :: w =>
      if n = m then Shown suffix v w
      else m < n / 10 ^ extra m n ∨ m = n / 10 ^ extra m n ∧
        (w ≠ [] ∨ suffix < (Nat.toDigits 10 n).drop (Nat.toDigits 10 m).length ++ tail suffix v)
  | n :: v, [] => suffix < '.' :: (Nat.toDigits 10 n ++ tail suffix v)
  | [], _ => True

instance decidableShown (suffix : List Char) : (v w : Version) → Decidable (Shown suffix v w)
  | n :: v, m :: w =>
      have := decidableShown suffix v w
      inferInstanceAs (Decidable (if n = m then _ else _))
  | n :: v, [] => inferInstanceAs (Decidable (suffix < '.' :: (Nat.toDigits 10 n ++ tail suffix v)))
  | [], _ => .isTrue trivial

theorem text_cons (suffix : List Char) (n : Nat) (v : Version) :
    text (n :: v) ++ suffix = Nat.toDigits 10 n ++ tail suffix v := by
  induction v generalizing n with
  | nil => rfl
  | cons m v ih =>
      rw [tail, ← ih m]
      exact List.append_assoc ..

theorem dot_clean (n : Nat) : '.' ∉ Nat.toDigits 10 n :=
  fun h => absurd (Nat.isDigit_of_mem_toDigits (by decide) (by decide) h) (by decide)

/-- The text determines the version. -/
theorem text_injective {v w : Version} (hv : v ≠ []) (hw : w ≠ []) (h : text v = text w) :
    v = w := by
  have hclean : ∀ u : Version, ∀ f ∈ u.map (Nat.toDigits 10), '.' ∉ f := by
    intro u f hf
    rcases List.mem_map.mp hf with ⟨n, _, rfl⟩
    exact dot_clean n
  have hcount := congrArg (List.count '.') h
  rw [text, text, Separator.count_joined (hclean v), Separator.count_joined (hclean w),
    List.length_map, List.length_map] at hcount
  have hlen : v.length = w.length := by
    have := List.length_pos_of_ne_nil hv
    have := List.length_pos_of_ne_nil hw
    omega
  have hfields := Separator.joined_injective (by rw [List.length_map, List.length_map, hlen])
    (hclean v) h
  refine List.map_injective_iff.mpr (fun m n hmn => ?_) hfields
  rw [← @Nat.ofDigitChars_ten_toDigits m, hmn, Nat.ofDigitChars_ten_toDigits]

/-- The numbers that decide. -/
theorem number_lt_iff (suffix : List Char) {m n : Nat} (hmn : m < n) (v w : Version) :
    Nat.toDigits 10 m ++ tail suffix w < Nat.toDigits 10 n ++ tail suffix v ↔
      m < n / 10 ^ extra m n ∨ m = n / 10 ^ extra m n ∧
        (w ≠ [] ∨
          suffix < (Nat.toDigits 10 n).drop (Nat.toDigits 10 m).length ++ tail suffix v) := by
  have hle := Decimal.length_toDigits_mono (Nat.le_of_lt hmn)
  have hpos := @Nat.length_toDigits_pos 10 m
  rcases @Decimal.toDigits_leading n (extra m n) (by unfold extra; omega) with ⟨rest, hrest, hn⟩
  have hlen : (Nat.toDigits 10 (n / 10 ^ extra m n)).length = (Nat.toDigits 10 m).length := by
    have := congrArg List.length hn
    rw [List.length_append, hrest, extra] at this
    unfold extra
    omega
  have hdrop : (Nat.toDigits 10 n).drop (Nat.toDigits 10 m).length = rest := by
    rw [hn, ← hlen, List.drop_left]
  rw [hdrop]
  generalize hlead : n / 10 ^ extra m n = lead at hn hlen ⊢
  rw [hn, List.append_assoc]
  rcases lt_trichotomy m lead with hlt | rfl | hgt
  · exact iff_of_true (List.append_lt_append hlen.symm (Decimal.toDigits_lt hlen.symm hlt) ..)
      (.inl hlt)
  · rw [List.append_left_lt_iff]
    cases w with
    | nil =>
        refine ⟨fun h => .inr ⟨rfl, .inr h⟩, ?_⟩
        rintro (h | ⟨_, h | h⟩)
        · exact absurd h (Nat.lt_irrefl _)
        · exact absurd rfl h
        · exact h
    | cons k w =>
        refine iff_of_true ?_ (.inr ⟨rfl, .inl (List.cons_ne_nil k w)⟩)
        -- There is a next digit, for the numbers differ, and a dot comes before it.
        cases rest with
        | nil =>
            rw [List.append_nil] at hn
            have hsame : m = n := by
              rw [← @Nat.ofDigitChars_ten_toDigits m, ← hn, Nat.ofDigitChars_ten_toDigits]
            exact absurd hsame (Nat.ne_of_lt hmn)
        | cons c rest =>
            have hdigit : c ∈ Nat.toDigits 10 n :=
              hn ▸ List.mem_append_right _ List.mem_cons_self
            have hbounds := Decimal.digit_bounds
              (Nat.isDigit_of_mem_toDigits (by decide) (by decide) hdigit)
            have hdot : '.'.toNat = 46 := rfl
            refine List.cons_lt_cons_iff.mpr (.inl (Char.lt_def.mpr ?_))
            exact Nat.lt_of_lt_of_le (by decide) hbounds.1
  · refine iff_of_false (fun h => ?_) (by omega)
    exact absurd (h.trans (List.append_lt_append hlen (Decimal.toDigits_lt hlen hgt) ..))
      (List.lt_irrefl _)

/-- When the greater version has the greater text. By induction over the numbers that are
    the same in both. -/
theorem text_lt_iff (suffix : List Char) {v w : Version} (hw : w ≠ []) (hlt : w < v) :
    text w ++ suffix < text v ++ suffix ↔ Shown suffix v w := by
  cases w with
  | nil => exact absurd rfl hw
  | cons m w =>
      cases v with
      | nil => exact absurd hlt (List.not_lt_nil _)
      | cons n v =>
          rw [text_cons, text_cons]
          clear hw
          induction w generalizing m n v with
          | nil =>
              rw [List.cons_lt_cons_iff] at hlt
              rcases hlt with hlt | ⟨rfl, hlt⟩
              · rw [Shown, if_neg (Nat.ne_of_gt hlt)]
                exact number_lt_iff suffix hlt v []
              · rw [Shown, if_pos rfl, List.append_left_lt_iff]
                cases v with
                | nil => exact absurd hlt (List.lt_irrefl _)
                | cons n v => exact Iff.rfl
          | cons k w ih =>
              rw [List.cons_lt_cons_iff] at hlt
              rcases hlt with hlt | ⟨rfl, hlt⟩
              · rw [Shown, if_neg (Nat.ne_of_gt hlt)]
                exact number_lt_iff suffix hlt v (k :: w)
              · rw [Shown, if_pos rfl, List.append_left_lt_iff]
                cases v with
                | nil => exact absurd hlt (List.not_lt_nil _)
                | cons n v =>
                    rw [← ih k n v hlt, tail, tail, List.cons_lt_cons_iff]
                    refine ⟨fun h => ?_, fun h => .inr ⟨rfl, h⟩⟩
                    rcases h with h | h
                    · exact absurd h (Nat.lt_irrefl _)
                    · exact h.2

end Version
