import Mathlib.Data.List.Basic

/-!
# Fields Joined by a Separator

A sequence of fields written one after the other with a separator between them,
over any alphabet. Nothing is escaped, so the text can be read back only if the
fields do not contain the separator, and then only by a reader who knows how
many there are.

The text is read one field at a time: `split_first` compares the first fields
of two texts. Whether a later field can be longer is decided by counting
separators (`count_joined`): a text of `n` clean fields has `n - 1` of them, and
no text of `n` fields has fewer.

## Main definitions

* `joined`: The fields with a separator between them.

## Theorems

* `split_first`, `split_clean`: The first and the last fields of two equal texts.
* `splitOn_append`: The fields of a text with more at its end.
* `count_joined`, `length_le_count`: How many separators a text has.
* `joined_injective`: A text of clean fields is the text of no other fields.
-/

namespace Separator

variable {α : Type} {c : α}

/-- The fields with a separator between them. -/
def joined (c : α) : List (List α) → List α
  | [] => []
  | [f] => f
  | f :: g :: fs => f ++ c :: joined c (g :: fs)

/-- If two texts are equal, the first field of the one is the first field of
    the other, or one of them extends the other by a separator and more. -/
theorem split_first {f g x y : List α} (h : f ++ c :: x = g ++ c :: y) :
    f = g ∧ x = y ∨ (∃ e, g = f ++ c :: e ∧ x = e ++ c :: y) ∨
      ∃ e, f = g ++ c :: e ∧ y = e ++ c :: x := by
  rcases List.append_eq_append_iff.mp h with ⟨e, hg, hx⟩ | ⟨e, hf, hy⟩
  · cases e with
    | nil =>
        simp only [List.append_nil, List.nil_append, List.cons.injEq, true_and] at hg hx
        exact .inl ⟨hg.symm, hx⟩
    | cons d e =>
        simp only [List.cons_append, List.cons.injEq] at hx
        rcases hx with ⟨rfl, hx⟩
        exact .inr (.inl ⟨e, hg, hx⟩)
  · cases e with
    | nil =>
        simp only [List.append_nil, List.nil_append, List.cons.injEq, true_and] at hf hy
        exact .inl ⟨hf, hy.symm⟩
    | cons d e =>
        simp only [List.cons_append, List.cons.injEq] at hy
        rcases hy with ⟨rfl, hy⟩
        exact .inr (.inr ⟨e, hf, hy⟩)

/-- The last fields of two equal texts, if they are clean. -/
theorem split_clean {f g x y : List α} (hx : c ∉ x) (hy : c ∉ y)
    (h : f ++ c :: x = g ++ c :: y) : f = g ∧ x = y := by
  rcases split_first h with h | ⟨e, _, rfl⟩ | ⟨e, _, rfl⟩
  · exact h
  · exact absurd (List.mem_append_right e (List.mem_cons_self ..)) hx
  · exact absurd (List.mem_append_right e (List.mem_cons_self ..)) hy

/-- The pieces of a text, and of the text with more that has no separator in it. -/
theorem splitOn_append [DecidableEq α] (a : α) (xs : List α) : ∃ before last,
    xs.splitOn a = before ++ [last] ∧
      ∀ ys, a ∉ ys → (xs ++ ys).splitOn a = before ++ [last ++ ys] := by
  induction xs with
  | nil => exact ⟨[], [], List.splitOn_nil a, fun ys h => List.splitOn_eq_singleton h⟩
  | cons x xs ih =>
      rcases ih with ⟨before, last, hxs, hmore⟩
      by_cases hx : x = a
      · subst hx
        have hcut : ∀ zs : List α, (x :: zs).splitOn x = [] :: zs.splitOn x := fun zs =>
          List.splitOn_append_cons_self_of_not_mem (List.not_mem_nil) zs
        refine ⟨[] :: before, last, by rw [hcut, hxs]; rfl, fun ys h => ?_⟩
        rw [List.cons_append, hcut, hmore ys h]
        rfl
      · have hgrow : ∀ zs : List α, (x :: zs).splitOn a = (zs.splitOn a).modifyHead (x :: ·) := by
          intro zs
          rw [List.splitOn_cons_eq_if_modifyHead, if_neg (by simpa using hx)]
        cases before with
        | nil =>
            refine ⟨[], x :: last, by rw [hgrow, hxs]; rfl, fun ys h => ?_⟩
            rw [List.cons_append, hgrow, hmore ys h]
            rfl
        | cons b before =>
            refine ⟨(x :: b) :: before, last, by rw [hgrow, hxs]; rfl, fun ys h => ?_⟩
            rw [List.cons_append, hgrow, hmore ys h]
            rfl

section Count

variable [DecidableEq α]

/-- Any text of `n` fields has at least `n - 1` separators. -/
theorem length_le_count (fs : List (List α)) : fs.length - 1 ≤ (joined c fs).count c := by
  induction fs with
  | nil => exact Nat.zero_le _
  | cons f fs ih =>
      cases fs with
      | nil => exact Nat.zero_le _
      | cons g fs =>
          simp only [joined, List.count_append, List.count_cons_self, List.length_cons] at ih ⊢
          omega

/-- A text of `n` clean fields has no others. -/
theorem count_joined {fs : List (List α)} (hf : ∀ f ∈ fs, c ∉ f) :
    (joined c fs).count c = fs.length - 1 := by
  induction fs with
  | nil => rfl
  | cons f fs ih =>
      have hclean : f.count c = 0 := List.count_eq_zero.mpr (hf f (List.mem_cons_self ..))
      have ih := ih fun g hg => hf g (List.mem_cons_of_mem _ hg)
      cases fs with
      | nil => exact hclean
      | cons g fs =>
          simp only [joined, List.count_append, List.count_cons_self, List.length_cons] at ih ⊢
          omega

/-- Fields that do not contain the separator are read back from their text. -/
theorem joined_injective {fs gs : List (List α)} (hlen : fs.length = gs.length)
    (hf : ∀ f ∈ fs, c ∉ f) (h : joined c fs = joined c gs) : fs = gs := by
  induction fs generalizing gs with
  | nil =>
      cases gs with
      | nil => rfl
      | cons g gs => cases hlen
  | cons f fs ih =>
      cases gs with
      | nil => cases hlen
      | cons g gs =>
          cases fs with
          | nil =>
              cases gs with
              | nil => exact congrArg (fun f => [f]) h
              | cons g' gs => cases hlen
          | cons f' fs =>
              cases gs with
              | nil => cases hlen
              | cons g' gs =>
                  have hrest := fun e he => hf e (List.mem_cons_of_mem _ he)
                  have hcount := count_joined hrest
                  have hother := @length_le_count α c _ (g' :: gs)
                  simp only [List.length_cons] at hlen hcount hother
                  rcases split_first h with ⟨rfl, hx⟩ | ⟨e, rfl, hx⟩ | ⟨e, hfe, _⟩
                  · rw [ih (by simp only [List.length_cons]; omega) hrest hx]
                  · -- The other first field would have taken a separator from the rest.
                    have hmore := congrArg (List.count c) hx
                    simp only [List.count_append, List.count_cons_self] at hmore
                    omega
                  · exact absurd (hfe ▸ List.mem_append_right g (List.mem_cons_self ..))
                      (hf f (List.mem_cons_self ..))

end Count

end Separator
