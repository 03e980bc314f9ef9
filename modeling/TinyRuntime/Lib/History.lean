import Mathlib.Data.List.Induction
import Mathlib.Tactic.Common

/-!
# Histories

A history is a list that grows at its end. A statement about every place of a
history survives an extension if it survives at the new places.

## Theorems

* `split_snoc`: The places of a history with one more entry.
* `split_append`: The places of a longer history.
-/

namespace History

variable {α : Type _}

/-- An entry of an extended history is its last one or was there before. -/
theorem split_snoc {l pre post : List α} {x e : α} (h : l ++ [e] = pre ++ x :: post) :
    pre = l ∧ x = e ∧ post = [] ∨ ∃ post', post = post' ++ [e] ∧ l = pre ++ x :: post' := by
  rcases List.eq_nil_or_concat post with rfl | ⟨post', y, rfl⟩
  · have hlast := List.append_inj' h rfl
    exact .inl ⟨hlast.1.symm, (List.singleton_inj.mp hlast.2).symm, rfl⟩
  · have hlast : l ++ [e] = (pre ++ x :: post') ++ [y] := by
      rw [h, List.concat_eq_append, List.append_assoc, List.cons_append]
    have hparts := List.append_inj' hlast rfl
    refine .inr ⟨post', ?_, hparts.1⟩
    rw [List.concat_eq_append, List.singleton_inj.mp hparts.2]

/-- An entry of a longer history is among the new ones or was there before. -/
theorem split_append {l es pre post : List α} {x : α} (h : l ++ es = pre ++ x :: post) :
    (∃ pre', pre = l ++ pre' ∧ es = pre' ++ x :: post) ∨
      ∃ post', post = post' ++ es ∧ l = pre ++ x :: post' := by
  induction es using List.reverseRecOn generalizing post with
  | nil => exact .inr ⟨post, (List.append_nil _).symm, (List.append_nil l).symm.trans h⟩
  | append_singleton es e ih =>
      rw [← List.append_assoc] at h
      rcases split_snoc h with ⟨rfl, rfl, rfl⟩ | ⟨post', rfl, hl⟩
      · exact .inl ⟨es, rfl, rfl⟩
      · rcases ih hl with ⟨pre', hpre, hes⟩ | ⟨post'', rfl, hl'⟩
        · refine .inl ⟨pre', hpre, ?_⟩
          rw [hes, List.append_assoc, List.cons_append]
        · exact .inr ⟨post'', List.append_assoc .., hl'⟩

end History
