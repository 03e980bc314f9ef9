import TinyRuntime.Lib.Separator
import Mathlib.Tactic.Common

/-!
# Quoted Text

Strings between quotation marks, with the marks and the backslashes inside them
escaped, and lists and pairs of such strings in brackets. This is how a debug
output shows them. A character that is not shown as it is has a name of one
letter or is written as its number.

Two things are used of such a text. It can be read back (`Decodes`): what a
string or a list of strings is written as determines it, whatever follows. And
its end cannot be mistaken: no part of it after a character that only occurs
inside the quotes is again such a text (`run_swapped`). A reader who starts inside
the quotes takes every mark that opens for one that closes.

## Main definitions

* `quote`, `pair`, `list`: The texts.
* `Decodes`: A way of writing that can be read back.
* `Reader`, `Reader.run`: Whether a place is inside the quotes.
* `Balanced`: A text that starts and ends outside them.

## Theorems

* `decodes_quote`, `Decodes.pair`, `Decodes.list`: The texts can be read back.
* `balanced_quote`, `Balanced.list`: They are balanced.
* `split_last`: A text with a balanced one after a separator.
-/

namespace Quoted

variable {printable : Char → Bool}

/-- The characters with a name of one letter. -/
def letters : List (Char × Char) :=
  [('\x00', '0'), ('\t', 't'), ('\r', 'r'), ('\n', 'n'), ('"', '"'), ('\\', '\\')]

/-- A character inside quotation marks. -/
def escape (printable : Char → Bool) (c : Char) : List Char :=
  match letters.lookup c with
  | some a => ['\\', a]
  | none =>
      if printable c then [c]
      else '\\' :: 'u' :: '\x7b' :: Nat.toDigits 16 c.toNat ++ ['\x7d']

/-- A string in quotation marks. -/
def quote (printable : Char → Bool) (s : List Char) : List Char :=
  '"' :: s.flatMap (escape printable) ++ ['"']

variable {α β : Type}

def pair (first : α → List Char) (second : β → List Char) (x : α × β) : List Char :=
  '(' :: first x.1 ++ ',' :: ' ' :: second x.2 ++ [')']

/-- The items after the first, and the bracket. -/
def rest (item : α → List Char) : List α → List Char
  | [] => [']']
  | a :: items => ',' :: ' ' :: item a ++ rest item items

def list (item : α → List Char) : List α → List Char
  | [] => ['[', ']']
  | a :: items => '[' :: item a ++ rest item items

/-! ## Reading back -/

/-- What was written is read back, whatever follows it. -/
def Decodes (item : α → List Char) : Prop :=
  ∀ a b x y, item a ++ x = item b ++ y → a = b ∧ x = y

/-- The digits of a number do not end a name. -/
theorem brace_not_digit (n : Nat) : '\x7d' ∉ Nat.toDigits 16 n := by
  induction n using Nat.strongRecOn with
  | ind n ih =>
      have hsmall : ∀ d : Fin 16, '\x7d' ≠ Nat.digitChar d := by decide
      have hchar : ∀ d < 16, '\x7d' ≠ Nat.digitChar d := fun d hd => hsmall ⟨d, hd⟩
      rw [Nat.toDigits_eq_if (by decide)]
      split
      · exact fun h => hchar n ‹_› (List.mem_singleton.mp h)
      · rename_i hn
        intro h
        rcases List.mem_append.mp h with h | h
        · exact ih (n / 16) (Nat.div_lt_self (by omega) (by decide)) h
        · exact hchar _ (Nat.mod_lt n (by decide)) (List.mem_singleton.mp h)

theorem toDigits_injective {m n : Nat} (h : Nat.toDigits 16 m = Nat.toDigits 16 n) : m = n := by
  have hsmall : ∀ d e : Fin 16, Nat.digitChar d = Nat.digitChar e → d = e := by decide
  have hchar : ∀ d e, d < 16 → e < 16 → Nat.digitChar d = Nat.digitChar e → d = e :=
    fun d e hd he heq => congrArg Fin.val (hsmall ⟨d, hd⟩ ⟨e, he⟩ heq)
  induction m using Nat.strongRecOn generalizing n with
  | ind m ih =>
      rw [Nat.toDigits_eq_if (by decide), @Nat.toDigits_eq_if _ n (by decide)] at h
      have hlen : ∀ k (d e : Char), [d] ≠ Nat.toDigits 16 k ++ [e] := by
        intro k d e h
        have hpos := @Nat.length_toDigits_pos 16 k
        have hcount := congrArg List.length h
        simp only [List.length_append, List.length_singleton] at hcount
        omega
      split at h <;> split at h
      · exact hchar _ _ ‹_› ‹_› (List.singleton_inj.mp h)
      · exact absurd h (hlen _ _ _)
      · exact absurd h.symm (hlen _ _ _)
      · have hparts := List.append_inj' h rfl
        have hdiv := ih (m / 16) (Nat.div_lt_self (by omega) (by decide)) hparts.1
        have hmod := hchar _ _ (Nat.mod_lt m (by decide)) (Nat.mod_lt n (by decide))
          (List.singleton_inj.mp hparts.2)
        omega

theorem mem_of_lookup {c a : Char} {l : List (Char × Char)} (h : l.lookup c = some a) :
    (c, a) ∈ l := by
  rcases List.lookup_eq_some_iff.mp h with ⟨l₁, l₂, rfl, _⟩
  exact List.mem_append_right _ (List.mem_cons_self ..)

/-- A name of one letter has one meaning. -/
theorem lookup_injective {c d a : Char} (hc : letters.lookup c = some a)
    (hd : letters.lookup d = some a) : c = d := by
  have hone : ∀ p ∈ letters, ∀ q ∈ letters, p.2 = q.2 → p.1 = q.1 := by decide
  exact hone _ (mem_of_lookup hc) _ (mem_of_lookup hd) rfl

/-- It is never the name of a number. -/
theorem lookup_ne {c a : Char} (h : letters.lookup c = some a) : a ≠ 'u' := by
  have hno : ∀ p ∈ letters, p.2 ≠ 'u' := by decide
  exact hno _ (mem_of_lookup h)

/-- What has no name is not a mark. -/
theorem lookup_none {c : Char} (h : letters.lookup c = none) : c ≠ '"' ∧ c ≠ '\\' := by
  refine ⟨?_, ?_⟩ <;>
  · rintro rfl
    cases h

theorem decodes_escape (printable : Char → Bool) : Decodes (escape printable) := by
  intro c d x y h
  unfold escape at h
  cases hc : letters.lookup c with
  | some a =>
      cases hd : letters.lookup d with
      | some b =>
          simp only [hc, hd, List.cons_append, List.nil_append, List.cons.injEq, true_and] at h
          rcases h with ⟨rfl, hx⟩
          exact ⟨lookup_injective hc hd, hx⟩
      | none =>
          simp only [hc, hd] at h
          split at h
          · exact absurd (List.cons.inj h).1.symm (lookup_none hd).2
          · exact absurd (List.cons.inj (List.cons.inj h).2).1 (lookup_ne hc)
  | none =>
      cases hd : letters.lookup d with
      | some b =>
          simp only [hc, hd] at h
          split at h
          · exact absurd (List.cons.inj h).1 (lookup_none hc).2
          · exact absurd (List.cons.inj (List.cons.inj h).2).1.symm (lookup_ne hd)
      | none =>
          simp only [hc, hd] at h
          split at h <;> split at h
          · exact List.cons.inj h
          · exact absurd (List.cons.inj h).1 (lookup_none hc).2
          · exact absurd (List.cons.inj h).1.symm (lookup_none hd).2
          · simp only [List.cons_append, List.append_assoc, List.cons.injEq, true_and,
              List.nil_append] at h
            -- The numbers end where the first brace is.
            rcases Separator.split_first h with ⟨hnum, hx⟩ | ⟨e, hnum, _⟩ | ⟨e, hnum, _⟩
            · exact ⟨Char.toNat_inj.mp (toDigits_injective hnum), hx⟩
            · exact absurd (hnum ▸ List.mem_append_right _ (List.mem_cons_self ..))
                (brace_not_digit d.toNat)
            · exact absurd (hnum ▸ List.mem_append_right _ (List.mem_cons_self ..))
                (brace_not_digit c.toNat)

/-- The first character of a name or a plain one is not a mark. -/
theorem escape_head (printable : Char → Bool) (c : Char) :
    ∃ a l, escape printable c = a :: l ∧ a ≠ '"' := by
  unfold escape
  cases hc : letters.lookup c with
  | some a => exact ⟨_, _, rfl, by decide⟩
  | none =>
      simp only []
      split
      · exact ⟨c, [], rfl, (lookup_none hc).1⟩
      · exact ⟨_, _, rfl, by decide⟩

theorem decodes_quote (printable : Char → Bool) : Decodes (quote printable) := by
  intro s t x y h
  simp only [quote, List.cons_append, List.append_assoc, List.cons.injEq, true_and,
    List.nil_append] at h
  induction s generalizing t with
  | nil =>
      cases t with
      | nil => exact ⟨rfl, (List.cons.inj h).2⟩
      | cons d t =>
          rcases escape_head printable d with ⟨a, l, ha, hne⟩
          rw [List.flatMap_cons, ha] at h
          exact absurd (List.cons.inj h).1.symm hne
  | cons c s ih =>
      cases t with
      | nil =>
          rcases escape_head printable c with ⟨a, l, ha, hne⟩
          rw [List.flatMap_cons, ha] at h
          exact absurd (List.cons.inj h).1 hne
      | cons d t =>
          rw [List.flatMap_cons, List.flatMap_cons, List.append_assoc, List.append_assoc] at h
          rcases decodes_escape printable c d _ _ h with ⟨rfl, hrest⟩
          rcases ih t hrest with ⟨rfl, hx⟩
          exact ⟨rfl, hx⟩

theorem Decodes.pair {first : α → List Char} {second : β → List Char} (h : Decodes first)
    (h' : Decodes second) : Decodes (pair first second) := by
  rintro ⟨a, b⟩ ⟨a', b'⟩ x y heq
  simp only [Quoted.pair, List.cons_append, List.append_assoc, List.cons.injEq, true_and] at heq
  rcases h a a' _ _ heq with ⟨rfl, hsecond⟩
  rcases h' b b' _ _ (List.cons.inj (List.cons.inj hsecond).2).2 with ⟨rfl, hend⟩
  exact ⟨rfl, (List.cons.inj hend).2⟩

theorem Decodes.rest {item : α → List Char} (h : Decodes item) : Decodes (rest item) := by
  intro as
  induction as with
  | nil =>
      intro bs x y heq
      cases bs with
      | nil => exact ⟨rfl, (List.cons.inj heq).2⟩
      | cons b bs => exact absurd (List.cons.inj heq).1 (by decide)
  | cons a as ih =>
      intro bs x y heq
      cases bs with
      | nil => exact absurd (List.cons.inj heq).1 (by decide)
      | cons b bs =>
          simp only [Quoted.rest, List.cons_append, List.append_assoc, List.cons.injEq,
            true_and] at heq
          rcases h a b _ _ heq with ⟨rfl, hrest⟩
          rcases ih bs x y hrest with ⟨rfl, hx⟩
          exact ⟨rfl, hx⟩

theorem Decodes.list {item : α → List Char} (h : Decodes item) {start : Char}
    (hstart : ∀ a, ∃ l, item a = start :: l) (hne : start ≠ ']') : Decodes (list item) := by
  intro as bs x y heq
  cases as with
  | nil =>
      cases bs with
      | nil => exact ⟨rfl, (List.cons.inj (List.cons.inj heq).2).2⟩
      | cons b bs =>
          rcases hstart b with ⟨l, hl⟩
          rw [Quoted.list, Quoted.list, hl] at heq
          exact absurd (List.cons.inj (List.cons.inj heq).2).1.symm hne
  | cons a as =>
      cases bs with
      | nil =>
          rcases hstart a with ⟨l, hl⟩
          rw [Quoted.list, Quoted.list, hl] at heq
          exact absurd (List.cons.inj (List.cons.inj heq).2).1 hne
      | cons b bs =>
          simp only [Quoted.list, List.cons_append, List.append_assoc, List.cons.injEq,
            true_and] at heq
          rcases h a b _ _ heq with ⟨rfl, hrest⟩
          rcases h.rest as bs x y hrest with ⟨rfl, hx⟩
          exact ⟨rfl, hx⟩

/-! ## Where a text ends -/

/-- Whether a place of a text is inside the quotation marks. -/
inductive Reader
  | outside
  | inside
  /-- After a backslash. -/
  | escaped
deriving DecidableEq

/-- The characters outside the marks. -/
def marks : List Char := ['[', ']', '(', ')', ',', ' ']

/-- The place after a character, if it can be there. -/
def Reader.next : Reader → Char → Option Reader
  | .outside, c => if c = '"' then some .inside else if c ∈ marks then some .outside else none
  | .inside, c => if c = '"' then some .outside else if c = '\\' then some .escaped else some .inside
  | .escaped, _ => some .inside

def Reader.run (r : Reader) : List Char → Option Reader
  | [] => some r
  | c :: l => (r.next c).bind fun r => r.run l

/-- A text that starts and ends outside the marks. -/
def Balanced (l : List Char) : Prop :=
  Reader.outside.run l = some .outside

theorem run_append (r : Reader) (l l' : List Char) :
    r.run (l ++ l') = (r.run l).bind fun r => r.run l' := by
  induction l generalizing r with
  | nil => rfl
  | cons c l ih =>
      rw [List.cons_append, Reader.run, Reader.run, Option.bind_assoc]
      exact congrArg _ (funext fun r => ih r)

/-- A reader outside the marks and one inside change places at every mark, so they
    never meet. -/
theorem run_swapped (l : List Char) : ∀ {r r' : Reader}, Reader.outside.run l = some r →
    Reader.inside.run l = some r' → r ≠ r' := by
  induction l with
  | nil =>
      intro r r' h h'
      cases h
      cases h'
      decide
  | cons c l ih =>
      intro r r' h h'
      simp only [Reader.run, Reader.next] at h h'
      by_cases hquote : c = '"'
      · rw [if_pos hquote] at h h'
        exact (ih h' h).symm
      · rw [if_neg hquote] at h h'
        split at h
        · rename_i hmark
          rw [if_neg (by rintro rfl; exact absurd hmark (by decide))] at h'
          exact ih h h'
        · cases h

theorem Balanced.append {l l' : List Char} (h : Balanced l) (h' : Balanced l') :
    Balanced (l ++ l') := by
  rw [Balanced, run_append, h]
  exact h'

theorem Balanced.cons {c : Char} {l : List Char} (hc : c ∈ marks) (h : Balanced l) :
    Balanced (c :: l) := by
  have hquote : c ≠ '"' := by
    rintro rfl
    exact absurd hc (by decide)
  rw [Balanced, Reader.run, Reader.next, if_neg hquote, if_pos hc]
  exact h

/-- Characters that are neither marks nor backslashes stay inside. -/
theorem run_plain {l : List Char} (h : ∀ c ∈ l, c ≠ '"' ∧ c ≠ '\\') :
    Reader.inside.run l = some .inside := by
  induction l with
  | nil => rfl
  | cons c l ih =>
      rcases h c (List.mem_cons_self ..) with ⟨hquote, hslash⟩
      rw [Reader.run, Reader.next, if_neg hquote, if_neg hslash]
      exact ih fun d hd => h d (List.mem_cons_of_mem _ hd)

/-- A number has neither. -/
theorem plain_toDigits (n : Nat) : ∀ c ∈ Nat.toDigits 16 n, c ≠ '"' ∧ c ≠ '\\' := by
  induction n using Nat.strongRecOn with
  | ind n ih =>
      have hsmall : ∀ d : Fin 16, Nat.digitChar d ≠ '"' ∧ Nat.digitChar d ≠ '\\' := by decide
      rw [Nat.toDigits_eq_if (by decide)]
      split
      · rename_i hn
        intro c hc
        exact List.mem_singleton.mp hc ▸ hsmall ⟨n, hn⟩
      · intro c hc
        rcases List.mem_append.mp hc with hc | hc
        · exact ih (n / 16) (Nat.div_lt_self (by omega) (by decide)) c hc
        · exact List.mem_singleton.mp hc ▸ hsmall ⟨n % 16, Nat.mod_lt n (by decide)⟩

theorem run_escape (printable : Char → Bool) (c : Char) :
    Reader.inside.run (escape printable c) = some .inside := by
  unfold escape
  cases hc : letters.lookup c with
  | some a => rfl
  | none =>
      simp only []
      split
      · exact run_plain fun d hd => List.mem_singleton.mp hd ▸ lookup_none hc
      · refine run_plain (l := '\x7b' :: (Nat.toDigits 16 c.toNat ++ ['\x7d'])) fun d hd => ?_
        rcases List.mem_cons.mp hd with rfl | hd
        · decide
        · rcases List.mem_append.mp hd with hd | hd
          · exact plain_toDigits _ d hd
          · rw [List.mem_singleton.mp hd]
            decide

theorem balanced_quote (printable : Char → Bool) (s : List Char) : Balanced (quote printable s) := by
  have hinside : Reader.inside.run (s.flatMap (escape printable)) = some .inside := by
    induction s with
    | nil => rfl
    | cons c s ih =>
        rw [List.flatMap_cons, run_append, run_escape]
        exact ih
  rw [Balanced, quote, List.cons_append, Reader.run, Reader.next, if_pos rfl, Option.bind_some,
    run_append, hinside]
  rfl

theorem Balanced.pair {first : α → List Char} {second : β → List Char}
    (h : ∀ a, Balanced (first a)) (h' : ∀ b, Balanced (second b)) (x : α × β) :
    Balanced (pair first second x) := by
  have hend : Balanced (second x.2 ++ [')']) := (h' x.2).append rfl
  rw [Quoted.pair, List.append_assoc]
  exact .cons (by decide) ((h x.1).append (.cons (by decide) (.cons (by decide) hend)))

theorem Balanced.rest {item : α → List Char} (h : ∀ a, Balanced (item a)) (items : List α) :
    Balanced (rest item items) := by
  induction items with
  | nil => rfl
  | cons a items ih => exact .cons (by decide) (.cons (by decide) ((h a).append ih))

theorem Balanced.list {item : α → List Char} (h : ∀ a, Balanced (item a)) (items : List α) :
    Balanced (list item items) := by
  cases items with
  | nil => rfl
  | cons a items => exact .cons (by decide) ((h a).append (.rest h items))

/-- No balanced text is the end of another one after a character that only occurs
    inside the marks. -/
theorem not_suffix {c : Char} {e l : List Char} (hquote : c ≠ '"') (hslash : c ≠ '\\')
    (hc : c ∉ marks) (h : Balanced (e ++ c :: l)) : ¬ Balanced l := by
  intro hl
  rw [Balanced, run_append] at h
  rcases Option.bind_eq_some_iff.mp h with ⟨r, _, hr⟩
  have hinside : Reader.inside.run l = some .outside := by
    cases r with
    | outside =>
        rw [Reader.run, Reader.next, if_neg hquote, if_neg hc] at hr
        cases hr
    | inside =>
        rw [Reader.run, Reader.next, if_neg hquote, if_neg hslash] at hr
        exact hr
    | escaped => exact hr
  exact run_swapped l hl hinside rfl

/-- A balanced text after such a character is read back from the end. -/
theorem split_last {c : Char} {f g l l' : List Char} (hquote : c ≠ '"') (hslash : c ≠ '\\')
    (hc : c ∉ marks) (hl : Balanced l) (hl' : Balanced l') (h : f ++ c :: l = g ++ c :: l') :
    f = g ∧ l = l' := by
  rcases Separator.split_first h with h | ⟨e, _, rfl⟩ | ⟨e, _, rfl⟩
  · exact h
  · exact absurd hl' (not_suffix hquote hslash hc hl)
  · exact absurd hl (not_suffix hquote hslash hc hl')

end Quoted
