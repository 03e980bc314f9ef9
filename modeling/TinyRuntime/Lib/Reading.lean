import TinyRuntime.Lib.Document

/-!
# Documents Read Back

The text of a document determines the document. No reader is given for it: that two
documents begin the same text, with whatever after them, is enough for them to be one.

A string ends at the first mark that is not escaped, and a list at its bracket, so what
follows them does not matter. A number has no end of its own. It can be told from what
follows only if that does not go on with it, and between the tokens of a document nothing
does.

## Main definitions

* `Document.unescape`: The byte an escape stands for.
* `Document.sort`: What the first byte tells.
* `Document.Ends`: What a number ends before.
* `Number.ofNat`: A number without a sign.

## Theorems

* `Document.unescape_escape`: An escape is read back.
* `Document.text_unique`: A document is read back, whatever follows it.
* `Document.text_injective`: The text determines the document.
* `Number.ofNat_injective`: So does the text of a number.
-/

namespace Document

variable {x y : List UInt8}

/-! ## Strings -/

theorem bytes_injective {s t : String} (h : bytes s = bytes t) : s = t :=
  String.toByteArray_inj.mp (ByteArray.ext (Array.toList_inj.mp h))

/-- The bytes of an array from a place on. By induction on how many are left. -/
theorem toList_loop (l : ByteArray) (n : Nat) : ∀ i r, l.size - i = n →
    ByteArray.toList.loop l i r = r.reverse ++ l.data.toList.drop i := by
  induction n with
  | zero =>
      intro i r hn
      have hi : ¬ i < l.size := by omega
      have hnone : l.data.toList.drop i = [] := by
        refine List.drop_eq_nil_of_le ?_
        rw [Array.length_toList]
        exact Nat.le_of_not_lt hi
      rw [ByteArray.toList.loop, if_neg hi, hnone, List.append_nil]
  | succ n ih =>
      intro i r hn
      have hi : i < l.size := by omega
      have hlen : i < l.data.toList.length := by
        rw [Array.length_toList]
        exact hi
      have hget : l.get! i = l.data.toList[i] := by
        rw [Array.getElem_toList]
        exact getElem!_pos l.data i hi
      have hdrop := List.drop_eq_getElem_cons hlen
      rw [ByteArray.toList.loop, if_pos hi, ih _ _ (by omega), List.reverse_cons,
        List.append_assoc, hdrop, hget]
      rfl

theorem bytes_eq (s : String) : s.toUTF8.toList = bytes s :=
  toList_loop _ _ 0 [] rfl

/-- The value of a hexadecimal digit. -/
def unhex (b : UInt8) : UInt8 :=
  if b < 58 then b - 48 else b - 87

/-- The byte with a name of one letter. -/
def named (b : UInt8) : UInt8 :=
  if b = 98 then 8
  else if b = 116 then 9
  else if b = 110 then 10
  else if b = 102 then 12
  else if b = 114 then 13
  else b

/-- The byte an escape stands for, and what follows it. -/
def unescape (l : List UInt8) : UInt8 × List UInt8 :=
  if l[0]? ≠ some 92 then (l.headD 0, l.tail)
  else if l[1]? = some 117 then (16 * unhex (l.getD 4 0) + unhex (l.getD 5 0), l.drop 6)
  else (named (l.getD 1 0), l.drop 2)

/-- The two digits of a control character. -/
theorem unhex_digits {b : UInt8} (h : b < 32) :
    16 * unhex (hexDigit (b / 16)) + unhex (hexDigit (b % 16)) = b := by
  have hall : ∀ n < 32, 16 * unhex (hexDigit (UInt8.ofNat n / 16)) +
      unhex (hexDigit (UInt8.ofNat n % 16)) = UInt8.ofNat n := by decide
  rw [← UInt8.ofNat_toNat (x := b)]
  exact hall b.toNat (UInt8.lt_iff_toNat_lt.mp h)

/-- An escape is read back. -/
theorem unescape_escape (b : UInt8) (x : List UInt8) : unescape (escape b ++ x) = (b, x) := by
  rw [escape]
  split; · rename_i h; exact h ▸ rfl
  split; · rename_i h; exact h ▸ rfl
  split; · rename_i h; exact h ▸ rfl
  split; · rename_i h; exact h ▸ rfl
  split; · rename_i h; exact h ▸ rfl
  split; · rename_i h; exact h ▸ rfl
  split; · rename_i h; exact h ▸ rfl
  split
  · rename_i h
    have hread : unescape (bytes "\\u00" ++ [hexDigit (b / 16), hexDigit (b % 16)] ++ x) =
        (16 * unhex (hexDigit (b / 16)) + unhex (hexDigit (b % 16)), x) := rfl
    rw [hread, unhex_digits h]
  · rename_i hslash _ _ _ _ _ _
    rw [unescape, if_pos]
    · rfl
    · exact fun h => hslash (Option.some.inj h)

/-- An escape does not begin with a mark. -/
theorem escape_head (b : UInt8) : ∃ c l, escape b = c :: l ∧ c ≠ 34 := by
  rw [escape]
  split; · exact ⟨_, _, rfl, by decide⟩
  split; · exact ⟨_, _, rfl, by decide⟩
  split; · exact ⟨_, _, rfl, by decide⟩
  split; · exact ⟨_, _, rfl, by decide⟩
  split; · exact ⟨_, _, rfl, by decide⟩
  split; · exact ⟨_, _, rfl, by decide⟩
  split; · exact ⟨_, _, rfl, by decide⟩
  split
  · exact ⟨_, _, rfl, by decide⟩
  · rename_i hmark _ _ _ _ _ _ _
    exact ⟨b, [], rfl, hmark⟩

/-- The inside of a string, up to the mark that ends it. By induction on one of two. -/
theorem escaped_unique : ∀ l m : List UInt8,
    l.flatMap escape ++ 34 :: x = m.flatMap escape ++ 34 :: y → l = m ∧ x = y
  | [], [], h => ⟨rfl, (List.cons.inj h).2⟩
  | [], b :: m, h => by
      rcases escape_head b with ⟨c, l, hl, hc⟩
      rw [List.flatMap_cons, hl] at h
      exact absurd (List.cons.inj h).1.symm hc
  | a :: l, [], h => by
      rcases escape_head a with ⟨c, l, hl, hc⟩
      rw [List.flatMap_cons, hl] at h
      exact absurd (List.cons.inj h).1 hc
  | a :: l, b :: m, h => by
      rw [List.flatMap_cons, List.flatMap_cons, List.append_assoc, List.append_assoc] at h
      have hread := congrArg unescape h
      rw [unescape_escape, unescape_escape] at hread
      rcases Prod.mk.inj hread with ⟨rfl, hrest⟩
      rcases escaped_unique l m hrest with ⟨rfl, hx⟩
      exact ⟨rfl, hx⟩

theorem quoted_unique {s t : String} (h : quoted s ++ x = quoted t ++ y) : s = t ∧ x = y := by
  simp only [quoted, List.append_assoc, List.cons_append, List.nil_append, List.cons.injEq,
    true_and] at h
  rcases escaped_unique _ _ h with ⟨hbytes, hx⟩
  exact ⟨bytes_injective hbytes, hx⟩

/-! ## Numbers -/

/-- Nothing that a number would go on with. -/
def Ends (x : List UInt8) : Prop :=
  ∀ b ∈ x.head?, ¬ Numeral b

theorem ends_nil : Ends [] := nofun

theorem ends_cons {b : UInt8} (h : ¬ Numeral b) : Ends (b :: x) := by
  intro c hc
  rw [← Option.some.inj hc]
  exact h

/-- Two numbers at the start of a text are the same, if both end. -/
theorem number_unique {m n : Number} (hx : Ends x) (hy : Ends y)
    (h : m.text ++ x = n.text ++ y) : m = n ∧ x = y := by
  rcases List.append_eq_append_iff.mp h with ⟨z, hn, hz⟩ | ⟨z, hm, hz⟩
  · cases z with
    | nil =>
        rw [List.append_nil] at hn
        exact ⟨by cases m; cases n; cases hn; rfl, hz⟩
    | cons b z =>
        -- The first ends where the second goes on.
        refine absurd (n.numeral b ?_) (hx b ?_)
        · rw [hn]
          exact List.mem_append_right _ List.mem_cons_self
        · rw [hz]
          rfl
  · cases z with
    | nil =>
        rw [List.append_nil] at hm
        exact ⟨by cases m; cases n; cases hm; rfl, hz.symm⟩
    | cons b z =>
        refine absurd (m.numeral b ?_) (hy b ?_)
        · rw [hm]
          exact List.mem_append_right _ List.mem_cons_self
        · rw [hz]
          rfl

/-! ## Documents -/

/-- What the first byte of a document tells. -/
def sort : Document → Nat
  | null => 0
  | bool true => 1
  | bool false => 2
  | number _ => 3
  | string _ => 4
  | array _ => 5
  | object _ => 6

/-- The byte by itself. -/
def sortByte (b : UInt8) : Nat :=
  if b = 110 then 0
  else if b = 116 then 1
  else if b = 102 then 2
  else if b = 34 then 4
  else if b = 91 then 5
  else if b = 123 then 6
  else 3

theorem sort_numeral {b : UInt8} (h : Numeral b) : sortByte b = 3 := by
  have hall : ∀ n < 256, Numeral (UInt8.ofNat n) → sortByte (UInt8.ofNat n) = 3 := by
    unfold Numeral
    decide +kernel
  rw [← UInt8.ofNat_toNat (x := b)] at h ⊢
  exact hall b.toNat b.toNat_lt h

/-- No document is empty, and its first byte tells which it is. -/
theorem head_text (d : Document) : ∃ b l, d.text = b :: l ∧ sortByte b = d.sort := by
  cases d with
  | null => exact ⟨110, _, by rw [text]; rfl, rfl⟩
  | bool value =>
      cases value with
      | true => exact ⟨116, _, by rw [text]; rfl, rfl⟩
      | false => exact ⟨102, _, by rw [text]; rfl, rfl⟩
  | number n =>
      rcases List.exists_cons_of_ne_nil n.written with ⟨b, l, hl⟩
      refine ⟨b, l, by rw [text]; exact hl, sort_numeral (n.numeral b ?_)⟩
      rw [hl]
      exact List.mem_cons_self
  | string s => exact ⟨34, _, by rw [text]; rfl, rfl⟩
  | array items => exact ⟨91, _, by rw [text]; rfl, rfl⟩
  | object members => exact ⟨123, _, by rw [text]; rfl, rfl⟩

theorem sort_unique {d e : Document} (h : d.text ++ x = e.text ++ y) : d.sort = e.sort := by
  rcases head_text d with ⟨b, l, hl, hb⟩
  rcases head_text e with ⟨c, m, hm, hc⟩
  rw [hl, hm] at h
  rw [← hb, ← hc, (List.cons.inj h).1]

/-- A document starts with none of the bytes that stand after one. -/
theorem head_ne (d : Document) {b : UInt8} {l : List UInt8} (hb : sortByte b = 3)
    (hnumeral : ¬ Numeral b) : d.text ++ x ≠ b :: l := by
  intro h
  rcases head_text d with ⟨c, m, hm, hc⟩
  rw [hm] at h
  have hcb : c = b := (List.cons.inj h).1
  rw [hcb, hb] at hc
  cases d with
  | number n =>
      refine hnumeral (n.numeral b ?_)
      rw [text] at hm
      rw [hm, hcb]
      exact List.mem_cons_self
  | bool value => cases value <;> cases hc
  | null | string | array | object => cases hc

/-- The items after the first, and the bracket. -/
def itemsTail : List Document → List UInt8
  | [] => [93]
  | item :: items => 44 :: item.text ++ itemsTail items

/-- The members after the first, and the brace. -/
def membersTail : List (String × Document) → List UInt8
  | [] => [125]
  | (name, value) :: members => 44 :: quoted name ++ 58 :: value.text ++ membersTail members

theorem itemsText_cons (item : Document) (items : List Document) :
    itemsText (item :: items) ++ ([93] ++ x) = item.text ++ (itemsTail items ++ x) := by
  induction items generalizing item with
  | nil => rw [itemsText]; rfl
  | cons next items ih =>
      rw [itemsText, List.append_assoc, ih]
      · simp only [itemsTail, List.append_assoc, List.cons_append, List.nil_append]
      · intro h
        cases h

theorem membersText_cons (name : String) (value : Document) (members : List (String × Document)) :
    membersText ((name, value) :: members) ++ ([125] ++ x) =
      quoted name ++ 58 :: (value.text ++ (membersTail members ++ x)) := by
  induction members generalizing name value with
  | nil =>
      rw [membersText]
      simp only [membersTail, List.append_assoc, List.cons_append, List.nil_append]
  | cons next members ih =>
      rw [membersText, List.append_assoc, ih]
      · simp only [membersTail, List.append_assoc, List.cons_append, List.nil_append]
      · intro h
        cases h

theorem ends_itemsTail (items : List Document) : Ends (itemsTail items ++ x) := by
  cases items with
  | nil => exact ends_cons (by unfold Numeral; decide)
  | cons item items => exact ends_cons (by unfold Numeral; decide)

theorem ends_membersTail (members : List (String × Document)) : Ends (membersTail members ++ x) := by
  cases members with
  | nil => exact ends_cons (by unfold Numeral; decide)
  | cons member members => exact ends_cons (by unfold Numeral; decide)

mutual

/-- A document is read back, whatever follows it that does not go on with a number. -/
theorem text_unique : ∀ (d e : Document) {x y : List UInt8}, Ends x → Ends y →
    d.text ++ x = e.text ++ y → d = e ∧ x = y
  | null, e, x, y, hx, hy, h => by
      have hsort := sort_unique h
      cases e with
      | null => exact ⟨rfl, List.append_cancel_left h⟩
      | bool value => cases value <;> cases hsort
      | number | string | array | object => cases hsort
  | bool value, e, x, y, hx, hy, h => by
      have hsort := sort_unique h
      cases e with
      | bool other =>
          have hvalue : value = other := by
            cases value <;> cases other <;> first | rfl | cases hsort
          subst hvalue
          exact ⟨rfl, List.append_cancel_left h⟩
      | null | number | string | array | object => cases value <;> cases hsort
  | number n, e, x, y, hx, hy, h => by
      have hsort := sort_unique h
      cases e with
      | number m =>
          rw [text, text] at h
          rcases number_unique hx hy h with ⟨rfl, hxy⟩
          exact ⟨rfl, hxy⟩
      | bool value => cases value <;> cases hsort
      | null | string | array | object => cases hsort
  | string s, e, x, y, hx, hy, h => by
      have hsort := sort_unique h
      cases e with
      | string t =>
          rw [text, text] at h
          rcases quoted_unique h with ⟨rfl, hxy⟩
          exact ⟨rfl, hxy⟩
      | bool value => cases value <;> cases hsort
      | null | number | array | object => cases hsort
  | array items, e, x, y, hx, hy, h => by
      have hsort := sort_unique h
      cases e with
      | array others =>
          rw [text, text, List.append_assoc, List.append_assoc, List.append_assoc,
            List.append_assoc] at h
          rcases items_unique items others (List.append_cancel_left h) with ⟨rfl, hxy⟩
          exact ⟨rfl, hxy⟩
      | bool value => cases value <;> cases hsort
      | null | number | string | object => cases hsort
  | object members, e, x, y, hx, hy, h => by
      have hsort := sort_unique h
      cases e with
      | object others =>
          rw [text, text, List.append_assoc, List.append_assoc, List.append_assoc,
            List.append_assoc] at h
          rcases members_unique members others (List.append_cancel_left h) with ⟨rfl, hxy⟩
          exact ⟨rfl, hxy⟩
      | bool value => cases value <;> cases hsort
      | null | number | string | array => cases hsort

theorem items_unique : ∀ (l m : List Document) {x y : List UInt8},
    itemsText l ++ ([93] ++ x) = itemsText m ++ ([93] ++ y) → l = m ∧ x = y
  | [], [], x, y, h => ⟨rfl, List.append_cancel_left h⟩
  | [], e :: m, x, y, h => by
      rw [itemsText_cons, itemsText] at h
      exact absurd h.symm (head_ne e rfl (by unfold Numeral; decide))
  | d :: l, [], x, y, h => by
      rw [itemsText_cons, itemsText] at h
      exact absurd h (head_ne d rfl (by unfold Numeral; decide))
  | d :: l, e :: m, x, y, h => by
      rw [itemsText_cons, itemsText_cons] at h
      rcases text_unique d e (ends_itemsTail l) (ends_itemsTail m) h with ⟨rfl, hrest⟩
      rcases itemsTail_unique l m hrest with ⟨rfl, hxy⟩
      exact ⟨rfl, hxy⟩

theorem itemsTail_unique : ∀ (l m : List Document) {x y : List UInt8},
    itemsTail l ++ x = itemsTail m ++ y → l = m ∧ x = y
  | [], [], x, y, h => ⟨rfl, List.append_cancel_left h⟩
  | [], e :: m, x, y, h => absurd (List.cons.inj h).1 (by decide)
  | d :: l, [], x, y, h => absurd (List.cons.inj h).1 (by decide)
  | d :: l, e :: m, x, y, h => by
      simp only [itemsTail, List.cons_append, List.append_assoc, List.cons.injEq, true_and] at h
      rcases text_unique d e (ends_itemsTail l) (ends_itemsTail m) h with ⟨rfl, hrest⟩
      rcases itemsTail_unique l m hrest with ⟨rfl, hxy⟩
      exact ⟨rfl, hxy⟩

theorem members_unique : ∀ (l m : List (String × Document)) {x y : List UInt8},
    membersText l ++ ([125] ++ x) = membersText m ++ ([125] ++ y) → l = m ∧ x = y
  | [], [], x, y, h => ⟨rfl, List.append_cancel_left h⟩
  | [], (name, e) :: m, x, y, h => by
      rw [membersText_cons, membersText] at h
      exact absurd (List.cons.inj h).1 (by decide)
  | (name, d) :: l, [], x, y, h => by
      rw [membersText_cons, membersText] at h
      exact absurd (List.cons.inj h).1 (by decide)
  | (name, d) :: l, (other, e) :: m, x, y, h => by
      rw [membersText_cons, membersText_cons] at h
      rcases quoted_unique h with ⟨rfl, hvalue⟩
      rcases text_unique d e (ends_membersTail l) (ends_membersTail m) (List.cons.inj hvalue).2
        with ⟨rfl, hrest⟩
      rcases membersTail_unique l m hrest with ⟨rfl, hxy⟩
      exact ⟨rfl, hxy⟩

theorem membersTail_unique : ∀ (l m : List (String × Document)) {x y : List UInt8},
    membersTail l ++ x = membersTail m ++ y → l = m ∧ x = y
  | [], [], x, y, h => ⟨rfl, List.append_cancel_left h⟩
  | [], (name, e) :: m, x, y, h => absurd (List.cons.inj h).1 (by decide)
  | (name, d) :: l, [], x, y, h => absurd (List.cons.inj h).1 (by decide)
  | (name, d) :: l, (other, e) :: m, x, y, h => by
      simp only [membersTail, List.cons_append, List.append_assoc, List.cons.injEq, true_and] at h
      rcases quoted_unique h with ⟨rfl, hvalue⟩
      rcases text_unique d e (ends_membersTail l) (ends_membersTail m) (List.cons.inj hvalue).2
        with ⟨rfl, hrest⟩
      rcases membersTail_unique l m hrest with ⟨rfl, hxy⟩
      exact ⟨rfl, hxy⟩

end

/-- The text determines the document. -/
theorem text_injective {d e : Document} (h : d.text = e.text) : d = e := by
  refine (text_unique d e ends_nil ends_nil ?_).1
  rw [h]

end Document

namespace Number

/-- A digit is a byte of a number. -/
theorem numeral_digit {c : Char} (h : c.isDigit = true) : Numeral (UInt8.ofNat c.toNat) := by
  rw [Char.isDigit, Bool.and_eq_true, decide_eq_true_eq, decide_eq_true_eq] at h
  have hlow : 48 ≤ c.toNat := h.1
  have hhigh : c.toNat ≤ 57 := h.2
  have hall : ∀ n < 58, 48 ≤ n → 48 ≤ UInt8.ofNat n ∧ UInt8.ofNat n ≤ 57 := by decide
  exact .inl (hall c.toNat (by omega) hlow)

/-- A number without a sign. -/
def ofNat (n : Nat) : Number where
  text := (Nat.toDigits 10 n).map fun c => UInt8.ofNat c.toNat
  numeral := by
    intro b hb
    rcases List.mem_map.mp hb with ⟨c, hc, rfl⟩
    exact numeral_digit (Nat.isDigit_of_mem_toDigits (by decide) (by decide) hc)
  written := fun h => Nat.toDigits_ne_nil (List.map_eq_nil_iff.mp h)

/-- The digits a number's text is made of. -/
theorem chars_ofNat (n : Nat) :
    (ofNat n).text.map (fun b => Char.ofNat b.toNat) = Nat.toDigits 10 n := by
  rw [ofNat, List.map_map]
  refine (List.map_congr_left fun c hc => ?_).trans (List.map_id _)
  have hdigit := Nat.isDigit_of_mem_toDigits (by decide) (by decide) hc
  rw [Char.isDigit, Bool.and_eq_true, decide_eq_true_eq, decide_eq_true_eq] at hdigit
  have hhigh : c.toNat ≤ 57 := hdigit.2
  have hbyte : (UInt8.ofNat c.toNat).toNat = c.toNat := by
    rw [UInt8.toNat_ofNat']
    omega
  rw [Function.comp_apply, hbyte, Char.ofNat_toNat]
  rfl

/-- The text of a number determines it. -/
theorem ofNat_injective {m n : Nat} (h : ofNat m = ofNat n) : m = n := by
  have hdigits : Nat.toDigits 10 m = Nat.toDigits 10 n := by
    rw [← chars_ofNat, h, chars_ofNat]
  rw [← @Nat.ofDigitChars_ten_toDigits m, hdigits, Nat.ofDigitChars_ten_toDigits]

end Number
