import Mathlib.Data.List.Basic

/-!
# Documents on One Line

JSON values and their compact text: no blanks between the tokens, and inside a
string every control character escaped. So the text has no control character at
all, and a document is one line whatever is in it.

A number is kept as the text it is written as. An object keeps its members in the
order they are written in. A serializer hands its text to a writer in pieces of its
own choice.

## Main definitions

* `Document`, `Document.text`: A value and its text.
* `Serializer`: What is written of a document, in whatever pieces.
* `Writer`, `toWriter`: Something that takes bytes, and a document written to it.

## Theorems

* `plain_text`: A text has no control character.
* `writeAll_whole`: A writer that takes a piece whole.
* `toVec_text`: Collected, a document is its text.
-/

/-- The bytes of a number's text. -/
def Numeral (b : UInt8) : Prop :=
  48 ≤ b ∧ b ≤ 57 ∨ b ∈ "+-.eE".toUTF8.data.toList

/-- A number as it is written. -/
structure Number where
  text : List UInt8
  numeral : ∀ b ∈ text, Numeral b
  written : text ≠ []

/-- A JSON value. -/
inductive Document
  | null
  | bool (value : Bool)
  | number (value : Number)
  | string (value : String)
  | array (items : List Document)
  | object (members : List (String × Document))

namespace Document

/-- The bytes of a string. -/
def bytes (s : String) : List UInt8 :=
  s.toUTF8.data.toList

/-- A digit of a hexadecimal number. -/
def hexDigit (n : UInt8) : UInt8 :=
  if n < 10 then 48 + n else 87 + n

/-- A byte inside a string. -/
def escape (b : UInt8) : List UInt8 :=
  if b = 34 then bytes "\\\""
  else if b = 92 then bytes "\\\\"
  else if b = 8 then bytes "\\b"
  else if b = 9 then bytes "\\t"
  else if b = 10 then bytes "\\n"
  else if b = 12 then bytes "\\f"
  else if b = 13 then bytes "\\r"
  else if b < 32 then bytes "\\u00" ++ [hexDigit (b / 16), hexDigit (b % 16)]
  else [b]

/-- A string literal. -/
def quoted (s : String) : List UInt8 :=
  [34] ++ (bytes s).flatMap escape ++ [34]

mutual

/-- The text of a document. -/
def text : Document → List UInt8
  | null => bytes "null"
  | bool true => bytes "true"
  | bool false => bytes "false"
  | number n => n.text
  | string s => quoted s
  | array items => [91] ++ itemsText items ++ [93]
  | object members => [123] ++ membersText members ++ [125]

/-- The items of an array, with commas in between. -/
def itemsText : List Document → List UInt8
  | [] => []
  | [item] => text item
  | item :: items => text item ++ [44] ++ itemsText items

/-- The members of an object, with commas in between. -/
def membersText : List (String × Document) → List UInt8
  | [] => []
  | [(name, value)] => quoted name ++ [58] ++ text value
  | (name, value) :: members => quoted name ++ [58] ++ text value ++ [44] ++ membersText members

end

/-! ## Control characters -/

/-- Free of control characters. -/
def Plain (line : List UInt8) : Prop :=
  ∀ b ∈ line, 32 ≤ b

-- Written out: bytes are finitely many, and it is not to be decided by trying all.
instance (line : List UInt8) : Decidable (Plain line) :=
  List.decidableBAll (fun b => 32 ≤ b) line

theorem Plain.append {xs ys : List UInt8} (hx : Plain xs) (hy : Plain ys) : Plain (xs ++ ys) := by
  intro b hb
  rcases List.mem_append.mp hb with hb | hb
  · exact hx b hb
  · exact hy b hb

theorem plain_hexDigit (n : UInt8) (h : n < 16) : 32 ≤ hexDigit n := by
  rw [UInt8.lt_iff_toNat_lt] at h
  have hn : n.toNat < 16 := h
  rw [hexDigit, UInt8.le_iff_toNat_le]
  split
  · rw [UInt8.toNat_add]
    change 32 ≤ (48 + n.toNat) % 256
    omega
  · rw [UInt8.toNat_add]
    change 32 ≤ (87 + n.toNat) % 256
    omega

theorem plain_escape (b : UInt8) : Plain (escape b) := by
  rw [escape]
  split; · decide
  split; · decide
  split; · decide
  split; · decide
  split; · decide
  split; · decide
  split; · decide
  split
  · rename_i hb
    refine Plain.append (by decide) fun c hc => ?_
    rw [UInt8.lt_iff_toNat_lt] at hb
    have hb' : b.toNat < 32 := hb
    rcases List.mem_pair.mp hc with rfl | rfl
    · refine plain_hexDigit _ (UInt8.lt_iff_toNat_lt.mpr ?_)
      rw [UInt8.toNat_div]
      change b.toNat / 16 < 16
      omega
    · refine plain_hexDigit _ (UInt8.lt_iff_toNat_lt.mpr ?_)
      rw [UInt8.toNat_mod]
      exact Nat.mod_lt _ (by decide)
  · rename_i hb
    intro c hc
    rw [List.mem_singleton.mp hc]
    exact UInt8.not_lt.mp hb

theorem plain_quoted (s : String) : Plain (quoted s) := by
  refine Plain.append (Plain.append (by decide) fun b hb => ?_) (by decide)
  rcases List.mem_flatMap.mp hb with ⟨c, _, hc⟩
  exact plain_escape c b hc

theorem plain_number (n : Number) : Plain n.text := by
  intro b hb
  rcases n.numeral b hb with ⟨hlow, _⟩ | hb
  · exact UInt8.le_trans (by decide) hlow
  · have hsigns : Plain "+-.eE".toUTF8.data.toList := by decide
    exact hsigns b hb

mutual

/-- A document is one line. -/
theorem plain_text : ∀ d : Document, Plain d.text
  | null => by rw [text]; decide
  | bool true => by rw [text]; decide
  | bool false => by rw [text]; decide
  | number n => by rw [text]; exact plain_number n
  | string s => by rw [text]; exact plain_quoted s
  | array items => by
      rw [text]
      exact Plain.append (Plain.append (by decide) (plain_itemsText items)) (by decide)
  | object members => by
      rw [text]
      exact Plain.append (Plain.append (by decide) (plain_membersText members)) (by decide)

theorem plain_itemsText : ∀ items : List Document, Plain (itemsText items)
  | [] => by rw [itemsText]; decide
  | [item] => by rw [itemsText]; exact plain_text item
  | item :: next :: items => by
      rw [itemsText]
      · exact Plain.append (Plain.append (plain_text item) (by decide)) (plain_itemsText _)
      · nofun

theorem plain_membersText : ∀ members : List (String × Document), Plain (membersText members)
  | [] => by rw [membersText]; decide
  | [(name, value)] => by
      rw [membersText]
      exact Plain.append (Plain.append (plain_quoted name) (by decide)) (plain_text value)
  | (name, value) :: next :: members => by
      rw [membersText]
      · have hmember := Plain.append (Plain.append (plain_quoted name) (by decide : Plain [58]))
          (plain_text value)
        exact Plain.append (Plain.append hmember (by decide)) (plain_membersText _)
      · nofun

end

/-! ## Writing -/

/-- What is written of a document, in whatever pieces. -/
structure Serializer where
  writes : Document → List (List UInt8)
  whole : ∀ d, (writes d).flatten = d.text

/-- Something bytes are written to: how many it takes of what it is given. -/
def Writer (σ : Type) : Type :=
  List UInt8 → σ → Except Unit (Nat × σ)

variable {σ : Type}

/-- `write_all`: written until everything is taken. A writer that takes nothing
    fails. There are no more turns than bytes. -/
def writeAll (write : Writer σ) : Nat → List UInt8 → σ → Except Unit σ
  | _, [], s => .ok s
  | 0, _ :: _, _ => .error ()
  | fuel + 1, b :: bytes, s => do
      let (count, s) ← write (b :: bytes) s
      if count = 0 then throw ()
      else writeAll write fuel ((b :: bytes).drop count) s

/-- One piece after the other. -/
def writePieces (write : Writer σ) : List (List UInt8) → σ → Except Unit σ
  | [], s => .ok s
  | piece :: pieces, s => do
      let s ← writeAll write piece.length piece s
      writePieces write pieces s

/-- `to_writer`. -/
def toWriter (serializer : Serializer) (write : Writer σ) (d : Document) (s : σ) :
    Except Unit σ :=
  writePieces write (serializer.writes d) s

/-- `Vec<u8>` takes everything. -/
def collect : Writer (List UInt8) := fun bytes s =>
  .ok (bytes.length, s ++ bytes)

/-- `to_vec`. -/
def toVec (serializer : Serializer) (d : Document) : Except Unit (List UInt8) :=
  toWriter serializer collect d []

/-- A writer that takes a piece whole needs one turn. -/
theorem writeAll_whole {write : Writer σ} {piece : List UInt8} {s t : σ} (hne : piece ≠ [])
    (h : write piece s = .ok (piece.length, t)) :
    writeAll write piece.length piece s = .ok t := by
  cases piece with
  | nil => exact absurd rfl hne
  | cons b bytes =>
      have hnone : (b :: bytes).drop (bytes.length + 1) = [] :=
        List.drop_length (l := b :: bytes)
      rw [List.length_cons, writeAll, h]
      simp only [bind, Except.bind, hnone, List.length_cons, Nat.add_one_ne_zero, if_false]
      cases bytes.length <;> rw [writeAll]

theorem writeAll_failed {write : Writer σ} {piece : List UInt8} {s : σ} (hne : piece ≠ [])
    (h : write piece s = .error ()) : writeAll write piece.length piece s = .error () := by
  cases piece with
  | nil => exact absurd rfl hne
  | cons b bytes =>
      rw [List.length_cons, writeAll, h]
      rfl

theorem writePieces_collect (pieces : List (List UInt8)) (s : List UInt8) :
    writePieces collect pieces s = .ok (s ++ pieces.flatten) := by
  induction pieces generalizing s with
  | nil => rw [writePieces, List.flatten_nil, List.append_nil]
  | cons piece pieces ih =>
      have hpiece : writeAll collect piece.length piece s = .ok (s ++ piece) := by
        by_cases hne : piece = []
        · rw [hne, List.append_nil]
          rfl
        · exact writeAll_whole hne rfl
      rw [writePieces, hpiece, List.flatten_cons, ← List.append_assoc]
      exact ih _

/-- Collected, a document is its text. -/
theorem toVec_text (serializer : Serializer) (d : Document) :
    toVec serializer d = .ok d.text := by
  rw [toVec, toWriter, writePieces_collect, serializer.whole, List.nil_append]

end Document
