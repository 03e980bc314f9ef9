import TinyRuntime.Bus.Pool
import Mathlib.Data.List.Basic

/-!
# The Framing between the Router and a Warm Worker

Newline-delimited JSON. A request is one object on one line, so that the newline
at its end is the only one: the encoder escapes every control character inside a
string, and writes none between its tokens.

The encoder of strings and numbers and the decoders are third-party code and
enter as a structure. What `derive(Serialize)` makes of a request is spelled out:
the fields in their order, an absent one left out.

## Main definitions

* `JobRequest`, `JobResponse`, `Handshake`: The messages.
* `Json`: The JSON codec.
* `Json.request`, `Json.line`: A request as text and as a line.

## Theorems

* `Json.newline_not_mem_request`: An encoded request has no newline.
* `Json.newlines_written`: The newlines in a part of its line.
-/

namespace TinyRuntime

/-- The handshake a worker prints once on startup. -/
structure Handshake where
  ready : Bool
  protocol : Option Nat
  language : Option String
  error : Option String
  token : Option String
deriving DecidableEq, Repr

/-- One unit of work sent to a worker. -/
structure JobRequest where
  id : String
  code : String
  cwd : Option String
  timeoutMs : Option Nat
deriving DecidableEq, Repr

/-- A worker's reply to one request. -/
structure JobResponse where
  id : Option String
  ok : Bool
  stdout : String
  stderr : String
  exitCode : Option Int
  timedOut : Bool
  elapsedMs : Nat
  error : Option String
deriving DecidableEq, Repr

def NEWLINE : UInt8 := 10

/-- The part of `serde_json` the pool uses. A string literal, quotes included,
    and a number are free of control characters. -/
structure Json where
  string : String → List UInt8
  number : Nat → List UInt8
  /-- Why a request cannot be encoded, if it cannot. -/
  refused : JobRequest → Option String
  decodeResponse : List UInt8 → Option JobResponse
  decodeHandshake : List UInt8 → Except String Handshake
  string_escaped : ∀ s, ∀ b ∈ string s, 32 ≤ b
  number_plain : ∀ n, ∀ b ∈ number n, 32 ≤ b

namespace Json

/-- `"name":value`. -/
def field (j : Json) (name : String) (value : List UInt8) : List UInt8 :=
  j.string name ++ [58] ++ value

/-- The fields of a request that are written. -/
def fields (j : Json) (r : JobRequest) : List (List UInt8) :=
  [j.field "id" (j.string r.id), j.field "code" (j.string r.code)]
    ++ (r.cwd.map fun cwd => j.field "cwd" (j.string cwd)).toList
    ++ (r.timeoutMs.map fun ms => j.field "timeout_ms" (j.number ms)).toList

/-- The text of a request: `{`, its fields with commas in between, `}`. -/
def request (j : Json) (r : JobRequest) : List UInt8 :=
  [123] ++ [44].intercalate (j.fields r) ++ [125]

/-- `serde_json::to_string`. -/
def encode (j : Json) (r : JobRequest) : Except String (List UInt8) :=
  match j.refused r with
  | some error => .error error
  | none => .ok (j.request r)

/-- A request with the newline that ends it. -/
def line (j : Json) (r : JobRequest) : List UInt8 :=
  j.request r ++ [NEWLINE]

/-! ## Newlines -/

/-- Free of control characters. -/
def Plain (bytes : List UInt8) : Prop :=
  ∀ b ∈ bytes, 32 ≤ b

-- Written out: bytes are finitely many, and it is not to be decided by trying all.
instance (bytes : List UInt8) : Decidable (Plain bytes) :=
  List.decidableBAll (fun b => 32 ≤ b) bytes

theorem plain_append {xs ys : List UInt8} (hx : Plain xs) (hy : Plain ys) : Plain (xs ++ ys) := by
  intro b hb
  rcases List.mem_append.mp hb with hb | hb
  · exact hx b hb
  · exact hy b hb

theorem plain_intercalate {sep : List UInt8} (hsep : Plain sep) {xss : List (List UInt8)}
    (h : ∀ xs ∈ xss, Plain xs) : Plain (sep.intercalate xss) := by
  induction xss with
  | nil => exact fun b hb => by cases hb
  | cons xs rest ih =>
      have hrest := ih fun ys hys => h ys (List.mem_cons_of_mem _ hys)
      cases rest with
      | nil => simpa only [List.intercalate_singleton] using h xs (List.mem_cons_self ..)
      | cons ys rest =>
          rw [List.intercalate_cons_cons]
          exact plain_append (plain_append (h xs (List.mem_cons_self ..)) hsep) hrest

theorem plain_field (j : Json) (name : String) {value : List UInt8} (h : Plain value) :
    Plain (j.field name value) :=
  plain_append (plain_append (j.string_escaped name) (by decide)) h

theorem plain_fields (j : Json) (r : JobRequest) : ∀ xs ∈ j.fields r, Plain xs := by
  intro xs hxs
  simp only [fields, List.mem_append, List.mem_cons, List.not_mem_nil, or_false,
    Option.mem_toList, Option.map_eq_some_iff] at hxs
  rcases hxs with ((rfl | rfl) | ⟨cwd, _, rfl⟩) | ⟨ms, _, rfl⟩
  · exact plain_field j _ (j.string_escaped _)
  · exact plain_field j _ (j.string_escaped _)
  · exact plain_field j _ (j.string_escaped _)
  · exact plain_field j _ (j.number_plain _)

/-- An encoded request has no newline. -/
theorem newline_not_mem_request (j : Json) (r : JobRequest) : NEWLINE ∉ j.request r := by
  have hplain : Plain (j.request r) :=
    plain_append (plain_append (by decide : Plain [123])
      (plain_intercalate (by decide) (j.plain_fields r))) (by decide)
  intro hmem
  exact absurd (hplain _ hmem) (by decide)

/-- What has been written of a line ends it only if it is the whole line. -/
theorem newlines_written (j : Json) (r : JobRequest) {written rest : List UInt8}
    (h : written ++ rest = j.line r) :
    written.count NEWLINE = if rest = [] then 1 else 0 := by
  have hzero : (j.request r).count NEWLINE = 0 :=
    List.count_eq_zero_of_not_mem (j.newline_not_mem_request r)
  rcases List.eq_nil_or_concat rest with rfl | ⟨rest', b, rfl⟩
  · rw [List.append_nil] at h
    rw [if_pos rfl, h, line, List.count_append, hzero]
    rfl
  · rw [List.concat_eq_append] at h ⊢
    have hbody : written ++ rest' = j.request r := by
      rw [line, ← List.append_assoc] at h
      exact (List.append_inj' h rfl).1
    rw [if_neg (by simp only [List.append_eq_nil_iff, List.cons_ne_self, and_false, not_false_eq_true])]
    refine List.count_eq_zero_of_not_mem fun hmem => ?_
    exact j.newline_not_mem_request r (hbody ▸ List.mem_append_left _ hmem)

end Json

end TinyRuntime
