import TinyRuntime.Lib.Document
import TinyRuntime.Worker.Actor
import TinyRuntime.Pool.Protocol

/-!
# Requests on the Wire

The two places that know how long a request is. The manager counts it before it
admits it, with a writer that keeps a number and no bytes. The worker's process
encodes it into the frame it writes. They have structs of their own, and limits that
are written differently: the count starts at one for the newline and refuses at the
limit, the frame is measured before it has its newline.

Both structs are objects with the same fields in the same order. The rest of the
argument is about the counting writer: it is at the sum of the pieces it was given,
whatever they were, until it refuses one (`writePieces_count`).

## Main definitions

* `Count`, `Wire`, `Validate.request`: The manager's count.
* `Process.frame`: The frame.

## Theorems

* `validate_iff`: A request is refused for its size exactly at the limit.
* `preflight_agrees`: What is admitted is what is framed.
-/

namespace TinyRuntime

open Document (Serializer Writer toWriter toVec writeAll writePieces)

/-- The largest machine word. -/
def USIZE_MAX : Nat := 2 ^ 64 - 1

/-- A writer that only counts. -/
structure Count where
  n : Nat

/-- It refuses once the count is at the limit. -/
def Count.write : Writer Count := fun bytes c =>
  let n := min (c.n + bytes.length) USIZE_MAX
  if MAX_LINE ≤ n then .error ()
  else .ok (bytes.length, ⟨n⟩)

/-- What the manager counts. -/
structure Wire where
  id : String
  method : String
  params : Document

/-- The fields of a struct, in their order. -/
def Wire.document (w : Wire) : Document :=
  .object [("id", .string w.id), ("method", .string w.method), ("params", w.params)]

/-- The fields of a struct, in their order. -/
def ServerRequest.document (request : ServerRequest Document) : Document :=
  .object [("id", .string request.id), ("method", .string request.method),
    ("params", request.params)]

/-- The manager's check of a request. -/
def Validate.request (serializer : Serializer) (request : WorkerRequest Document) :
    Except String Unit :=
  if request.operation = 0 ∨ 64 < request.handle.utf8ByteSize ∨
      256 < request.method.utf8ByteSize then
    .error "request_limit"
  else
    let wire : Wire :=
      { id := toString request.operation, method := request.method, params := request.params }
    -- The count includes the newline.
    match toWriter serializer Count.write wire.document ⟨1⟩ with
    | .error _ => .error "request_limit"
    | .ok _ => .ok ()

/-- The frame of a request, newline included. -/
def Process.frame (serializer : Serializer) (request : ServerRequest Document) :
    Except String (List UInt8) :=
  match toVec serializer request.document with
  | .error _ => .error "encode_failed"
  | .ok bytes =>
      if MAX_LINE ≤ bytes.length then .error "request_limit" else .ok (bytes ++ [NEWLINE])

/-- The codec with this serializer. -/
def Serializer.codec (serializer : Serializer)
    (decodeResponse : List UInt8 → Option (ServerResponse Document))
    (decodeReady : List UInt8 → Option ReadyLine) : Codec Document :=
  { encode := fun request => toVec serializer request.document
    decodeResponse := decodeResponse
    decodeReady := decodeReady }

/-! ## The count -/

theorem count_write {bytes : List UInt8} {c : Count} : Count.write bytes c =
    if c.n + bytes.length < MAX_LINE then .ok (bytes.length, ⟨c.n + bytes.length⟩)
    else .error () := by
  have hmax : MAX_LINE < USIZE_MAX := by decide
  simp only [Count.write]
  split <;> rename_i hlimit <;> split <;> rename_i hfits
  · omega
  · rfl
  · rw [Nat.min_eq_left (by omega)]
  · omega

/-- However a text is cut into pieces, the count is at its length or has refused it. -/
theorem writePieces_count (pieces : List (List UInt8)) (c : Count) (hc : c.n < MAX_LINE) :
    writePieces Count.write pieces c =
      if c.n + pieces.flatten.length < MAX_LINE then .ok ⟨c.n + pieces.flatten.length⟩
      else .error () := by
  induction pieces generalizing c with
  | nil => rw [List.flatten_nil, List.length_nil, Nat.add_zero, if_pos hc, writePieces]
  | cons piece pieces ih =>
      rw [List.flatten_cons, List.length_append, ← Nat.add_assoc, writePieces]
      by_cases hne : piece = []
      · subst hne
        exact ih c hc
      · by_cases hfits : c.n + piece.length < MAX_LINE
        · rw [Document.writeAll_whole hne (count_write.trans (if_pos hfits))]
          exact ih ⟨c.n + piece.length⟩ hfits
        · rw [Document.writeAll_failed hne (count_write.trans (if_neg hfits)), if_neg (by omega)]
          rfl

variable {request : WorkerRequest Document}

/-- The two structs have the same document. -/
theorem wire_document (request : WorkerRequest Document) :
    Wire.document ⟨toString request.operation, request.method, request.params⟩ =
      (Actor.wire request).document :=
  rfl

theorem toWriter_count (serializer : Serializer) (d : Document) :
    toWriter serializer Count.write d ⟨1⟩ =
      if 1 + d.text.length < MAX_LINE then .ok ⟨1 + d.text.length⟩ else .error () := by
  rw [toWriter, writePieces_count _ _ (by decide), serializer.whole]

/-- A request whose number, handle and method are in order is refused exactly when its
    frame is at the limit. -/
theorem validate_iff (serializer : Serializer) (hoperation : 0 < request.operation)
    (hhandle : request.handle.utf8ByteSize ≤ 64) (hmethod : request.method.utf8ByteSize ≤ 256) :
    Validate.request serializer request =
      if 1 + (Actor.wire request).document.text.length < MAX_LINE then .ok ()
      else .error "request_limit" := by
  rw [Validate.request, if_neg (by omega)]
  dsimp only
  rw [wire_document, toWriter_count]
  by_cases hfits : 1 + (Actor.wire request).document.text.length < MAX_LINE
  · rw [if_pos hfits, if_pos hfits]
  · rw [if_neg hfits, if_neg hfits]

/-- What is admitted passed the checks before the count. -/
theorem validate_ok {serializer : Serializer} (h : Validate.request serializer request = .ok ()) :
    0 < request.operation ∧ request.handle.utf8ByteSize ≤ 64 ∧
      request.method.utf8ByteSize ≤ 256 := by
  rw [Validate.request] at h
  split at h
  · cases h
  · omega

/-- A frame has no newline before its end. -/
theorem newline_not_mem_text (d : Document) : NEWLINE ∉ d.text :=
  fun hmem => absurd (d.plain_text _ hmem) (by decide)

/-- Whatever pieces the manager's count and the process's encoder write, a request that
    the manager admits is framed: the frame is the text that was counted and a newline,
    the count was its length, it is below the limit, its only newline is the last byte,
    and the process neither fails to encode it nor refuses it. A request whose number,
    handle and method are in order is refused exactly when its text and one byte more
    reach the limit. -/
theorem preflight_agrees (counting encoding : Serializer) (request : WorkerRequest Document) :
    (Validate.request counting request = .ok () →
      ∃ frame, Process.frame encoding (Actor.wire request) = .ok frame ∧
        frame = (counting.writes (Actor.wire request).document).flatten ++ [NEWLINE] ∧
        toWriter counting Count.write (Actor.wire request).document ⟨1⟩ = .ok ⟨frame.length⟩ ∧
        frame.length < MAX_LINE ∧
        (∀ i, frame[i]? = some NEWLINE ↔ i + 1 = frame.length) ∧
        ∀ decodeResponse decodeReady p,
          Process.request (Serializer.codec encoding decodeResponse decodeReady) p
              (Actor.wire request) = (do
            Prog.act (.beginWrite p (Actor.wire request))
            attemptAs "write_failed" (.finishWrite p)
            attemptAs "write_failed" (.flush p)
            Process.awaitReply (Serializer.codec encoding decodeResponse decodeReady) p
              (Actor.wire request).id (MAX_OPERATION_BYTES + 1) MAX_OPERATION_BYTES)) ∧
    (0 < request.operation → request.handle.utf8ByteSize ≤ 64 →
      request.method.utf8ByteSize ≤ 256 →
      (Validate.request counting request = .error "request_limit" ↔
        MAX_LINE ≤ 1 + (encoding.writes (Actor.wire request).document).flatten.length) ∧
      (Validate.request counting request = .ok () ↔
        1 + (encoding.writes (Actor.wire request).document).flatten.length < MAX_LINE)) := by
  refine ⟨fun h => ?_, fun hoperation hhandle hmethod => ?_⟩
  · rcases validate_ok h with ⟨hoperation, hhandle, hmethod⟩
    rw [validate_iff counting hoperation hhandle hmethod] at h
    generalize hd : (Actor.wire request).document = d at h ⊢
    have hfits : 1 + d.text.length < MAX_LINE := by
      by_contra hover
      rw [if_neg hover] at h
      cases h
    have hlen : (d.text ++ [NEWLINE]).length = 1 + d.text.length := by
      rw [List.length_append, List.length_singleton, Nat.add_comm]
    have hvec : toVec encoding d = .ok d.text := Document.toVec_text encoding d
    refine ⟨d.text ++ [NEWLINE], ?_, ?_, ?_, ?_, fun i => ?_,
      fun decodeResponse decodeReady p => ?_⟩
    · rw [Process.frame, hd, hvec]
      exact if_neg (by omega)
    · rw [counting.whole]
    · rw [toWriter_count, if_pos hfits, hlen]
    · rw [hlen]
      exact hfits
    · rw [hlen]
      constructor
      · intro hget
        by_contra hne
        by_cases hi : i < d.text.length
        · rw [List.getElem?_append_left hi] at hget
          exact newline_not_mem_text d (List.mem_of_getElem? hget)
        · rw [List.getElem?_eq_none (by omega)] at hget
          cases hget
      · intro hi
        have hlast : i = d.text.length := by omega
        rw [hlast, List.getElem?_concat_length]
    · have hencode : (Serializer.codec encoding decodeResponse decodeReady).encode
          (Actor.wire request) = .ok d.text := by
        rw [← hvec, ← hd]
        rfl
      rw [Process.request, hencode]
      exact if_neg (by omega)
  · rw [validate_iff counting hoperation hhandle hmethod, encoding.whole]
    split
    · rename_i hfits
      exact ⟨⟨nofun, fun h => by omega⟩, fun _ => hfits, fun _ => rfl⟩
    · rename_i hover
      exact ⟨⟨fun _ => Nat.le_of_not_lt hover, fun _ => rfl⟩, nofun, fun h => absurd h hover⟩

end TinyRuntime
