import TinyRuntime.Pool.Protocol
import TinyRuntime.Worker.Native
import Mathlib.Data.Seq.Basic

/-!
# Reading Frames

How the persistent workers' frames are read off a pipe: one line under a limit, and
the search of a request for the line that answers it.

What the worker writes is a stream that may end or go on forever. A reader hands it
out in chunks. Any beginning of what is left may be the next chunk, as long as it
has a byte, and there is none after the end of the stream. The buffer a line is
collected in is part of the state, so that its size can be spoken of.

Both loops are bounded, and their bounds are never met: a chunk has a byte, and so
has a frame.

## Main definitions

* `Pipe`, `ReadOp`, `ReadOp.respond`: A pipe and the calls on it.
* `line`, `lines`: One frame, and one after the other.
* `Process.awaitFrame`: The search of a request.
* `frameOf`, `framesOf`: The frames of a stream.

## Theorems

* `line_spec`: The loop reads what the stream has.
* `lines_split`: Frames do not depend on the chunks.
* `awaitFrame_search`: A request finds the first frame that answers it.
-/

namespace TinyRuntime

open Prog (act attempt)
open Stream' (Seq)

/-- A pipe that is read, and the line being collected. -/
structure Pipe where
  rest : Seq UInt8
  bytes : List UInt8
  /-- A read has failed. -/
  failed : Bool

/-- A pipe from its start. -/
def Pipe.of (rest : Seq UInt8) : Pipe :=
  { rest := rest, bytes := [], failed := false }

/-- The effects of reading. -/
inductive ReadOp : Type → Type
  /-- `reader.fill_buf()`. -/
  | fillBuf : ReadOp (Except Unit (List UInt8))
  /-- `reader.consume(count)`. -/
  | consume (count : Nat) : ReadOp Unit
  /-- `Vec::new()`. -/
  | clear : ReadOp Unit
  | bytes : ReadOp (List UInt8)
  /-- `bytes.extend_from_slice(chunk)`. -/
  | extend (chunk : List UInt8) : ReadOp Unit
  /-- What never comes. -/
  | pending : ReadOp Empty

/-- The answers. The choice is how many bytes the next chunk has beyond the first,
    or that the read fails. -/
def ReadOp.respond {β : Type} (op : ReadOp β) (s : Pipe) (c : Option Nat) :
    Option (β × Pipe) :=
  match op with
  | .fillBuf =>
      match c with
      | some n => some (.ok (s.rest.take (n + 1)), s)
      | none => some (.error (), { s with failed := true })
  | .consume count => some ((), { s with rest := s.rest.drop count })
  | .clear => some ((), { s with bytes := [] })
  | .bytes => some (s.bytes, s)
  | .extend chunk => some ((), { s with bytes := s.bytes ++ chunk })
  | .pending => none

/-- Reading from a pipe. -/
def reading : Handler ReadOp Pipe (Option Nat) where
  respond op s c := op.respond s c

/-- How many bytes of a chunk belong to the line. -/
def countOf (chunk : List UInt8) : Nat :=
  match chunk.findIdx? (· = NEWLINE) with
  | some n => n + 1
  | none => chunk.length

/-- `loop { .. }` of `line`, with as many turns as there can be. -/
def lineLoop : Nat → ExceptT String (Prog ReadOp) (List UInt8)
  | 0 => do
      let never ← act .pending
      nomatch never
  | fuel + 1 => do
      match ← act .fillBuf with
      | .error _ => throw "read_failed"
      | .ok chunk =>
          if chunk = [] then throw "worker_closed"
          else do
            let count := countOf chunk
            if MAX_LINE - (← act .bytes).length < count then throw "frame_limit"
            else do
              act (.extend (chunk.take count))
              act (.consume count)
              let bytes ← act .bytes
              if bytes.getLast? = some NEWLINE then pure bytes
              else if bytes.length = MAX_LINE then throw "frame_limit"
              else lineLoop fuel

/-- A frame reader that rejects expansion before extending its owned buffer. -/
def line : ExceptT String (Prog ReadOp) (List UInt8) := do
  act .clear
  lineLoop (MAX_LINE + 1)

/-- Lines read one after the other, up to a failure: what was read, and the failure. -/
def lines : Nat → Prog ReadOp (List (List UInt8) × Option String)
  | 0 => pure ([], none)
  | n + 1 => do
      match ← line.run with
      | .error reason => pure ([], some reason)
      | .ok frame => do
          let (frames, reason) ← lines n
          pure (frame :: frames, reason)

variable {V : Type}

/-- The loop of `Process::request`, once the request is written. -/
def Process.awaitFrame (decode : List UInt8 → Option (ServerResponse V)) (id : String) :
    Nat → Nat → ExceptT String (Prog ReadOp) (ServerResponse V)
  | 0, _ => do
      let never ← act .pending
      nomatch never
  | fuel + 1, remaining => do
      let bytes ← line
      if remaining < bytes.length then throw "output_limit"
      else
        match decode bytes with
        | none => awaitFrame decode id fuel (remaining - bytes.length)
        | some response =>
            if response.id = some id then pure response
            else awaitFrame decode id fuel (remaining - bytes.length)

/-- The same with the whole budget. -/
def Process.awaitResponse (decode : List UInt8 → Option (ServerResponse V)) (id : String) :
    ExceptT String (Prog ReadOp) (ServerResponse V) :=
  awaitFrame decode id (MAX_OPERATION_BYTES + 1) MAX_OPERATION_BYTES

/-! ## The frames of a stream -/

/-- The first frame of a stream, or why there is none. -/
def frameOf (rest : Seq UInt8) : Except String (List UInt8) :=
  let window := rest.take MAX_LINE
  match window.findIdx? (· = NEWLINE) with
  | some n => .ok (window.take (n + 1))
  | none => .error (if window.length = MAX_LINE then "frame_limit" else "worker_closed")

/-- The first frames of a stream, and why there are no more. -/
def framesOf : Nat → Seq UInt8 → List (List UInt8) × Option String
  | 0, _ => ([], none)
  | n + 1, rest =>
      match frameOf rest with
      | .error reason => ([], some reason)
      | .ok frame =>
          let next := framesOf n (rest.drop frame.length)
          (frame :: next.1, next.2)

section Frames

variable {base : Seq UInt8} {n m : Nat}

theorem get?_of_length_take (h : n ≤ (base.take m).length) {i : Nat} (hi : i < n) :
    base.get? i ≠ none := by
  intro hnone
  have hsome : i < (base.take m).length := Nat.lt_of_lt_of_le hi h
  have hget := List.getElem?_eq_getElem hsome
  rw [Stream'.Seq.getElem?_take, hnone] at hget
  split at hget <;> cases hget

theorem length_take_of_get? (h : ∀ i < n, base.get? i ≠ none) : (base.take n).length = n := by
  refine Nat.le_antisymm Stream'.Seq.length_take_le (Nat.le_of_not_lt fun hlt => ?_)
  refine h _ hlt ?_
  have hget := List.getElem?_eq_none (Nat.le_refl (base.take n).length)
  rwa [Stream'.Seq.getElem?_take, if_pos hlt] at hget

/-- A beginning of a stream and a beginning of what is left after it. -/
theorem take_add : base.take (n + m) = base.take n ++ (base.drop n).take m := by
  induction n generalizing base with
  | zero => rw [Nat.zero_add, Stream'.Seq.take_zero, Stream'.Seq.drop_zero, List.nil_append]
  | succ n ih =>
      rw [Nat.add_right_comm]
      cases hbase : base.destruct with
      | none =>
          rw [Stream'.Seq.destruct_eq_none hbase]
          simp only [Stream'.Seq.take_nil, Stream'.Seq.drop_nil, List.nil_append]
      | some r =>
          rw [Stream'.Seq.destruct_eq_cons (show base.destruct = some (r.1, r.2) from hbase)]
          simp only [Stream'.Seq.take_succ_cons, Stream'.Seq.drop_succ_cons, List.cons_append, ih]

theorem findIdx?_window :
    (base.take m).findIdx? (· = NEWLINE) = none ↔ ∀ i < m, base.get? i ≠ some NEWLINE := by
  rw [List.findIdx?_eq_none_iff]
  constructor
  · intro h i hi hget
    have hmem : NEWLINE ∈ base.take m := Stream'.Seq.get?_mem_take hi hget
    exact of_decide_eq_false (h _ hmem) rfl
  · intro h b hb
    rcases List.mem_iff_getElem?.mp hb with ⟨i, hi⟩
    rw [Stream'.Seq.getElem?_take] at hi
    split at hi
    · rename_i hlt
      refine decide_eq_false fun hbn => h i hlt ?_
      rw [hi, hbn]
    · cases hi

/-- A frame that ends in the window. -/
theorem frameOf_ok (hn : n < MAX_LINE) (hget : base.get? n = some NEWLINE)
    (hbefore : ∀ i < n, base.get? i ≠ some NEWLINE) : frameOf base = .ok (base.take (n + 1)) := by
  have hfull : ∀ i < n + 1, base.get? i ≠ none := by
    intro i hi hnone
    have hlast := base.ge_stable (Nat.le_of_lt_succ hi) hget
    rw [hnone] at hlast
    exact absurd hlast nofun
  have hfind : (base.take MAX_LINE).findIdx? (· = NEWLINE) = some n := by
    rw [List.findIdx?_eq_some_iff_getElem]
    have hlt : n < (base.take MAX_LINE).length := by
      by_contra hge
      have hnone := List.getElem?_eq_none (Nat.le_of_not_lt hge)
      rw [Stream'.Seq.getElem?_take, if_pos hn, hget] at hnone
      cases hnone
    have hgetElem : ∀ i (hi : i < (base.take MAX_LINE).length),
        base.get? i = some (base.take MAX_LINE)[i] := by
      intro i hi
      have h := List.getElem?_eq_getElem hi
      rwa [Stream'.Seq.getElem?_take,
        if_pos (Nat.lt_of_lt_of_le hi Stream'.Seq.length_take_le)] at h
    refine ⟨hlt, decide_eq_true ?_, fun j hj => ?_⟩
    · exact Option.some.inj ((hgetElem n hlt).symm.trans hget)
    · have hne := hbefore j hj
      rw [hgetElem j (Nat.lt_trans hj hlt)] at hne
      simp only [decide_eq_true_eq]
      exact fun h => hne (congrArg some h)
  have hmax : MAX_LINE = (n + 1) + (MAX_LINE - (n + 1)) := by omega
  simp only [frameOf, hfind]
  rw [hmax, take_add, List.take_left' (length_take_of_get? hfull)]

/-- A window without a newline. -/
theorem frameOf_limit (hfull : ∀ i < MAX_LINE, base.get? i ≠ none)
    (hbefore : ∀ i < MAX_LINE, base.get? i ≠ some NEWLINE) :
    frameOf base = .error "frame_limit" := by
  simp only [frameOf, findIdx?_window.mpr hbefore, if_pos (length_take_of_get? hfull)]

/-- A stream that ends in the window without one. -/
theorem frameOf_closed (hn : n < MAX_LINE) (hget : base.get? n = none)
    (hbefore : ∀ i < n, base.get? i ≠ some NEWLINE) :
    frameOf base = .error "worker_closed" := by
  have hnone : ∀ i < MAX_LINE, base.get? i ≠ some NEWLINE := by
    intro i _
    by_cases hi : i < n
    · exact hbefore i hi
    · rw [base.le_stable (Nat.le_of_not_lt hi) hget]
      nofun
  have hshort : (base.take MAX_LINE).length ≠ MAX_LINE := fun hlen =>
    get?_of_length_take (Nat.le_of_eq hlen.symm) hn hget
  simp only [frameOf, findIdx?_window.mpr hnone, if_neg hshort]

end Frames

/-! ## Reading one frame -/

/-- What holds at every effect: the buffer keeps to the limit, and no loop runs out
    of turns. -/
def Within : ∀ β, ReadOp β → Pipe → Prop := fun _ op s =>
  s.bytes.length ≤ MAX_LINE ∧
    match op with
    | .pending => False
    | _ => True

/-- The bytes collected so far are the beginning of the stream, and there is no
    newline among them. -/
structure Collected (base : Seq UInt8) (s : Pipe) : Prop where
  bytes : s.bytes = base.take s.bytes.length
  rest : s.rest = base.drop s.bytes.length
  clean : ∀ i < s.bytes.length, base.get? i ≠ some NEWLINE

theorem countOf_spec {chunk : List UInt8} (hne : chunk ≠ []) : 0 < countOf chunk ∧
    countOf chunk ≤ chunk.length ∧ ∀ i, i + 1 < countOf chunk → chunk[i]? ≠ some NEWLINE := by
  rw [countOf]
  cases hfind : chunk.findIdx? (· = NEWLINE) with
  | none =>
      refine ⟨List.length_pos_of_ne_nil hne, Nat.le_refl _, fun i _ hi => ?_⟩
      rw [List.findIdx?_eq_none_iff] at hfind
      exact of_decide_eq_false (hfind _ (List.mem_of_getElem? hi)) rfl
  | some n =>
      rw [List.findIdx?_eq_some_iff_getElem] at hfind
      rcases hfind with ⟨hlt, _, hbefore⟩
      refine ⟨Nat.succ_pos n, hlt, fun i hi hget => ?_⟩
      have hin : i < n := Nat.lt_of_succ_lt_succ hi
      rw [List.getElem?_eq_getElem (Nat.lt_trans hin hlt)] at hget
      exact hbefore i hin (decide_eq_true (Option.some.inj hget))

section Turn

variable {base : Seq UInt8} {s : Pipe} {k : Nat}

/-- One turn of the loop. -/
theorem Collected.turn (h : Collected base s) (hlt : s.bytes.length < MAX_LINE)
    {chunk : List UInt8} (hchunk : chunk = s.rest.take (k + 1)) (hne : chunk ≠ []) :
    (MAX_LINE - s.bytes.length < countOf chunk → frameOf base = .error "frame_limit") ∧
    (countOf chunk ≤ MAX_LINE - s.bytes.length → ∀ bytes,
      bytes = s.bytes ++ chunk.take (countOf chunk) →
      bytes.length = s.bytes.length + countOf chunk ∧ bytes = base.take bytes.length ∧
      (bytes.getLast? = some NEWLINE → frameOf base = .ok bytes) ∧
      (bytes.getLast? ≠ some NEWLINE → ∀ i < bytes.length, base.get? i ≠ some NEWLINE)) := by
  rcases countOf_spec hne with ⟨hpos, hle, hbefore⟩
  generalize countOf chunk = count at hpos hle hbefore
  have hlen : chunk.length ≤ k + 1 := hchunk ▸ Stream'.Seq.length_take_le
  have hget : ∀ i, i < chunk.length → base.get? (s.bytes.length + i) = chunk[i]? := by
    intro i hi
    rw [hchunk, Stream'.Seq.getElem?_take, if_pos (Nat.lt_of_lt_of_le hi hlen), h.rest,
      Stream'.Seq.drop_get?]
  -- What is known of each byte up to the last that belongs to the line.
  have hfull : ∀ i < s.bytes.length + count, base.get? i ≠ none := by
    intro i hi
    by_cases hin : i < s.bytes.length
    · exact get?_of_length_take (Nat.le_of_eq (congrArg List.length h.bytes)) hin
    · have hi' : i = s.bytes.length + (i - s.bytes.length) := by omega
      rw [hi', hget _ (by omega), List.getElem?_eq_getElem (by omega)]
      nofun
  have hclean : ∀ i, i + 1 < s.bytes.length + count → base.get? i ≠ some NEWLINE := by
    intro i hi
    by_cases hin : i < s.bytes.length
    · exact h.clean i hin
    · have hi' : i = s.bytes.length + (i - s.bytes.length) := by omega
      rw [hi', hget _ (by omega)]
      exact hbefore _ (by omega)
  refine ⟨fun hover => ?_, fun hfits bytes hbytes => ?_⟩
  · exact frameOf_limit (fun i hi => hfull i (by omega)) fun i hi => hclean i (by omega)
  · have hlength : bytes.length = s.bytes.length + count := by
      rw [hbytes, List.length_append, List.length_take, Nat.min_eq_left hle]
    have htake : bytes = base.take bytes.length := by
      rw [hlength, take_add, ← h.bytes, ← h.rest, hbytes, hchunk]
      refine congrArg _ (List.ext_getElem? fun i => ?_)
      simp only [List.getElem?_take, Stream'.Seq.getElem?_take]
      split
      · rw [if_pos (by omega)]
      · rfl
    have hlast : bytes.getLast? = base.get? (s.bytes.length + count - 1) := by
      rw [List.getLast?_eq_getElem?, htake, Stream'.Seq.getElem?_take, ← htake, hlength,
        if_pos (by omega)]
    refine ⟨hlength, htake, fun hnew => ?_, fun hnew i hi => ?_⟩
    · rw [frameOf_ok (n := s.bytes.length + count - 1) (by omega) (hlast.symm.trans hnew)
        fun i hi => hclean i (by omega), Nat.sub_add_cancel (by omega), ← hlength, ← htake]
    · by_cases hi' : i + 1 < s.bytes.length + count
      · exact hclean i hi'
      · have hi'' : i = s.bytes.length + count - 1 := by omega
        rw [hi'', ← hlast]
        exact hnew

/-- An effect that leaves nothing to choose. -/
theorem wp_read {β α : Type} {op : ReadOp β} {s t : Pipe} {b : β}
    {A : ∀ β, ReadOp β → Pipe → Prop} {Q : Except α β → Pipe → Prop}
    (hop : ∀ c, op.respond s c = some (b, t)) :
    (act op).run.wp reading A Q s ↔ A _ op s ∧ Q (.ok b) t := by
  rw [Prog.wp_act, Prog.wp_op]
  refine and_congr_right fun _ => ⟨fun h => h none b t (hop none), fun h c b' t' hr => ?_⟩
  have hsame : some (b, t) = some (b', t') := (hop c).symm.trans hr
  cases hsame
  exact h

end Turn

/-- What reading a line comes to. Where no read fails, it is the first frame, and no
    more is consumed. -/
structure FrameRead (base : Seq UInt8) (s : Pipe) (r : Except String (List UInt8))
    (t : Pipe) : Prop where
  bounded : t.bytes.length ≤ MAX_LINE
  consumed : ∃ n ≤ MAX_LINE, t.rest = base.drop n
  failed : t.failed = false → s.failed = false
  kept : ∀ frame, r = .ok frame → t.failed = s.failed
  frame : t.failed = false → r = frameOf base ∧
    ∀ frame, r = .ok frame → t.rest = base.drop frame.length

theorem lineLoop_spec {base : Seq UInt8} : ∀ (fuel : Nat) (s : Pipe), Collected base s →
    s.bytes.length < MAX_LINE → MAX_LINE < fuel + s.bytes.length →
    (lineLoop fuel).run.wp reading Within (FrameRead base s) s
  | 0, s, _, hlt, hfuel => by omega
  | fuel + 1, s, h, hlt, hfuel => by
      have hconsumed : ∃ n ≤ MAX_LINE, s.rest = base.drop n := ⟨_, Nat.le_of_lt hlt, h.rest⟩
      rw [lineLoop, Prog.wp_run_bind, Prog.wp_act, Prog.wp_op]
      refine ⟨⟨Nat.le_of_lt hlt, trivial⟩, fun c r t hr => ?_⟩
      cases c with
      | none =>
          cases hr
          exact ⟨Nat.le_of_lt hlt, hconsumed, nofun, nofun, nofun⟩
      | some k =>
          cases hr
          dsimp only
          split
          · rename_i hempty
            -- The stream has ended.
            refine ⟨Nat.le_of_lt hlt, hconsumed, id, nofun, fun _ =>
              ⟨(frameOf_closed hlt ?_ h.clean).symm, nofun⟩⟩
            have hnone : (s.rest.take (k + 1))[0]? = none := by rw [hempty]; rfl
            rwa [Stream'.Seq.getElem?_take, if_pos (Nat.succ_pos k), h.rest,
              Stream'.Seq.drop_get?, Nat.add_zero] at hnone
          · rename_i hne
            rcases h.turn hlt rfl hne with ⟨hover, hfits⟩
            rw [Prog.wp_run_bind, wp_read fun _ => rfl]
            refine ⟨⟨Nat.le_of_lt hlt, trivial⟩, ?_⟩
            dsimp only
            split
            · rename_i hlimit
              exact ⟨Nat.le_of_lt hlt, hconsumed, id, nofun,
                fun _ => ⟨(hover hlimit).symm, nofun⟩⟩
            · rename_i hroom
              rcases hfits (Nat.le_of_not_lt hroom) _ rfl with ⟨hlen, htake, hdone, hclean⟩
              have hmax : (s.bytes ++ (s.rest.take (k + 1)).take
                  (countOf (s.rest.take (k + 1)))).length ≤ MAX_LINE := by omega
              have hpos := (countOf_spec hne).1
              rw [Prog.wp_run_bind, wp_read fun _ => rfl]
              refine ⟨⟨Nat.le_of_lt hlt, trivial⟩, ?_⟩
              rw [Prog.wp_run_bind, wp_read fun _ => rfl]
              refine ⟨⟨hmax, trivial⟩, ?_⟩
              rw [Prog.wp_run_bind, wp_read fun _ => rfl]
              refine ⟨⟨hmax, trivial⟩, ?_⟩
              dsimp only
              have hrest : s.rest.drop (countOf (s.rest.take (k + 1))) =
                  base.drop (s.bytes ++ (s.rest.take (k + 1)).take
                    (countOf (s.rest.take (k + 1)))).length := by
                rw [hlen, Stream'.Seq.dropn_add, ← h.rest]
              split
              · rename_i hnew
                refine ⟨hmax, ⟨_, hmax, hrest⟩, id, fun _ _ => rfl, fun _ =>
                  ⟨(hdone hnew).symm, fun frame hframe => ?_⟩⟩
                cases hframe
                exact hrest
              · rename_i hnew
                have hnext := hclean hnew
                split
                · rename_i hfull
                  refine ⟨hmax, ⟨_, hmax, hrest⟩, id, nofun, fun _ =>
                    ⟨(frameOf_limit ?_ ?_).symm, nofun⟩⟩
                  · rw [← hfull]
                    exact fun i hi =>
                      get?_of_length_take (Nat.le_of_eq (congrArg List.length htake)) hi
                  · rw [← hfull]
                    exact hnext
                · rename_i hfull
                  refine Prog.wp_mono _ (fun r t h' =>
                    ⟨h'.bounded, h'.consumed, h'.failed, h'.kept, h'.frame⟩) _
                    (lineLoop_spec fuel _ ⟨htake, hrest, hnext⟩ ?_ ?_)
                  · exact Nat.lt_of_le_of_ne hmax hfull
                  · change MAX_LINE < fuel + (s.bytes ++ _).length
                    omega

theorem line_spec (s : Pipe) (hs : s.bytes.length ≤ MAX_LINE) :
    line.run.wp reading Within (FrameRead s.rest s) s := by
  rw [line, Prog.wp_run_bind, wp_read fun _ => rfl]
  refine ⟨⟨hs, trivial⟩, ?_⟩
  have hclear := @lineLoop_spec s.rest (MAX_LINE + 1) { s with bytes := [] }
    ⟨Stream'.Seq.take_zero.symm, rfl, nofun⟩ (Nat.mul_pos (Nat.succ_pos _) (Nat.succ_pos _))
    (Nat.lt_succ_self _)
  exact Prog.wp_mono _ (fun r t h' =>
    ⟨h'.bounded, h'.consumed, h'.failed, h'.kept, h'.frame⟩) _ hclear

/-- A program that keeps to it is never stuck. -/
theorem Within.live {α : Type} {q : Prog ReadOp α} {Q : α → Pipe → Prop} {t : Pipe}
    (h : q.wp reading Within Q t) :
    (∃ r, q = .done r) ∨ ∃ c q' t', q.advance reading t c = some (q', t') := by
  cases q with
  | done r => exact .inl ⟨r, rfl⟩
  | perform e k =>
      refine .inr ⟨some 0, ?_⟩
      cases e with
      | pending => exact h.1.2.elim
      | _ => exact ⟨_, _, rfl⟩

/-! ## One frame after the other -/

/-- A frame ends in its only newline, and is the beginning of its stream. -/
theorem frameOf_shape {rest : Seq UInt8} {frame : List UInt8} (h : frameOf rest = .ok frame) :
    (∃ body, frame = body ++ [NEWLINE] ∧ NEWLINE ∉ body) ∧ frame.length ≤ MAX_LINE ∧
      frame = rest.take frame.length := by
  simp only [frameOf] at h
  split at h
  · rename_i n hfind
    cases h
    rw [List.findIdx?_eq_some_iff_getElem] at hfind
    rcases hfind with ⟨hlt, hnew, hbefore⟩
    have hle : (rest.take MAX_LINE).length ≤ MAX_LINE := Stream'.Seq.length_take_le
    have hlength : ((rest.take MAX_LINE).take (n + 1)).length = n + 1 := by
      rw [List.length_take]
      omega
    refine ⟨⟨(rest.take MAX_LINE).take n, ?_, fun hmem => ?_⟩, by omega, ?_⟩
    · rw [List.take_succ_eq_append_getElem hlt, of_decide_eq_true hnew]
    · rcases List.mem_iff_getElem.mp hmem with ⟨i, hi, hget⟩
      rw [List.length_take] at hi
      rw [List.getElem_take] at hget
      exact hbefore i (by omega) (decide_eq_true hget)
    · rw [hlength]
      refine List.ext_getElem? fun i => ?_
      simp only [List.getElem?_take, Stream'.Seq.getElem?_take]
      split
      · rw [if_pos (by omega)]
      · rfl
  · cases h

/-- The frames are the beginning of the stream, and none is anything else. -/
theorem framesOf_shape : ∀ (n : Nat) (rest : Seq UInt8),
    (framesOf n rest).1.flatten = rest.take (framesOf n rest).1.flatten.length ∧
      ∀ frame ∈ (framesOf n rest).1, ∃ body, frame = body ++ [NEWLINE] ∧ NEWLINE ∉ body ∧
        frame.length ≤ MAX_LINE
  | 0, rest => ⟨Stream'.Seq.take_zero.symm, nofun⟩
  | n + 1, rest => by
      rw [framesOf]
      split
      · exact ⟨Stream'.Seq.take_zero.symm, nofun⟩
      · rename_i frame hframe
        rcases frameOf_shape hframe with ⟨⟨body, hbody, hclean⟩, hlen, htake⟩
        rcases framesOf_shape n (rest.drop frame.length) with ⟨hrest, hframes⟩
        refine ⟨?_, fun f hf => ?_⟩
        · rw [List.flatten_cons, List.length_append, take_add, ← hrest, ← htake]
        · rcases List.mem_cons.mp hf with rfl | hf
          · exact ⟨body, hbody, hclean, hlen⟩
          · exact hframes f hf

/-- Repeated calls read one frame after the other. -/
theorem lines_spec : ∀ (n : Nat) (s : Pipe), s.bytes.length ≤ MAX_LINE →
    (lines n).wp reading Within (fun r t => t.bytes.length ≤ MAX_LINE ∧
      (t.failed = false → s.failed = false ∧ r = framesOf n s.rest ∧
        (r.2 = none → t.rest = s.rest.drop r.1.flatten.length))) s
  | 0, s, hs => ⟨hs, fun hf => ⟨hf, rfl, fun _ => rfl⟩⟩
  | n + 1, s, hs => by
      rw [lines, Prog.wp_bind]
      refine Prog.wp_mono _ ?_ _ (line_spec s hs)
      intro r t h
      cases r with
      | error reason =>
          refine ⟨h.bounded, fun hf => ⟨h.failed hf, ?_, nofun⟩⟩
          rw [framesOf, ← (h.frame hf).1]
      | ok frame =>
          dsimp only
          rw [Prog.wp_bind]
          refine Prog.wp_mono _ ?_ _ (lines_spec n t h.bounded)
          rintro ⟨frames, reason⟩ u ⟨hbounded, hframes⟩
          refine ⟨hbounded, fun hf => ?_⟩
          rcases hframes hf with ⟨hft, heq, hnext⟩
          rcases h.frame hft with ⟨hframe, hdrop⟩
          have hrest := hdrop frame rfl
          rw [hrest] at heq hnext
          refine ⟨h.failed hft, ?_, fun hnone => ?_⟩
          · rw [framesOf, ← hframe]
            dsimp only
            rw [← heq]
          · rw [hnext hnone, List.flatten_cons, List.length_append, Stream'.Seq.dropn_add]

/-- However a stream is cut into chunks, repeated calls return its frames, one after
    the other, up to the first that is missing. As long as they return, they consume
    what they return and nothing else. The buffer never grows past the limit, and
    every call ends. -/
theorem lines_split (n : Nat) (rest : Seq UInt8) :
    (∀ q t, Prog.Reaches reading (lines n) (.of rest) q t → t.bytes.length ≤ MAX_LINE ∧
      ((∃ r, q = .done r) ∨ ∃ c q' t', q.advance reading t c = some (q', t'))) ∧
    (∀ r t, Prog.Reaches reading (lines n) (.of rest) (.done r) t → t.failed = false →
      r = framesOf n rest ∧ (r.2 = none → t.rest = rest.drop r.1.flatten.length)) ∧
    (framesOf n rest).1.flatten = rest.take (framesOf n rest).1.flatten.length ∧
    ∀ frame ∈ (framesOf n rest).1, ∃ body, frame = body ++ [NEWLINE] ∧ NEWLINE ∉ body ∧
      frame.length ≤ MAX_LINE := by
  have hspec := lines_spec n (.of rest) (Nat.zero_le _)
  refine ⟨fun q t hr => ?_, fun r t hr hf => ?_, framesOf_shape n rest⟩
  · have hwp := Prog.wp_reaches hspec hr
    refine ⟨Prog.wp_point (C := fun s => s.bytes.length ≤ MAX_LINE) ?_ ?_ hwp, Within.live hwp⟩
    · exact fun _ _ _ h => h.1
    · exact fun _ _ h => h.1
  · exact ((Prog.wp_reaches hspec hr).2 hf).2

/-! ## The search of a request -/

section Search

variable {decode : List UInt8 → Option (ServerResponse V)} {id : String}

/-- A frame that answers a request. -/
def Answer (decode : List UInt8 → Option (ServerResponse V)) (id : String)
    (frame : List UInt8) (response : ServerResponse V) : Prop :=
  decode frame = some response ∧ response.id = some id

/-- What the search comes to after the frames it has passed over. -/
def Verdict (decode : List UInt8 → Option (ServerResponse V)) (id : String) (rest : Seq UInt8)
    (budget passed : Nat) : Except String (ServerResponse V) → Prop
  | .ok response => ∃ frame, frameOf rest = .ok frame ∧ passed + frame.length ≤ budget ∧
      Answer decode id frame response
  | .error reason => frameOf rest = .error reason ∨
      reason = "output_limit" ∧ ∃ frame, frameOf rest = .ok frame ∧ budget < passed + frame.length

/-- The search passes over frames that do not answer, within the budget. -/
def Search (decode : List UInt8 → Option (ServerResponse V)) (id : String) (rest : Seq UInt8)
    (budget : Nat) (r : Except String (ServerResponse V)) : Prop :=
  ∃ frames : List (List UInt8), framesOf frames.length rest = (frames, none) ∧
    (∀ frame ∈ frames, ∀ response, ¬ Answer decode id frame response) ∧
    frames.flatten.length ≤ budget ∧
    Verdict decode id (rest.drop frames.flatten.length) budget frames.flatten.length r

/-- One more frame is passed over. -/
theorem Search.skip {rest : Seq UInt8} {budget : Nat} {frame : List UInt8}
    {r : Except String (ServerResponse V)} (hframe : frameOf rest = .ok frame)
    (hno : ∀ response, ¬ Answer decode id frame response) (hfits : frame.length ≤ budget)
    (h : Search decode id (rest.drop frame.length) (budget - frame.length) r) :
    Search decode id rest budget r := by
  rcases h with ⟨frames, hframes, hnone, hbudget, hverdict⟩
  refine ⟨frame :: frames, ?_, fun f hf => ?_, ?_, ?_⟩
  · rw [List.length_cons, framesOf, hframe]
    dsimp only
    rw [hframes]
  · rcases List.mem_cons.mp hf with rfl | hf
    · exact hno
    · exact hnone f hf
  · rw [List.flatten_cons, List.length_append]
    omega
  · rw [List.flatten_cons, List.length_append, Stream'.Seq.dropn_add]
    cases r with
    | ok response =>
        rcases hverdict with ⟨f, hf, hlen, hanswer⟩
        exact ⟨f, hf, by omega, hanswer⟩
    | error reason =>
        refine hverdict.imp_right ?_
        rintro ⟨hreason, f, hf, hlen⟩
        exact ⟨hreason, f, hf, by omega⟩

/-- Either the search ends at the first frame, or it passes over it. -/
theorem Search.first {rest : Seq UInt8} {budget : Nat} {r : Except String (ServerResponse V)}
    (h : Search decode id rest budget r) : Verdict decode id rest budget 0 r ∨
      ∃ frame, frameOf rest = .ok frame ∧ (∀ response, ¬ Answer decode id frame response) ∧
        frame.length ≤ budget ∧
        Search decode id (rest.drop frame.length) (budget - frame.length) r := by
  rcases h with ⟨frames, hframes, hnone, hbudget, hverdict⟩
  cases frames with
  | nil => exact .inl hverdict
  | cons frame frames =>
      rw [List.length_cons, framesOf] at hframes
      split at hframes
      · cases hframes
      · rename_i first hfirst
        rcases Prod.mk.inj hframes with ⟨hcons, hnext⟩
        rcases List.cons.inj hcons with ⟨rfl, htail⟩
        rw [List.flatten_cons, List.length_append] at hbudget hverdict
        refine .inr ⟨first, hfirst, hnone first List.mem_cons_self, by omega, frames,
          Prod.ext htail hnext, fun f hf => hnone f (List.mem_cons_of_mem _ hf), by omega, ?_⟩
        rw [Stream'.Seq.dropn_add] at hverdict
        cases r with
        | ok response =>
            rcases hverdict with ⟨f, hf, hlen, hanswer⟩
            exact ⟨f, hf, by omega, hanswer⟩
        | error reason =>
            refine hverdict.imp_right ?_
            rintro ⟨hreason, f, hf, hlen⟩
            exact ⟨hreason, f, hf, by omega⟩

/-- A frame has a byte. -/
theorem frameOf_pos {rest : Seq UInt8} {frame : List UInt8} (h : frameOf rest = .ok frame) :
    0 < frame.length := by
  rcases (frameOf_shape h).1 with ⟨body, rfl, _⟩
  exact List.length_pos_of_ne_nil (List.append_ne_nil_of_right_ne_nil _ nofun)

/-- The first frame decides. -/
theorem Verdict.unique {rest : Seq UInt8} {budget : Nat}
    {r r' : Except String (ServerResponse V)} (h : Verdict decode id rest budget 0 r)
    (h' : Verdict decode id rest budget 0 r') : r = r' := by
  cases r with
  | ok response =>
      rcases h with ⟨f, hf, hlen, hdec, _⟩
      cases r' with
      | ok response' =>
          rcases h' with ⟨f', hf', _, hdec', _⟩
          cases hf.symm.trans hf'
          exact congrArg _ (Option.some.inj (hdec.symm.trans hdec'))
      | error reason =>
          rcases h' with hf' | ⟨_, f', hf', hlen'⟩
          · cases hf.symm.trans hf'
          · cases hf.symm.trans hf'
            omega
  | error reason =>
      cases r' with
      | ok response =>
          rcases h' with ⟨f', hf', hlen', _⟩
          rcases h with hf | ⟨_, f, hf, hlen⟩
          · cases hf.symm.trans hf'
          · cases hf.symm.trans hf'
            omega
      | error reason' =>
          rcases h with hf | ⟨rfl, f, hf, _⟩ <;> rcases h' with hf' | ⟨rfl, f', hf', _⟩
          · exact congrArg _ (Except.error.inj (hf.symm.trans hf'))
          · cases hf.symm.trans hf'
          · cases hf.symm.trans hf'
          · rfl

/-- A frame that is passed over decides nothing. -/
theorem Verdict.not_passed {rest : Seq UInt8} {budget : Nat} {frame : List UInt8}
    {r : Except String (ServerResponse V)} (h : Verdict decode id rest budget 0 r)
    (hframe : frameOf rest = .ok frame) (hno : ∀ response, ¬ Answer decode id frame response)
    (hfits : frame.length ≤ budget) : False := by
  cases r with
  | ok response =>
      rcases h with ⟨f, hf, _, hanswer⟩
      cases hframe.symm.trans hf
      exact hno response hanswer
  | error reason =>
      rcases h with hf | ⟨_, f, hf, hlen⟩
      · cases hframe.symm.trans hf
      · cases hframe.symm.trans hf
        omega

/-- The stream alone decides what the search comes to. By induction on the budget. -/
theorem Search.unique : ∀ (budget : Nat) {rest : Seq UInt8}
    {r r' : Except String (ServerResponse V)}, Search decode id rest budget r →
    Search decode id rest budget r' → r = r' := by
  intro budget
  induction budget using Nat.strongRecOn with
  | _ budget ih =>
      intro rest r r' h h'
      rcases h.first with hv | ⟨f, hf, hno, hfits, hnext⟩
      · rcases h'.first with hv' | ⟨f', hf', hno', hfits', _⟩
        · exact hv.unique hv'
        · exact (hv.not_passed hf' hno' hfits').elim
      · rcases h'.first with hv' | ⟨f', hf', _, _, hnext'⟩
        · exact (hv'.not_passed hf hno hfits).elim
        · cases hf.symm.trans hf'
          have hpos := frameOf_pos hf
          exact ih (budget - f.length) (by omega) hnext hnext'

/-- What the search comes to, and how far it reads. -/
structure Searched (decode : List UInt8 → Option (ServerResponse V)) (id : String) (budget : Nat)
    (s : Pipe) (r : Except String (ServerResponse V)) (t : Pipe) : Prop where
  bounded : t.bytes.length ≤ MAX_LINE
  consumed : ∃ n ≤ budget + MAX_LINE, t.rest = s.rest.drop n
  failed : t.failed = false → s.failed = false
  search : t.failed = false → Search decode id s.rest budget r

/-- By induction on the budget left: every frame takes a byte of it. -/
theorem awaitFrame_spec : ∀ (fuel remaining : Nat) (s : Pipe), s.bytes.length ≤ MAX_LINE →
    s.failed = false → remaining < fuel →
    (Process.awaitFrame decode id fuel remaining).run.wp reading Within
      (Searched decode id remaining s) s
  | 0, _, _, _, _, hfuel => by omega
  | fuel + 1, remaining, s, hs, hsf, hfuel => by
      rw [Process.awaitFrame, Prog.wp_run_bind]
      refine Prog.wp_mono _ ?_ _ (line_spec s hs)
      intro r t h
      rcases h.consumed with ⟨n, hn, hdrop⟩
      have hconsumed : ∃ n ≤ remaining + MAX_LINE, t.rest = s.rest.drop n :=
        ⟨n, Nat.le_trans hn (Nat.le_add_left ..), hdrop⟩
      cases r with
      | error reason =>
          refine ⟨h.bounded, hconsumed, h.failed, fun hf => ⟨[], rfl, nofun, Nat.zero_le _, ?_⟩⟩
          exact .inl (h.frame hf).1.symm
      | ok frame =>
          dsimp only
          split
          · rename_i hover
            refine ⟨h.bounded, hconsumed, h.failed, fun hf => ⟨[], rfl, nofun, Nat.zero_le _, ?_⟩⟩
            refine .inr ⟨rfl, frame, (h.frame hf).1.symm, ?_⟩
            rw [List.flatten_nil, List.length_nil, Nat.zero_add]
            exact hover
          · rename_i hfits
            have htf : t.failed = false := (h.kept frame rfl).trans hsf
            rcases h.frame htf with ⟨hframe, hrest⟩
            have hlen := (frameOf_shape hframe.symm).2.1
            have hpos := frameOf_pos hframe.symm
            have hnext := awaitFrame_spec fuel (remaining - frame.length) t h.bounded htf
              (by omega)
            -- A frame that does not answer is passed over.
            have hskip (hno : ∀ response, ¬ Answer decode id frame response) :
                (Process.awaitFrame decode id fuel (remaining - frame.length)).run.wp reading
                  Within (Searched decode id remaining s) t := by
              refine Prog.wp_mono _ ?_ _ hnext
              rintro r u ⟨hbounded, ⟨m, hm, hu⟩, hfailed, hsearch⟩
              refine ⟨hbounded, ⟨frame.length + m, by omega, ?_⟩, fun hf => h.failed (hfailed hf),
                fun hf => ?_⟩
              · rw [hu, hrest frame rfl, Stream'.Seq.dropn_add]
              · refine Search.skip hframe.symm hno (Nat.le_of_not_lt hfits) ?_
                rw [← hrest frame rfl]
                exact hsearch hf
            split
            · rename_i hnone
              exact hskip fun response ⟨hdec, _⟩ => nomatch hdec.symm.trans hnone
            · rename_i response hdecode
              split
              · rename_i hid
                refine ⟨h.bounded, hconsumed, h.failed, fun _ =>
                  ⟨[], rfl, nofun, Nat.zero_le _, frame, hframe.symm, ?_, hdecode, hid⟩⟩
                rw [List.flatten_nil, List.length_nil, Nat.zero_add]
                exact Nat.le_of_not_lt hfits
              · rename_i hid
                refine hskip fun other ⟨hdec, hother⟩ => hid ?_
                cases hdecode.symm.trans hdec
                exact hother

/-- Whatever the worker writes after a request, and however it is cut into chunks, the
    request returns what the stream decides: the first frame that answers it, if every
    frame up to there fits its limit and all of them fit the budget, and otherwise the
    limit or the end of the stream that is met first. It reads at most the budget and
    one frame, and it ends. -/
theorem awaitFrame_search (decode : List UInt8 → Option (ServerResponse V)) (id : String)
    (rest : Seq UInt8) :
    (∀ q t, Prog.Reaches reading (Process.awaitResponse decode id).run (.of rest) q t →
      t.bytes.length ≤ MAX_LINE ∧
      ((∃ r, q = .done r) ∨ ∃ c q' t', q.advance reading t c = some (q', t'))) ∧
    ∀ r t, Prog.Reaches reading (Process.awaitResponse decode id).run (.of rest) (.done r) t →
      (∃ n ≤ MAX_OPERATION_BYTES + MAX_LINE, t.rest = rest.drop n) ∧
      (t.failed = false → ∀ r', Search decode id rest MAX_OPERATION_BYTES r' ↔ r' = r) := by
  have hspec : (Process.awaitResponse decode id).run.wp reading Within
      (Searched decode id MAX_OPERATION_BYTES (.of rest)) (.of rest) :=
    awaitFrame_spec _ _ (.of rest) (Nat.zero_le _) rfl (Nat.lt_succ_self _)
  refine ⟨fun q t hr => ?_, fun r t hr => ?_⟩
  · have hwp := Prog.wp_reaches hspec hr
    refine ⟨Prog.wp_point (C := fun s => s.bytes.length ≤ MAX_LINE) ?_ ?_ hwp, Within.live hwp⟩
    · exact fun _ _ _ h => h.1
    · exact fun _ _ h => h.bounded
  · have hdone : Searched decode id MAX_OPERATION_BYTES (.of rest) r t :=
      Prog.wp_reaches hspec hr
    refine ⟨hdone.consumed, fun hf r' => ⟨fun h => ?_, fun h => h ▸ hdone.search hf⟩⟩
    exact Search.unique _ h (hdone.search hf)

end Search

end TinyRuntime
