import TinyRuntime.PyServer.Server
import TinyRuntime.Pool.Deadline

/-!
# The Timeout of a Request

One `request_once` in time, to a worker that is running already. As in the pool, what the
worker does is a schedule, and nothing else takes time.

Writing the request waits for the worker without a bound. After that every line has the
whole timeout to arrive, so that each line that is skipped starts it anew. A request
therefore keeps its timeout only if it is answered in time, or if it is accepted at once
and no line arrives before the timeout that was not there at the start.

## Main definitions

* `Schedule`, `Schedule.timed`: What a worker does over time.
* `Schedule.Returns`: A result by a point in time.
* `Schedule.Answered`, `Schedule.Silent`: A line ends the wait; none arrives during it.

## Theorems

* `eval_writeAll`: How long writing takes.
* `wait_answered`, `wait_silent`, `wait_ended`: How long waiting takes.
* `request_in_time`: When a request keeps its timeout.
-/

namespace TinyRuntime.PyServer

/-- What a worker does over time. -/
structure Schedule where
  /-- When each byte of the request is accepted, if ever. -/
  accept : Nat → Option Nat
  /-- When each line arrives, if ever, or the end of the lines, or an error. -/
  line : Nat → Option (Nat × Except String (Option String))

namespace Schedule

variable (S : Schedule)

/-- Where no line ever arrives. -/
theorem unread (t : Nat) : ∃ n, ∀ (i : Nat) (r : Nat × Except String (Option (List UInt8))),
    none = some r → r.1 ≤ t → i < n :=
  ⟨0, fun _ _ h => by cases h⟩

/-- The half of it that a request is written to. -/
def writes : TinyRuntime.Schedule where
  accept := S.accept
  line _ := none
  finite := unread

/-- The next line, if it arrives within a budget. A line that is there is read at once. -/
def nextLine (budget : Nat) (s : Clocked) : PipeRead × Clocked :=
  match (S.line s.read).filter (·.1 ≤ s.now + budget) with
  | some r => (some r.2, s.reads r.1)
  | none => (none, { s with now := s.now + budget })

variable (launch : ServerLaunch) (running : Inner)

/-- What an effect of `request_once` is answered, and when. -/
def respond {β : Type} (op : ServerOp β) (s : Clocked) : Option (β × Clocked) :=
  match op with
  | .lockInner _ => some ((), s)
  | .unlockInner => some ((), s)
  | .inner => some (some running, s)
  | .nextId => some (running.nextId, s)
  | .launch _ => some (launch, s)
  | .write buffer =>
      (S.accept s.sent).map fun t =>
        let now := max s.now t
        let n := S.writes.room now s.sent buffer.length
        (.ok n, { s with now := now, sent := s.sent + n })
  | .flush => some (.ok (), s)
  | .nextLine budget => some (S.nextLine budget s)
  | _ => none

/-- A running worker on a schedule, with its server's lock free. -/
def timed : Handler ServerOp Clocked Unit where
  respond op s _ := S.respond launch running op s

end Schedule

variable {V T : Type}

/-- What a call sends. -/
structure Sent (V T : Type) where
  server : Nat
  method : String
  params : V
  decode : V → Except String T

/-- The frame of a call, unless it cannot be encoded. -/
def Sent.frame (call : Sent V T) (codec : ServerCodec V) (running : Inner) :
    Except String (List UInt8) :=
  (codec.encode { id := toString running.nextId, method := call.method, params := call.params }).map
    (· ++ [NEWLINE])

/-- `request_once`, called at `start`, has a result by `t`. -/
def Schedule.Returns (S : Schedule) (codec : ServerCodec V) (launch : ServerLaunch)
    (running : Inner) (call : Sent V T) (start t : Nat) : Prop :=
  ∃ lines r s, Prog.Reaches (S.timed launch running)
    (requestOnce codec call.server call.method call.params call.decode lines)
    { now := start, sent := 0, read := 0 } (.done r) s ∧ s.now ≤ t

/-- Whether a line ends the wait for the reply to a request. -/
def ServerCodec.ends (codec : ServerCodec V) (id : String) : Except String (Option String) → Bool
  | .error _ | .ok none => true
  | .ok (some line) =>
      match codec.decodeResponse line with
      | none => false
      | some response => response.id = some id

/-- From the `i`th on, lines arrive by `t` up to one that ends the wait. -/
inductive Schedule.Answered (S : Schedule) (codec : ServerCodec V) (id : String) (t : Nat) :
    Nat → Prop
  | ends {i : Nat} (r : Nat × Except String (Option String)) (line : S.line i = some r)
      (arrives : r.1 ≤ t) (ends : codec.ends id r.2 = true) : Answered S codec id t i
  | skips {i : Nat} (r : Nat × Except String (Option String)) (line : S.line i = some r)
      (arrives : r.1 ≤ t) (rest : Answered S codec id t (i + 1)) : Answered S codec id t i

/-- From the `i`th on, lines are there at the start, and the first that is not does not
    arrive by `t`. -/
inductive Schedule.Silent (S : Schedule) (start t : Nat) : Nat → Prop
  | late {i : Nat} (late : ∀ r, S.line i = some r → t < r.1) : Silent S start t i
  | there {i : Nat} (r : Nat × Except String (Option String)) (line : S.line i = some r)
      (there : r.1 ≤ start) (rest : Silent S start t (i + 1)) : Silent S start t i

namespace Schedule

variable {S : Schedule} {launch : ServerLaunch} {running : Inner}

/-! ## Writing -/

/-- Writing takes until the last byte is accepted. -/
theorem eval_writeAll : ∀ fuel (buffer : List UInt8) (s : Clocked), buffer.length ≤ fuel →
    (writeAll fuel buffer).run.eval (S.timed launch running) s =
      (S.writes.written s.now s.sent buffer.length).map fun t =>
        (.ok (), { s with now := t, sent := s.sent + buffer.length }) := by
  intro fuel
  induction fuel with
  | zero =>
      intro buffer s hfuel
      rw [List.length_eq_zero_iff.mp (Nat.le_zero.mp hfuel)]
      rfl
  | succ fuel ih =>
      intro buffer s hfuel
      rw [writeAll]
      split
      · rename_i hnil
        rw [hnil]
        rfl
      · rename_i hcons
        obtain ⟨n, hn⟩ : ∃ n, buffer.length = n + 1 :=
          Nat.exists_eq_succ_of_ne_zero fun h => hcons (List.length_eq_zero_iff.mp h)
        rw [ExceptT.run_bind, Prog.eval_bind]
        change ((S.respond launch running (.write buffer) s).bind _).bind _ = _
        rw [respond]
        cases haccept : S.accept s.sent with
        | none =>
            have hwrites : S.writes.accept s.sent = none := haccept
            rw [hn, TinyRuntime.Schedule.written, hwrites]
            rfl
        | some t =>
            have hwrites : S.writes.accept s.sent = some t := haccept
            have hroom := TinyRuntime.Schedule.room_pos (n := n) hwrites (Nat.le_max_right s.now t)
            rw [← hn] at hroom
            have hle := TinyRuntime.Schedule.room_le (S := S.writes) (max s.now t) buffer.length
              s.sent
            have hfirst : S.writes.written s.now s.sent buffer.length =
                S.writes.written (max s.now t) s.sent buffer.length := by
              rw [hn, TinyRuntime.Schedule.written, TinyRuntime.Schedule.written, hwrites,
                Option.bind_some, Option.bind_some, max_eq_left (Nat.le_max_right s.now t)]
            rw [hfirst, TinyRuntime.Schedule.written_room]
            simp only [Option.map_some, Option.bind_some, Prog.eval]
            generalize S.writes.room (max s.now t) s.sent buffer.length = k at hroom hle ⊢
            rw [if_neg (Nat.ne_of_gt hroom)]
            have hdrop : (buffer.drop k).length = buffer.length - k := List.length_drop
            refine (ih (buffer.drop k) _ (by rw [hdrop]; omega)).trans ?_
            rw [hdrop, Nat.add_assoc, Nat.add_sub_cancel' hle]

/-! ## Waiting -/

variable {codec : ServerCodec V} {id method : String} {decode : V → Except String T}
  {budget : Nat} {s : Clocked}

/-- No line in time. -/
theorem eval_late {fuel : Nat} (h : ∀ r, S.line s.read = some r → s.now + budget < r.1) :
    (awaitResponse codec id method decode budget (fuel + 1)).eval (S.timed launch running) s =
      some (.error .requestTimeout, { s with now := s.now + budget }) := by
  have hnone : (S.line s.read).filter (·.1 ≤ s.now + budget) = none :=
    Option.filter_eq_none_iff.mpr fun r hr hle =>
      Nat.not_le.mpr (h r hr) (of_decide_eq_true hle)
  have hnext : S.respond launch running (.nextLine budget) s =
      some (none, { s with now := s.now + budget }) := by
    rw [respond, nextLine, hnone]
  rw [awaitResponse, Prog.eval_bind]
  change ((S.respond launch running (.nextLine budget) s).bind _).bind _ = _
  rw [hnext]
  rfl

theorem respond_line {r : Nat × Except String (Option String)} (hline : S.line s.read = some r)
    (hin : r.1 ≤ s.now + budget) :
    S.respond launch running (.nextLine budget) s = some (some r.2, s.reads r.1) := by
  rw [respond, nextLine, hline, Option.filter_some, if_pos (decide_eq_true hin)]

/-- A line that ends the wait. -/
theorem eval_ends (method : String) (decode : V → Except String T) (fuel : Nat)
    {r : Nat × Except String (Option String)} (hline : S.line s.read = some r)
    (hin : r.1 ≤ s.now + budget) (hends : codec.ends id r.2 = true) :
    ∃ a, (awaitResponse codec id method decode budget (fuel + 1)).eval (S.timed launch running) s =
      some (a, s.reads r.1) := by
  rw [awaitResponse, Prog.eval_bind]
  change ∃ a, ((S.respond launch running (.nextLine budget) s).bind _).bind _ = _
  rw [respond_line hline hin]
  rcases r with ⟨t, _ | _ | line⟩
  · exact ⟨_, rfl⟩
  · exact ⟨_, rfl⟩
  · rw [ServerCodec.ends] at hends
    simp only [Option.bind_some, Prog.eval]
    split at hends
    · cases hends
    · rename_i response hresponse
      have hid : ¬ response.id ≠ some id := not_not_intro (of_decide_eq_true hends)
      simp only [hresponse, if_neg hid]
      -- Whatever the reply holds, it is a result.
      split
      · exact ⟨_, rfl⟩
      · cases decode (response.result.getD codec.null) with
        | error source => exact ⟨_, rfl⟩
        | ok value => exact ⟨_, rfl⟩

/-- A line that is skipped. -/
theorem eval_skips {fuel : Nat} {r : Nat × Except String (Option String)}
    (hline : S.line s.read = some r) (hin : r.1 ≤ s.now + budget)
    (hskips : codec.ends id r.2 = false) :
    (awaitResponse codec id method decode budget (fuel + 1)).eval (S.timed launch running) s =
      (awaitResponse codec id method decode budget fuel).eval (S.timed launch running)
        (s.reads r.1) := by
  rw [awaitResponse, Prog.eval_bind]
  change ((S.respond launch running (.nextLine budget) s).bind _).bind _ = _
  rw [respond_line hline hin]
  rcases r with ⟨t, _ | _ | line⟩
  · cases hskips
  · cases hskips
  · rw [ServerCodec.ends] at hskips
    simp only [Option.bind_some, Prog.eval]
    split at hskips
    · rename_i hnone
      simp only [hnone]
    · rename_i response hresponse
      simp only [hresponse, if_pos (of_decide_eq_false hskips)]

/-- A wait ends with its answer. -/
theorem wait_answered (method : String) (decode : V → Except String T) {t i : Nat}
    (h : S.Answered codec id t i) : ∀ s : Clocked, s.read = i → s.now ≤ t → t ≤ s.now + budget →
      ∃ fuel a u, (awaitResponse codec id method decode budget fuel).eval
        (S.timed launch running) s = some (a, u) ∧ u.now ≤ t := by
  induction h with
  | ends r hline harrives hends =>
      rintro s rfl hnow hlate
      rcases eval_ends method decode 0 hline (harrives.trans hlate) hends with ⟨a, ha⟩
      exact ⟨1, a, _, ha, Nat.max_le.mpr ⟨hnow, harrives⟩⟩
  | skips r hline harrives _ ih =>
      rintro s rfl hnow hlate
      have hnext : (s.reads r.1).now ≤ t := Nat.max_le.mpr ⟨hnow, harrives⟩
      have hlate' : t ≤ (s.reads r.1).now + budget :=
        hlate.trans (Nat.add_le_add_right (Nat.le_max_left _ _) _)
      cases hends : codec.ends id r.2 with
      | true =>
          rcases eval_ends method decode 0 hline (harrives.trans hlate) hends with ⟨a, ha⟩
          exact ⟨1, a, _, ha, hnext⟩
      | false =>
          rcases ih (s.reads r.1) rfl hnext hlate' with ⟨fuel, a, u, h, hu⟩
          exact ⟨fuel + 1, a, u, (eval_skips hline (harrives.trans hlate) hends).trans h, hu⟩

/-- A wait in which nothing arrives ends with its timeout. -/
theorem wait_silent (codec : ServerCodec V) (id method : String) (decode : V → Except String T)
    {start i : Nat} (h : S.Silent start (start + budget) i) :
    ∀ s : Clocked, s.read = i → s.now = start →
      ∃ fuel a u, (awaitResponse codec id method decode budget fuel).eval
        (S.timed launch running) s = some (a, u) ∧ u.now ≤ start + budget := by
  induction h with
  | late hlate =>
      rintro s rfl rfl
      exact ⟨1, _, _, eval_late hlate, Nat.le_refl _⟩
  | there r hline hthere _ ih =>
      rintro s rfl rfl
      have hin : r.1 ≤ s.now + budget := hthere.trans (Nat.le_add_right _ _)
      have hnow : (s.reads r.1).now = s.now := Nat.max_eq_left hthere
      cases hends : codec.ends id r.2 with
      | true =>
          rcases eval_ends method decode 0 hline hin hends with ⟨a, ha⟩
          exact ⟨1, a, _, ha, hnow.le.trans (Nat.le_add_right _ _)⟩
      | false =>
          rcases ih (s.reads r.1) rfl hnow with ⟨fuel, a, u, h, hu⟩
          exact ⟨fuel + 1, a, u, (eval_skips hline hin hends).trans h, hu⟩

/-- A wait that has ended in time was answered, or nothing arrived. -/
theorem wait_ended {start : Nat} : ∀ fuel (s : Clocked) {a : Except Error T} {u : Clocked},
    start ≤ s.now →
    (awaitResponse codec id method decode budget fuel).eval (S.timed launch running) s =
        some (a, u) →
      s.now ≤ u.now ∧ (u.now ≤ start + budget →
        s.now = start ∧ S.Silent start (start + budget) s.read ∨
          S.Answered codec id (start + budget) s.read) := by
  intro fuel
  induction fuel with
  | zero =>
      intro s a u _ h
      cases h
  | succ fuel ih =>
      intro s a u hstart h
      by_cases hin : ∃ r, S.line s.read = some r ∧ r.1 ≤ s.now + budget
      · rcases hin with ⟨r, hline, hin⟩
        cases hends : codec.ends id r.2 with
        | true =>
            rcases eval_ends method decode fuel hline hin hends with ⟨a', ha⟩
            cases h.symm.trans ha
            exact ⟨Nat.le_max_left _ _, fun hu =>
              .inr (.ends r hline ((Nat.le_max_right _ _).trans hu) hends)⟩
        | false =>
            rw [eval_skips hline hin hends] at h
            have hrest := ih _ (hstart.trans (Nat.le_max_left _ _)) h
            have harrives : r.1 ≤ u.now := (Nat.le_max_right _ _).trans hrest.1
            refine ⟨(Nat.le_max_left _ _).trans hrest.1, fun hu => ?_⟩
            rcases hrest.2 hu with ⟨hnow, hsilent⟩ | hanswered
            · -- The timer was not started later than at the start.
              have hmax : max s.now r.1 = start := hnow
              exact .inl ⟨by omega, .there r hline (by omega) hsilent⟩
            · exact .inr (.skips r hline (harrives.trans hu) hanswered)
      · have hlate : ∀ r, S.line s.read = some r → s.now + budget < r.1 :=
          fun r hline => Nat.lt_of_not_le fun hle => hin ⟨r, hline, hle⟩
        rw [eval_late hlate] at h
        cases h
        refine ⟨Nat.le_add_right _ _, fun hu => .inl ?_⟩
        have hu' : s.now + budget ≤ start + budget := hu
        have hnow : s.now = start := by omega
        exact ⟨hnow, .late fun r hline => hnow ▸ hlate r hline⟩

/-! ## Requests -/

variable {call : Sent V T} {start : Nat} {frame : List UInt8}

/-- The lock of the server is free. -/
theorem eval_locked {α : Type} (server : Nat) (body : Prog ServerOp α) (s : Clocked) :
    (locked server body).eval (S.timed launch running) s =
      body.eval (S.timed launch running) s := by
  have hlocked : (locked server body).eval (S.timed launch running) s =
      (body >>= fun result => (Prog.op .unlockInner >>= fun _ => pure result)).eval
        (S.timed launch running) s := rfl
  rw [hlocked, Prog.eval_bind]
  cases body.eval (S.timed launch running) s with
  | none => rfl
  | some r => rfl

/-- The frame is written, and the reply waited for with the whole timeout. -/
theorem eval_exchange {lines : Nat} {s : Clocked} (hframe : call.frame codec running = .ok frame) :
    (exchange codec call.server call.method call.params call.decode lines).eval
        (S.timed launch running) s =
      (S.writes.written s.now s.sent frame.length).bind fun t =>
        (awaitResponse codec (toString running.nextId) call.method call.decode
          launch.requestTimeout lines).eval (S.timed launch running)
          { s with now := t, sent := s.sent + frame.length } := by
  rw [Sent.frame] at hframe
  rcases call with ⟨server, method, params, decode⟩
  cases hencode : codec.encode
      { id := toString running.nextId, method := method, params := params } with
  | error source =>
      rw [hencode] at hframe
      cases hframe
  | ok text =>
      rw [hencode] at hframe
      obtain rfl : text ++ [NEWLINE] = frame := Except.ok.inj hframe
      have hwrite := @eval_writeAll S launch running (text ++ [NEWLINE]).length
        (text ++ [NEWLINE]) s (Nat.le_refl _)
      rw [exchange, Prog.eval_bind]
      change ((some (running.nextId, s)).bind _) = _
      rw [Option.bind_some]
      simp only [hencode]
      rw [Prog.eval_bind, hwrite, Option.bind_map]
      rfl

/-- With a worker running, a request is its exchange. -/
theorem eval_requestOnce (lines : Nat) (s : Clocked) :
    (requestOnce codec call.server call.method call.params call.decode lines).eval
        (S.timed launch running) s =
      (exchange codec call.server call.method call.params call.decode lines).eval
        (S.timed launch running) s := by
  rw [requestOnce, eval_locked]
  rfl

theorem returns_of_error {source : String} (hframe : call.frame codec running = .error source)
    (t : Nat) : S.Returns codec launch running call start (start + t) := by
  rcases call with ⟨server, method, params, decode⟩
  rw [Sent.frame] at hframe
  cases hencode : codec.encode
      { id := toString running.nextId, method := method, params := params } with
  | ok text =>
      rw [hencode] at hframe
      cases hframe
  | error source =>
      refine ⟨0, .error (.encode source), { now := start, sent := 0, read := 0 },
        Prog.eval_iff_reaches.mp ?_, Nat.le_add_right _ _⟩
      refine (@eval_requestOnce V T S launch running codec ⟨server, method, params, decode⟩ 0
        _).trans ?_
      rw [exchange, Prog.eval_bind]
      change ((some (running.nextId, _)).bind _) = _
      rw [Option.bind_some]
      simp only [hencode]
      rfl

/-- Once the request is written, what is left is to wait. -/
theorem returns_of_wait (hframe : call.frame codec running = .ok frame) {lines t r : Nat}
    {u : Clocked} {a : Except Error T} (ht : S.writes.written start 0 frame.length = some t)
    (hwait : (awaitResponse codec (toString running.nextId) call.method call.decode
      launch.requestTimeout lines).eval (S.timed launch running)
      { now := t, sent := 0 + frame.length, read := 0 } = some (a, u))
    (hu : u.now ≤ r) : S.Returns codec launch running call start r := by
  refine ⟨lines, a, u, Prog.eval_iff_reaches.mp ?_, hu⟩
  rw [eval_requestOnce, eval_exchange hframe, ht]
  exact hwait

/-- A result in time takes one of two things. -/
theorem accepts_of_returns (hframe : call.frame codec running = .ok frame)
    (h : S.Returns codec launch running call start (start + launch.requestTimeout)) :
    S.writes.Accepts frame.length start ∧ S.Silent start (start + launch.requestTimeout) 0 ∨
      S.writes.Accepts frame.length (start + launch.requestTimeout) ∧
        S.Answered codec (toString running.nextId) (start + launch.requestTimeout) 0 := by
  rcases h with ⟨lines, a, u, hrun, hu⟩
  have heval := Prog.eval_iff_reaches.mpr hrun
  rw [eval_requestOnce, eval_exchange hframe] at heval
  rcases Option.bind_eq_some_iff.mp heval with ⟨t, ht, hrest⟩
  have hended := wait_ended lines _ (TinyRuntime.Schedule.written_ge _ ht) hrest
  rcases hended.2 hu with ⟨hnow, hsilent⟩ | hanswered
  · exact .inl ⟨(TinyRuntime.Schedule.written_zero.mp ⟨t, hnow.le, ht⟩).2, hsilent⟩
  · exact .inr ⟨(TinyRuntime.Schedule.written_zero.mp ⟨t, hended.1.trans hu, ht⟩).2, hanswered⟩

end Schedule

/-- Within its timeout a request to a running worker has a result exactly if it cannot be
    encoded, or is accepted at once and no line comes that was not there, or is accepted in
    time and answered in time. -/
theorem request_in_time (S : Schedule) (codec : ServerCodec V) (launch : ServerLaunch)
    (running : Inner) (call : Sent V T) (start : Nat) :
    S.Returns codec launch running call start (start + launch.requestTimeout) ↔
      ∀ frame, call.frame codec running = .ok frame →
        S.writes.Accepts frame.length start ∧
            S.Silent start (start + launch.requestTimeout) 0 ∨
          S.writes.Accepts frame.length (start + launch.requestTimeout) ∧
            S.Answered codec (toString running.nextId) (start + launch.requestTimeout) 0 := by
  refine ⟨fun h frame hframe => Schedule.accepts_of_returns hframe h, fun h => ?_⟩
  cases hframe : call.frame codec running with
  | error source => exact Schedule.returns_of_error hframe _
  | ok frame =>
      rcases h frame hframe with ⟨haccepts, hsilent⟩ | ⟨haccepts, hanswered⟩
      · rcases TinyRuntime.Schedule.written_zero.mpr ⟨Nat.le_refl start, haccepts⟩ with
          ⟨t, hle, ht⟩
        have hnow : t = start := hle.antisymm (TinyRuntime.Schedule.written_ge _ ht)
        rcases Schedule.wait_silent codec (toString running.nextId) call.method call.decode hsilent
          { now := t, sent := 0 + frame.length, read := 0 } rfl hnow with
          ⟨lines, a, u, hwait, hu⟩
        exact Schedule.returns_of_wait hframe ht hwait hu
      · rcases TinyRuntime.Schedule.written_zero.mpr ⟨Nat.le_add_right start _, haccepts⟩ with
          ⟨t, hle, ht⟩
        have hstart := TinyRuntime.Schedule.written_ge _ ht
        rcases Schedule.wait_answered call.method call.decode hanswered
          { now := t, sent := 0 + frame.length, read := 0 } rfl hle
          (Nat.add_le_add_right hstart _) with ⟨lines, a, u, hwait, hu⟩
        exact Schedule.returns_of_wait hframe ht hwait hu

/-- A worker that takes everything at once and writes a line to no one, again and again. -/
def Schedule.chattering : Schedule where
  accept _ := some 0
  line i := some (i + 1, .ok (some ""))

/-- A codec that decodes nothing. -/
def blankCodec : ServerCodec Unit where
  encode _ := .ok []
  decodeResponse _ := none
  decodeReady _ := .error ""
  null := ()

/-- A worker that chatters holds its request past its timeout. -/
theorem chattering_outlasts :
    ¬ ∀ (S : Schedule) (codec : ServerCodec Unit) (launch : ServerLaunch) (running : Inner)
      (call : Sent Unit Unit) (start : Nat),
      S.Returns codec launch running call start (start + launch.requestTimeout) := by
  intro h
  have hreturns := h .chattering blankCodec
    { pythonBin := "", scriptPath := "", backends := [], env := [], handshakeTimeout := 0
      requestTimeout := 2, spawner := none }
    { child := 0, nextId := 0, readyBackends := [] }
    { server := 0, method := "", params := (), decode := .ok } 0
  rcases Schedule.accepts_of_returns rfl hreturns with ⟨-, hsilent⟩ | ⟨-, hanswered⟩
  · cases hsilent with
    | late hlate => exact absurd (hlate _ rfl) (by decide)
    | there r hline hthere _ =>
        cases hline
        exact absurd hthere (by decide)
  · have hnever : ∀ i, ¬ Schedule.chattering.Answered blankCodec "0" 2 i := by
      intro i h
      induction h with
      | ends r hline _ hends =>
          cases hline
          cases hends
      | skips r hline _ _ ih => exact ih
    exact hnever 0 hanswered

end TinyRuntime.PyServer
