import TinyRuntime.Pool.Worker

/-!
# The Hard Deadline

One `submit` in time. What a worker does is a schedule: when it accepts each byte of
the request, and when each line it writes arrives. Nothing else of `submit` takes
time, so its run is determined by the schedule.

The deadline counts from the moment the request is written, and writing it waits for
the worker without a bound. A worker that accepts the whole request at once is
abandoned in time. One that lets `submit` wait for room is abandoned later by as much
as it took its time, and one that never makes room is never abandoned.

## Main definitions

* `Schedule`, `Clocked`, `Schedule.timed`: What a worker does over time.
* `Schedule.Returns`: A result by a point in time.
* `Schedule.Accepts`, `Schedule.Answered`: The whole request is accepted, and a line
  ends the wait.

## Theorems

* `eval_writeAll`: How long writing takes.
* `wait_ends`, `wait_answered`, `wait_ended`: How long waiting takes.
* `submit_in_time`: When a submission keeps its deadline.
-/

namespace TinyRuntime

open Prog (act attempt)

/-- What a worker does over time. -/
structure Schedule where
  /-- When each byte of the request is accepted, if ever. -/
  accept : Nat → Option Nat
  /-- When each line arrives, if ever, or the end of the lines, or an error. -/
  line : Nat → Option (Nat × Except String (Option (List UInt8)))
  /-- Only so many lines arrive up to a point in time. -/
  finite : ∀ t, ∃ n, ∀ i r, line i = some r → r.1 ≤ t → i < n

/-- The time, and how many bytes and lines have gone each way. -/
structure Clocked where
  now : Nat
  sent : Nat
  read : Nat

/-- The next line is read once it has arrived. -/
def Clocked.reads (s : Clocked) (t : Nat) : Clocked :=
  { s with now := max s.now t, read := s.read + 1 }

namespace Schedule

variable (S : Schedule)

/-- How many of the next bytes are accepted by now. -/
def room (now : Nat) : Nat → Nat → Nat
  | _, 0 => 0
  | i, n + 1 =>
      match S.accept i with
      | none => 0
      | some t => if t ≤ now then room now (i + 1) n + 1 else 0

/-- The next line, no later than a deadline. A line that is there is read even after
    it. -/
def nextLine (deadline : Option Nat) (s : Clocked) : Option (LineRead × Clocked) :=
  match deadline with
  | none => (S.line s.read).map fun r => (some r.2, s.reads r.1)
  | some deadline =>
      match (S.line s.read).filter (·.1 ≤ max s.now deadline) with
      | some r => some (some r.2, s.reads r.1)
      | none => some (none, { s with now := max s.now deadline })

/-- What an effect of `submit` is answered, and when. -/
def respond {β : Type} (op : PoolOp β) (s : Clocked) : Option (β × Clocked) :=
  match op with
  | .now => some (s.now, s)
  | .write _ buffer =>
      (S.accept s.sent).map fun t =>
        let now := max s.now t
        let n := S.room now s.sent buffer.length
        (.ok n, { s with now := now, sent := s.sent + n })
  | .flush _ => some (.ok (), s)
  | .nextLine _ deadline => S.nextLine deadline s
  | _ => none

/-- A worker on a schedule. -/
def timed : Handler PoolOp Clocked Unit where
  respond op s _ := S.respond op s

/-- `submit`, called at `start`, has a result by `t`. -/
def Returns (json : Json) (w : Worker) (request : JobRequest) (budget : Option Nat)
    (start t : Nat) : Prop :=
  ∃ lines r s, Prog.Reaches S.timed (Worker.submit json w request budget lines)
    { now := start, sent := 0, read := 0 } (.done r) s ∧ s.now ≤ t

/-- The worker accepts the first `n` bytes by `t`. -/
def Accepts (n t : Nat) : Prop :=
  ∀ i < n, ∃ t' ≤ t, S.accept i = some t'

end Schedule

/-- Whether a line ends the wait for the reply to a request. -/
def Json.ends (json : Json) (id : String) : Except String (Option (List UInt8)) → Bool
  | .error _ | .ok none => true
  | .ok (some line) =>
      match json.decodeResponse line with
      | none => false
      | some response => response.id = some id

/-- From the `i`th on, lines arrive by `t` up to one that ends the wait. -/
inductive Schedule.Answered (S : Schedule) (json : Json) (id : String) (t : Nat) : Nat → Prop
  | ends {i : Nat} (r : Nat × Except String (Option (List UInt8))) (line : S.line i = some r)
      (arrives : r.1 ≤ t) (ends : json.ends id r.2 = true) : Answered S json id t i
  | skips {i : Nat} (r : Nat × Except String (Option (List UInt8))) (line : S.line i = some r)
      (arrives : r.1 ≤ t) (rest : Answered S json id t (i + 1)) : Answered S json id t i

/-! ## Writing -/

namespace Schedule

variable {S : Schedule}

/-- When the next `n` bytes from the `i`th on have been accepted. -/
def written (S : Schedule) : Nat → Nat → Nat → Option Nat
  | now, _, 0 => some now
  | now, i, n + 1 => (S.accept i).bind fun t => written S (max now t) (i + 1) n

/-- What there is room for takes no time. -/
theorem written_room (now : Nat) : ∀ n i,
    S.written now i n = S.written now (i + S.room now i n) (n - S.room now i n) := by
  intro n
  induction n with
  | zero => exact fun i => rfl
  | succ n ih =>
      intro i
      rw [room]
      split
      · rfl
      · rename_i t ht
        split
        · rename_i hle
          rw [written, ht, Option.bind_some, max_eq_left hle, ih, Nat.add_right_comm,
            Nat.add_sub_add_right, Nat.add_assoc]
        · rfl

theorem room_pos {now t i n : Nat} (h : S.accept i = some t) (hle : t ≤ now) :
    0 < S.room now i (n + 1) := by
  rw [room, h]
  simp only [hle, if_true]
  exact Nat.succ_pos _

theorem room_le (now : Nat) : ∀ n i, S.room now i n ≤ n := by
  intro n
  induction n with
  | zero => exact fun i => Nat.le_refl 0
  | succ n ih =>
      intro i
      rw [room]
      split
      · exact Nat.zero_le _
      · split
        · exact Nat.succ_le_succ (ih _)
        · exact Nat.zero_le _

theorem written_iff {T : Nat} : ∀ n now i,
    (∃ t ≤ T, S.written now i n = some t) ↔
      now ≤ T ∧ ∀ k < n, ∃ t ≤ T, S.accept (i + k) = some t := by
  intro n
  induction n with
  | zero =>
      intro now i
      constructor
      · rintro ⟨t, ht, heq⟩
        cases heq
        exact ⟨ht, fun k hk => absurd hk (Nat.not_lt_zero k)⟩
      · exact fun h => ⟨now, h.1, rfl⟩
  | succ n ih =>
      intro now i
      rw [written]
      cases haccept : S.accept i with
      | none =>
          constructor
          · rintro ⟨t, _, heq⟩
            cases heq
          · rintro ⟨_, h⟩
            rcases h 0 (Nat.succ_pos n) with ⟨t, _, ht⟩
            cases haccept.symm.trans ht
      | some u =>
          rw [Option.bind_some, ih]
          constructor
          · rintro ⟨hmax, h⟩
            refine ⟨(Nat.le_max_left _ _).trans hmax, fun k hk => ?_⟩
            cases k with
            | zero => exact ⟨u, (Nat.le_max_right _ _).trans hmax, haccept⟩
            | succ k =>
                rw [Nat.add_comm k, ← Nat.add_assoc]
                exact h k (Nat.lt_of_succ_lt_succ hk)
          · rintro ⟨hnow, h⟩
            refine ⟨Nat.max_le.mpr ⟨hnow, ?_⟩, fun k hk => ?_⟩
            · rcases h 0 (Nat.succ_pos n) with ⟨t, hle, ht⟩
              cases haccept.symm.trans ht
              exact hle
            · rw [Nat.add_assoc, Nat.add_comm 1]
              exact h (k + 1) (Nat.succ_lt_succ hk)

theorem written_ge : ∀ n {now i t : Nat}, S.written now i n = some t → now ≤ t := by
  intro n
  induction n with
  | zero =>
      intro now i t h
      exact Nat.le_of_eq (Option.some.inj h)
  | succ n ih =>
      intro now i t h
      rcases Option.bind_eq_some_iff.mp h with ⟨u, _, hrest⟩
      exact (Nat.le_max_left _ _).trans (ih hrest)

/-- Writing takes until the last byte is accepted. -/
theorem eval_writeAll (worker : Nat) : ∀ fuel (buffer : List UInt8) (s : Clocked),
    buffer.length ≤ fuel →
      (Worker.writeAll worker fuel buffer).run.eval S.timed s =
        (S.written s.now s.sent buffer.length).map fun t =>
          (.ok (), { s with now := t, sent := s.sent + buffer.length }) := by
  intro fuel
  induction fuel with
  | zero =>
      intro buffer s hfuel
      rw [List.length_eq_zero_iff.mp (Nat.le_zero.mp hfuel)]
      rfl
  | succ fuel ih =>
      intro buffer s hfuel
      rw [Worker.writeAll]
      split
      · rename_i hnil
        rw [hnil]
        rfl
      · rename_i hcons
        obtain ⟨n, hn⟩ : ∃ n, buffer.length = n + 1 :=
          Nat.exists_eq_succ_of_ne_zero fun h => hcons (List.length_eq_zero_iff.mp h)
        rw [ExceptT.run_bind, Prog.eval_bind]
        change ((S.respond (.write worker buffer) s).bind _).bind _ = _
        rw [respond]
        cases haccept : S.accept s.sent with
        | none =>
            rw [hn, written, haccept]
            rfl
        | some t =>
            have hroom := room_pos (n := n) haccept (Nat.le_max_right s.now t)
            rw [← hn] at hroom
            have hle := room_le (S := S) (max s.now t) buffer.length s.sent
            have hfirst : S.written s.now s.sent buffer.length =
                S.written (max s.now t) s.sent buffer.length := by
              rw [hn, written, written, haccept, Option.bind_some, Option.bind_some,
                max_eq_left (Nat.le_max_right s.now t)]
            rw [hfirst, written_room]
            simp only [Option.map_some, Option.bind_some, Prog.eval]
            generalize S.room (max s.now t) s.sent buffer.length = k at hroom hle ⊢
            rw [if_neg (Nat.ne_of_gt hroom)]
            have hdrop : (buffer.drop k).length = buffer.length - k := List.length_drop
            refine (ih (buffer.drop k) _ (by rw [hdrop]; omega)).trans ?_
            rw [hdrop, Nat.add_assoc, Nat.add_sub_cancel' hle]

/-! ## Waiting -/

variable {json : Json} {w : Worker} {id : String} {d : Nat} {s : Clocked}

/-- No line in time. -/
theorem eval_late {fuel : Nat} (h : ∀ r, S.line s.read = some r → max s.now d < r.1) :
    (Worker.awaitResponse json w id (some d) (fuel + 1)).eval S.timed s =
      some (.error (.post "the worker stopped answering and was discarded"),
        { s with now := max s.now d }) := by
  have hnone : (S.line s.read).filter (·.1 ≤ max s.now d) = none :=
    Option.filter_eq_none_iff.mpr fun r hr hle =>
      Nat.not_le.mpr (h r hr) (of_decide_eq_true hle)
  have hnext : S.respond (.nextLine w.number (some d)) s =
      some (none, { s with now := max s.now d }) := by
    rw [respond, nextLine, hnone]
  rw [Worker.awaitResponse, Prog.eval_bind]
  change ((S.respond (.nextLine w.number (some d)) s).bind _).bind _ = _
  rw [hnext]
  rfl

theorem respond_line {r : Nat × Except String (Option (List UInt8))}
    (hline : S.line s.read = some r) (hin : r.1 ≤ max s.now d) :
    S.respond (.nextLine w.number (some d)) s = some (some r.2, s.reads r.1) := by
  rw [respond, nextLine, hline, Option.filter_some, if_pos (decide_eq_true hin)]

/-- A line that ends the wait. -/
theorem eval_ends (w : Worker) (fuel : Nat) {r : Nat × Except String (Option (List UInt8))}
    (hline : S.line s.read = some r) (hin : r.1 ≤ max s.now d)
    (hends : json.ends id r.2 = true) :
    ∃ a, (Worker.awaitResponse json w id (some d) (fuel + 1)).eval S.timed s =
      some (a, s.reads r.1) := by
  rw [Worker.awaitResponse, Prog.eval_bind]
  change ∃ a, ((S.respond (.nextLine w.number (some d)) s).bind _).bind _ = _
  rw [respond_line hline hin]
  rcases r with ⟨t, _ | _ | line⟩
  · exact ⟨_, rfl⟩
  · exact ⟨_, rfl⟩
  · rw [Json.ends] at hends
    simp only [Option.bind_some, Prog.eval]
    split at hends
    · cases hends
    · rename_i response hresponse
      simp only [hresponse, of_decide_eq_true hends, if_true]
      exact ⟨_, rfl⟩

/-- A line that is skipped. -/
theorem eval_skips {fuel : Nat} {r : Nat × Except String (Option (List UInt8))}
    (hline : S.line s.read = some r) (hin : r.1 ≤ max s.now d)
    (hskips : json.ends id r.2 = false) :
    (Worker.awaitResponse json w id (some d) (fuel + 1)).eval S.timed s =
      (Worker.awaitResponse json w id (some d) fuel).eval S.timed (s.reads r.1) := by
  rw [Worker.awaitResponse, Prog.eval_bind]
  change ((S.respond (.nextLine w.number (some d)) s).bind _).bind _ = _
  rw [respond_line hline hin]
  rcases r with ⟨t, _ | _ | line⟩
  · cases hskips
  · cases hskips
  · rw [Json.ends] at hskips
    simp only [Option.bind_some, Prog.eval]
    split at hskips
    · rename_i hnone
      simp only [hnone]
    · rename_i response hresponse
      simp only [hresponse, of_decide_eq_false hskips, if_false]

/-- A wait ends by its deadline. -/
theorem wait_ends (json : Json) (w : Worker) (id : String) {T : Nat} (hd : d ≤ T) {n : Nat}
    (hn : ∀ i r, S.line i = some r → r.1 ≤ T → i < n) :
    ∀ k (s : Clocked), n ≤ s.read + k → s.now ≤ T →
      ∃ fuel a t, (Worker.awaitResponse json w id (some d) fuel).eval S.timed s = some (a, t) ∧
        t.now ≤ T := by
  intro k
  induction k with
  | zero =>
      intro s hread hnow
      refine ⟨1, _, _, eval_late fun r hline => ?_, Nat.max_le.mpr ⟨hnow, hd⟩⟩
      by_contra hle
      have hin := hn _ _ hline ((Nat.le_of_not_lt hle).trans (Nat.max_le.mpr ⟨hnow, hd⟩))
      omega
  | succ k ih =>
      intro s hread hnow
      have hmax : max s.now d ≤ T := Nat.max_le.mpr ⟨hnow, hd⟩
      by_cases hin : ∃ r, S.line s.read = some r ∧ r.1 ≤ max s.now d
      · rcases hin with ⟨r, hline, hin⟩
        have hnext : (s.reads r.1).now ≤ T := Nat.max_le.mpr ⟨hnow, hin.trans hmax⟩
        cases hends : json.ends id r.2 with
        | true =>
            rcases eval_ends w 0 hline hin hends with ⟨a, ha⟩
            exact ⟨1, a, _, ha, hnext⟩
        | false =>
            have hread' : n ≤ (s.reads r.1).read + k := by
              change n ≤ s.read + 1 + k
              omega
            rcases ih (s.reads r.1) hread' hnext with ⟨fuel, a, t, h, ht⟩
            exact ⟨fuel + 1, a, t, (eval_skips hline hin hends).trans h, ht⟩
      · refine ⟨1, _, _, eval_late fun r hline => ?_, hmax⟩
        exact Nat.lt_of_not_le fun hle => hin ⟨r, hline, hle⟩

/-- A wait ends with its answer. -/
theorem wait_answered (w : Worker) {T i : Nat} (hd : T ≤ d) (h : S.Answered json id T i) :
    ∀ s : Clocked, s.read = i → s.now ≤ T →
      ∃ fuel a t, (Worker.awaitResponse json w id (some d) fuel).eval S.timed s = some (a, t) ∧
        t.now ≤ T := by
  have hin : ∀ {r : Nat} (s : Clocked), r ≤ T → r ≤ max s.now d :=
    fun s hr => (hr.trans hd).trans (Nat.le_max_right _ _)
  induction h with
  | ends r hline harrives hends =>
      rintro s rfl hnow
      rcases eval_ends w 0 hline (hin s harrives) hends with ⟨a, ha⟩
      exact ⟨1, a, _, ha, Nat.max_le.mpr ⟨hnow, harrives⟩⟩
  | skips r hline harrives _ ih =>
      rintro s rfl hnow
      have hnext : (s.reads r.1).now ≤ T := Nat.max_le.mpr ⟨hnow, harrives⟩
      cases hends : json.ends id r.2 with
      | true =>
          rcases eval_ends w 0 hline (hin s harrives) hends with ⟨a, ha⟩
          exact ⟨1, a, _, ha, hnext⟩
      | false =>
          rcases ih (s.reads r.1) rfl hnext with ⟨fuel, a, t, h, ht⟩
          exact ⟨fuel + 1, a, t, (eval_skips hline (hin s harrives) hends).trans h, ht⟩

/-- A wait that has ended has met its deadline or its answer. -/
theorem wait_ended {T : Nat} : ∀ fuel (s : Clocked)
    {a : Except SubmitFailure (JobResponse × Worker)} {t : Clocked},
    (Worker.awaitResponse json w id (some d) fuel).eval S.timed s = some (a, t) →
      s.now ≤ t.now ∧ (t.now ≤ T → d ≤ T ∨ S.Answered json id T s.read) := by
  intro fuel
  induction fuel with
  | zero =>
      intro s a t h
      cases h
  | succ fuel ih =>
      intro s a t h
      by_cases hin : ∃ r, S.line s.read = some r ∧ r.1 ≤ max s.now d
      · rcases hin with ⟨r, hline, hin⟩
        cases hends : json.ends id r.2 with
        | true =>
            rcases eval_ends w fuel hline hin hends with ⟨a', ha⟩
            cases h.symm.trans ha
            exact ⟨Nat.le_max_left _ _, fun hT =>
              .inr (.ends r hline ((Nat.le_max_right _ _).trans hT) hends)⟩
        | false =>
            rw [eval_skips hline hin hends] at h
            have hrest := ih _ h
            refine ⟨(Nat.le_max_left _ _).trans hrest.1, fun hT => (hrest.2 hT).imp_right ?_⟩
            exact .skips r hline (((Nat.le_max_right _ _).trans hrest.1).trans hT)
      · rw [eval_late fun r hline => Nat.lt_of_not_le fun hle => hin ⟨r, hline, hle⟩] at h
        cases h
        exact ⟨Nat.le_max_left _ _, fun hT => .inl ((Nat.le_max_right _ _).trans hT)⟩

/-! ## Submitting -/

/-- A submission writes its request and waits, with a deadline from then on. -/
theorem eval_submit {request : JobRequest} {b start lines : Nat}
    (hrefused : json.refused request = none) :
    (Worker.submit json w request (some b) lines).eval S.timed
        { now := start, sent := 0, read := 0 } =
      (S.written start 0 (json.line request).length).bind fun t =>
        (Worker.awaitResponse json w request.id (some (t + b)) lines).eval S.timed
          { now := t, sent := 0 + (json.line request).length, read := 0 } := by
  have hencode : json.encode request = .ok (json.request request) := by
    rw [Json.encode, hrefused]
  rw [Worker.submit, hencode]
  have hwrite := eval_writeAll (S := S) w.number (json.line request).length (json.line request)
    { now := start, sent := 0, read := 0 } (Nat.le_refl _)
  change ((Worker.writeAll w.number (json.line request).length (json.line request)).run >>=
    _).eval _ _ = _
  rw [Prog.eval_bind, hwrite, Option.bind_map]
  rfl

variable {request : JobRequest} {start b : Nat}

theorem written_zero {T n : Nat} :
    (∃ t ≤ T, S.written start 0 n = some t) ↔ start ≤ T ∧ S.Accepts n T := by
  rw [written_iff]
  simp only [Nat.zero_add]
  exact Iff.rfl

/-- A result in time takes one of three things. -/
theorem accepts_of_returns (h : S.Returns json w request (some b) start (start + b))
    (hrefused : json.refused request = none) :
    S.Accepts (json.line request).length start ∨
      S.Accepts (json.line request).length (start + b) ∧
        S.Answered json request.id (start + b) 0 := by
  rcases h with ⟨lines, a, s, hrun, hs⟩
  have heval := (eval_submit hrefused).symm.trans (Prog.eval_iff_reaches.mpr hrun)
  rcases Option.bind_eq_some_iff.mp heval with ⟨t, ht, hrest⟩
  have hended := wait_ended (T := start + b) lines _ hrest
  rcases hended.2 hs with hearly | hanswered
  · -- It was abandoned, so the deadline counts from the start.
    exact .inl (written_zero.mp ⟨t, by omega, ht⟩).2
  · exact .inr ⟨(written_zero.mp ⟨t, hended.1.trans hs, ht⟩).2, hanswered⟩

/-- Once the request is written, what is left is to wait. -/
theorem returns_of_wait (hrefused : json.refused request = none) {lines t : Nat} {s : Clocked}
    {a : Except SubmitFailure (JobResponse × Worker)}
    (ht : S.written start 0 (json.line request).length = some t)
    (hwait : (Worker.awaitResponse json w request.id (some (t + b)) lines).eval S.timed
      { now := t, sent := 0 + (json.line request).length, read := 0 } = some (a, s))
    (hs : s.now ≤ start + b) : S.Returns json w request (some b) start (start + b) := by
  refine ⟨lines, a, s, Prog.eval_iff_reaches.mp ?_, hs⟩
  rw [eval_submit hrefused, ht]
  exact hwait

theorem returns_of_refused (hrefused : json.refused request ≠ none) :
    S.Returns json w request (some b) start (start + b) := by
  rcases Option.ne_none_iff_exists'.mp hrefused with ⟨reason, hreason⟩
  have hencode : json.encode request = .error reason := by rw [Json.encode, hreason]
  refine ⟨0, .error (.pre ("the job could not be encoded: " ++ reason)),
    { now := start, sent := 0, read := 0 }, Prog.eval_iff_reaches.mp ?_, Nat.le_add_right _ _⟩
  rw [Worker.submit, hencode]
  rfl

end Schedule

/-- Within its budget a submission returns exactly if its request cannot be encoded, or is
    accepted at once, or is accepted in time and answered in time. -/
theorem submit_in_time (S : Schedule) (json : Json) (w : Worker) (request : JobRequest)
    (start b : Nat) :
    S.Returns json w request (some b) start (start + b) ↔
      json.refused request ≠ none ∨ S.Accepts (json.line request).length start ∨
        S.Accepts (json.line request).length (start + b) ∧
          S.Answered json request.id (start + b) 0 := by
  constructor
  · intro h
    by_cases hrefused : json.refused request = none
    · exact .inr (Schedule.accepts_of_returns h hrefused)
    · exact .inl hrefused
  · intro h
    by_cases hrefused : json.refused request = none
    · rcases h with hno | haccepts | ⟨haccepts, hanswered⟩
      · exact absurd hrefused hno
      · -- The deadline is the one the caller asked for.
        rcases Schedule.written_zero.mpr ⟨Nat.le_refl start, haccepts⟩ with ⟨t, hle, ht⟩
        rcases S.finite (start + b) with ⟨n, hn⟩
        rcases Schedule.wait_ends json w request.id (d := t + b) (T := start + b) (by omega) hn n
          { now := t, sent := 0 + (json.line request).length, read := 0 } (Nat.le_add_left _ _)
          (hle.trans (Nat.le_add_right _ _)) with ⟨lines, a, s, hwait, hs⟩
        exact Schedule.returns_of_wait hrefused ht hwait hs
      · rcases Schedule.written_zero.mpr ⟨Nat.le_add_right start b, haccepts⟩ with ⟨t, hle, ht⟩
        have hlater := Schedule.written_ge _ ht
        rcases Schedule.wait_answered w (d := t + b) (T := start + b) (by omega) hanswered
          { now := t, sent := 0 + (json.line request).length, read := 0 } rfl hle
          with ⟨lines, a, s, hwait, hs⟩
        exact Schedule.returns_of_wait hrefused ht hwait hs
    · exact Schedule.returns_of_refused hrefused

/-- A worker that has stopped reading, with room for so many bytes on the way to it. -/
def Schedule.wedged (room : Nat) : Schedule where
  accept i := if i < room then some 0 else none
  line _ := none
  finite _ := ⟨0, nofun⟩

/-- A codec that writes every string and number as nothing. -/
def Json.blank : Json where
  string _ := []
  number _ := []
  refused _ := none
  decodeResponse _ := none
  decodeHandshake _ := .error ""
  string_escaped _ _ h := nomatch h
  number_plain _ _ h := nomatch h

/-- A worker that stops reading in the middle of a request holds its submission past any
    deadline. -/
theorem wedged_outlasts :
    ¬ ∀ (S : Schedule) (json : Json) (w : Worker) (request : JobRequest) (start b : Nat),
      S.Returns json w request (some b) start (start + b) := by
  intro h
  have hreturns := h (.wedged 4) .blank { number := 0, jobsDone := 0, lastUsed := 0 }
    { id := "1", code := "", cwd := none, timeoutMs := none } 0 1000
  rcases Schedule.accepts_of_returns hreturns rfl with haccepts | ⟨haccepts, _⟩
  · rcases haccepts 4 (by decide) with ⟨t, _, ht⟩
    cases ht
  · rcases haccepts 4 (by decide) with ⟨t, _, ht⟩
    cases ht

end TinyRuntime
