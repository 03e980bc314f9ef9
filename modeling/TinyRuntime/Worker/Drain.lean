import Mathlib.Data.ENat.Lattice
import Mathlib.Tactic.Ring
import TinyRuntime.Worker.Reap

/-!
# Preparation Commands

One run of a preparation command: two readers that share one counter, raced against
the stop flag and a deadline, and then a second race for the exit of the child.

The counter never runs ahead of what the readers have taken, and what they have not
taken is still in the pipes. So the counter passes the limit in one interleaving only
if the pipes hold too much in every one.

## Main definitions

* `Fits`: Whether both pipes together stay within the limit.
* `Draining`, `Drained`: One reader, and both of them.
* `Owner.Verdict`: What the readers return.
* `Owner.Executed`: What a command comes to.

## Theorems

* `length_drop`: What is left of a stream after a chunk.
* `drained_respond`: One effect of one reader.
* `read_verdict`: The verdict of the readers.
* `wp_select`: A race against the stop flag and a deadline.
* `execute_exact`: A command succeeds exactly when it should.
-/

namespace TinyRuntime

open Prog (act)
open Stream' (Seq)

/-- Both pipes together stay within the limit. -/
def Fits (rest : Bool → Seq UInt8) : Prop :=
  (rest false).length' + (rest true).length' ≤ MAX_OPERATION_BYTES

/-! ## Chunks -/

/-- A chunk and what is left after it. -/
theorem length_drop (n : Nat) : ∀ rest : Seq UInt8,
    rest.length' = (rest.take n).length + (rest.drop (rest.take n).length).length' := by
  induction n with
  | zero =>
      intro rest
      simp only [Stream'.Seq.take_zero, List.length_nil, Nat.cast_zero, zero_add,
        Stream'.Seq.drop_zero]
  | succ n ih =>
      intro rest
      cases rest with
      | nil => simp only [Stream'.Seq.take_nil, List.length_nil, Nat.cast_zero, zero_add,
          Stream'.Seq.drop_zero]
      | cons x rest =>
          rw [Stream'.Seq.take_succ_cons, List.length_cons, Stream'.Seq.drop_succ_cons,
            Stream'.Seq.length'_cons, ih rest]
          push_cast
          exact add_right_comm _ _ _

/-- Only the end of a stream gives an empty chunk. -/
theorem take_eq_nil {n : Nat} {rest : Seq UInt8} (h : (rest.take (n + 1)).length = 0) :
    rest = .nil := by
  cases rest with
  | nil => rfl
  | cons x rest =>
      rw [Stream'.Seq.take_succ_cons, List.length_cons] at h
      cases h

/-- A read that succeeds. -/
theorem respond_read {side : Bool} {s t : Owner} {size : Nat} {r : Except Unit Nat}
    (h : owning.respond (.read side) s (.read (some size)) = some (r, t)) :
    ∃ n, r = .ok ((s.rest side).take (n + 1)).length ∧
      t = { s with
        rest := Function.update s.rest side
          ((s.rest side).drop ((s.rest side).take (n + 1)).length) } := by
  have hsome : min (size + 1) BUFFER = min size (BUFFER - 1) + 1 := by
    rw [BUFFER]
    omega
  change (ChildOp.read side).respond s (.read (some size)) = some (r, t) at h
  rw [ChildOp.respond, hsome] at h
  cases h
  exact ⟨_, rfl, rfl⟩

/-! ## One reader -/

/-- A reader that has read and not yet counted. -/
def Native.counting (side : Bool) (fuel count : Nat) : Prog ChildOp (Except String Unit) :=
  .perform (.fetchAdd count) fun total =>
    if MAX_OPERATION_BYTES < total + count then .done (.error "prepare_output_limit")
    else (drainBounded side fuel).run

theorem drainBounded_ne_done (side : Bool) (fuel : Nat) (r : Except String Unit) :
    (Native.drainBounded side fuel).run ≠ .done r := by
  cases fuel with
  | zero => exact fun h => by cases h
  | succ n => exact fun h => by cases h

theorem drainBounded_succ (side : Bool) (fuel : Nat) :
    (Native.drainBounded side (fuel + 1)).run = .perform (.read side) fun r =>
      match r with
      | .error _ => .done (.error "prepare_read_failed")
      | .ok count => if count = 0 then .done (.ok ()) else Native.counting side fuel count :=
  rfl

/-- How far one reader is: it may read, with `fuel` reads left, or has bytes to count,
    or has returned. -/
inductive Draining (side : Bool) (s : Owner) (fuel pending : Nat)
    (p : Prog ChildOp (Except String Unit)) : Prop
  | reading (none : pending = 0) (h : p = (Native.drainBounded side fuel).run)
  | counting (some : 0 < pending) (h : p = Native.counting side fuel pending)
  | ended (none : pending = 0) (rest : s.rest side = .nil) (h : p = .done (.ok ()))
  | exceeded (none : pending = 0) (exceeded : MAX_OPERATION_BYTES < s.count)
      (h : p = .done (.error "prepare_output_limit"))
  | failed (none : pending = 0) (failed : s.readFailed = true)
      (h : p = .done (.error "prepare_read_failed"))

/-- The other reader does not disturb it. -/
theorem draining_of_le {side : Bool} {s t : Owner} {fuel pending : Nat}
    {p : Prog ChildOp (Except String Unit)} (h : Draining side s fuel pending p)
    (hrest : t.rest side = s.rest side) (hcount : s.count ≤ t.count)
    (hfailed : s.readFailed = true → t.readFailed = true) : Draining side t fuel pending p := by
  cases h with
  | reading hnone h => exact .reading hnone h
  | counting hsome h => exact .counting hsome h
  | ended hnone hend h => exact .ended hnone (hrest.trans hend) h
  | exceeded hnone hover h => exact .exceeded hnone (hover.trans_le hcount) h
  | failed hnone hf h => exact .failed hnone (hfailed hf) h

/-! ## Both readers -/

/-- Both readers and the counter they share. `held` is what the pipes held at first,
    `counted` what each reader has counted. -/
structure Drained (held : ℕ∞) (ps : Bool → Prog ChildOp (Except String Unit))
    (fuel pending counted : Bool → Nat) (s : Owner) : Prop where
  side : ∀ b, Draining b s (fuel b) (pending b) (ps b)
  held : held = ((s.rest false).length' + (s.rest true).length') +
    ((s.count + (pending false + pending true) : Nat) : ℕ∞)
  count : s.count = counted false + counted true
  /-- Every read has brought a byte. -/
  fuel : ∀ b, MAX_OPERATION_BYTES + 2 ≤ fuel b + counted b + pending b
  /-- The reader that passes the limit, or fails, notices. -/
  exceeded : MAX_OPERATION_BYTES < s.count ∨ s.readFailed = true → ∃ b x, ps b = .done (.error x)

/-- No reader waits for what never comes. -/
def ChildOp.Live : ∀ β, ChildOp β → Owner → Prop
  | _, .pending, _ => False
  | _, _, _ => True

section Readers

variable {held : ℕ∞} {ps : Bool → Prog ChildOp (Except String Unit)}
  {fuel pending counted : Bool → Nat} {s : Owner}

/-- A sum over both readers, beginning with either. -/
theorem add_not {M : Type*} [AddCommMonoid M] (f : Bool → M) (side : Bool) :
    f false + f true = f side + f (!side) := by
  cases side with
  | false => rfl
  | true => exact add_comm _ _

/-- One reader has moved. -/
theorem drained_update (h : Drained held ps fuel pending counted s) {side : Bool} {t : Owner}
    {p : Prog ChildOp (Except String Unit)} {f i c : Nat} (hside : Draining side t f i p)
    (hrest : t.rest (!side) = s.rest (!side))
    (hheld : (s.rest side).length' + ((s.count + pending side : Nat) : ℕ∞) =
      (t.rest side).length' + ((t.count + i : Nat) : ℕ∞))
    (hcount : t.count + counted side = s.count + c) (hmore : s.count ≤ t.count)
    (hfuel : MAX_OPERATION_BYTES + 2 ≤ f + c + i)
    (hover : MAX_OPERATION_BYTES < t.count ∨ t.readFailed = true → ∃ x, p = .done (.error x))
    (hfailed : s.readFailed = true → t.readFailed = true) :
    Drained held (Function.update ps side p) (Function.update fuel side f)
      (Function.update pending side i) (Function.update counted side c) t := by
  refine ⟨fun b => ?_, ?_, ?_, fun b => ?_, fun hlimit => ?_⟩
  · by_cases hb : b = side
    · subst hb
      simpa only [Function.update_self] using hside
    · rw [Function.update_of_ne hb, Function.update_of_ne hb, Function.update_of_ne hb]
      exact draining_of_le (h.side b) (Bool.eq_not.mpr hb ▸ hrest) hmore hfailed
  · rw [h.held, add_not (fun b => (s.rest b).length') side,
      add_not (fun b => (t.rest b).length') side, add_not pending side,
      add_not (Function.update pending side i) side, Function.update_self,
      Function.update_of_ne (Bool.not_ne_self side), hrest]
    push_cast at hheld ⊢
    calc (s.rest side).length' + (s.rest !side).length' +
          (s.count + (pending side + pending !side))
        = (s.rest side).length' + (s.count + pending side) +
            ((s.rest !side).length' + pending !side) := by ring
      _ = (t.rest side).length' + (t.count + i) +
            ((s.rest !side).length' + pending !side) := by rw [hheld]
      _ = _ := by ring
  · have hsum := h.count
    rw [add_not counted side] at hsum
    rw [add_not (Function.update counted side c) side, Function.update_self,
      Function.update_of_ne (Bool.not_ne_self side)]
    omega
  · by_cases hb : b = side
    · subst hb
      simpa only [Function.update_self] using hfuel
    · rw [Function.update_of_ne hb, Function.update_of_ne hb, Function.update_of_ne hb]
      exact h.fuel b
  · rcases hover hlimit with ⟨x, hx⟩
    exact ⟨side, x, (Function.update_self ..).trans hx⟩

/-- One effect of one reader, while the other has not failed. -/
theorem drained_respond (h : Drained held ps fuel pending counted s) (side : Bool) {β : Type}
    {e : ChildOp β} {k : β → Prog ChildOp (Except String Unit)} (hp : ps side = .perform e k)
    (hother : ∀ x, ps (!side) ≠ .done (.error x)) :
    ChildOp.Live β e s ∧ ∀ c b t, owning.respond e s c = some (b, t) →
      ∃ fuel' pending' counted',
        Drained held (Function.update ps side (k b)) fuel' pending' counted' t := by
  have hlimit : ¬ (MAX_OPERATION_BYTES < s.count ∨ s.readFailed = true) := by
    intro hover
    rcases h.exceeded hover with ⟨b, x, hb⟩
    by_cases hside : b = side
    · subst hside
      cases hp.symm.trans hb
    · rw [Bool.eq_not.mpr hside] at hb
      exact hother _ hb
  have hmore := h.fuel side
  cases h.side side with
  | ended _ _ hdone | exceeded _ _ hdone | failed _ _ hdone => cases hp.symm.trans hdone
  | counting hsome hq =>
      cases hp.symm.trans hq
      refine ⟨trivial, fun c total t hr => ?_⟩
      cases hr
      have hside : Draining side { s with count := s.count + pending side } (fuel side) 0
          (if MAX_OPERATION_BYTES < s.count + pending side then
            .done (.error "prepare_output_limit")
          else (Native.drainBounded side (fuel side)).run) := by
        split
        · rename_i hover
          exact .exceeded rfl hover rfl
        · exact .reading rfl rfl
      have hcount : s.count + pending side + counted side =
          s.count + (counted side + pending side) := by omega
      have hfuel : MAX_OPERATION_BYTES + 2 ≤ fuel side + (counted side + pending side) + 0 := by
        omega
      exact ⟨_, _, _, drained_update h hside rfl rfl hcount (Nat.le_add_right _ _) hfuel
        (fun hover => ⟨_, if_pos (hover.resolve_right (hlimit ∘ .inr))⟩) id⟩
  | reading hnone hq =>
      rw [hp] at hq
      rw [hnone] at hmore
      cases hfuel : fuel side with
      | zero =>
          have hsum := h.count
          rw [add_not counted side] at hsum
          omega
      | succ n =>
          rw [hfuel] at hq hmore
          rw [drainBounded_succ] at hq
          cases hq
          refine ⟨trivial, fun c r t hr => ?_⟩
          rcases c with _ | _ | _ | (_ | size) | _
          · cases hr
          · cases hr
          · cases hr
          · cases hr
            exact ⟨_, _, _, drained_update h (.failed rfl rfl rfl) rfl (by rw [hnone]) rfl le_rfl
              hmore (fun _ => ⟨_, rfl⟩) fun _ => rfl⟩
          · rcases respond_read hr with ⟨m, rfl, rfl⟩
            have hlength := length_drop (m + 1) (s.rest side)
            generalize hchunk : ((s.rest side).take (m + 1)).length = count at hlength ⊢
            have hother : Function.update s.rest side ((s.rest side).drop count) (!side) =
                s.rest (!side) := Function.update_of_ne (Bool.not_ne_self side) _ _
            have hself : Function.update s.rest side ((s.rest side).drop count) side =
                (s.rest side).drop count := Function.update_self ..
            have hheld : (s.rest side).length' + ((s.count + pending side : Nat) : ℕ∞) =
                (Function.update s.rest side ((s.rest side).drop count) side).length' +
                  ((s.count + count : Nat) : ℕ∞) := by
              rw [hself, hnone, hlength]
              push_cast
              ring
            by_cases hzero : count = 0
            · -- A chunk is empty only at the end of the pipe.
              have hend : s.rest side = .nil := take_eq_nil (hchunk.trans hzero)
              refine ⟨_, _, _, drained_update h (.ended hzero ?_ (if_pos hzero)) hother hheld rfl
                le_rfl (f := n + 1) ?_ (absurd · hlimit) id⟩
              · exact hself.trans (by rw [hend, Stream'.Seq.drop_nil])
              · omega
            · refine ⟨_, _, _, drained_update h (.counting (Nat.pos_of_ne_zero hzero)
                (if_neg hzero)) hother hheld rfl le_rfl ?_ (absurd · hlimit) id⟩
              omega
          · cases hr

/-- What both readers return. -/
def Owner.Verdict (rest : Bool → Seq UInt8) (r : Except String Unit) (t : Owner) : Prop :=
  match r with
  | .ok _ => Fits rest ∧ t.readFailed = false ∧ ∀ side, t.rest side = .nil
  | .error reason =>
      reason = "prepare_output_limit" ∧ ¬ Fits rest ∨
        reason = "prepare_read_failed" ∧ t.readFailed = true

theorem verdict_error {x : String} {rest : Bool → Seq UInt8}
    (h : Drained ((rest false).length' + (rest true).length') ps fuel pending counted s)
    (side : Bool) (hp : ps side = .done (.error x)) : Owner.Verdict rest (.error x) s := by
  cases h.side side with
  | reading _ hq => exact absurd (hq.symm.trans hp) (drainBounded_ne_done _ _ _)
  | counting _ hq => cases hp.symm.trans hq
  | ended _ _ hq => cases hp.symm.trans hq
  | exceeded _ hover hq =>
      cases hp.symm.trans hq
      refine .inl ⟨rfl, fun hfits => ?_⟩
      rw [Fits, h.held] at hfits
      have hcount := Nat.cast_le.mp (le_add_self.trans hfits)
      omega
  | failed _ hfailed hq =>
      cases hp.symm.trans hq
      exact .inr ⟨rfl, hfailed⟩

theorem verdict_ok {rest : Bool → Seq UInt8}
    (h : Drained ((rest false).length' + (rest true).length') ps fuel pending counted s)
    (hp : ∀ side, ps side = .done (.ok ())) : Owner.Verdict rest (.ok ()) s := by
  have hend : ∀ side, s.rest side = .nil ∧ pending side = 0 := by
    intro side
    cases h.side side with
    | reading _ hq => exact absurd (hq.symm.trans (hp side)) (drainBounded_ne_done _ _ _)
    | counting _ hq => cases (hp side).symm.trans hq
    | ended hnone hrest _ => exact ⟨hrest, hnone⟩
    | exceeded _ _ hq | failed _ _ hq => cases (hp side).symm.trans hq
  have hlimit : ¬ (MAX_OPERATION_BYTES < s.count ∨ s.readFailed = true) := by
    intro hover
    rcases h.exceeded hover with ⟨b, x, hb⟩
    cases (hp b).symm.trans hb
  refine ⟨?_, ?_, fun side => (hend side).1⟩
  · rw [Fits, h.held, (hend false).1, (hend true).1, (hend false).2, (hend true).2,
      Stream'.Seq.length'_nil, zero_add, zero_add]
    exact Nat.cast_le.mpr (Nat.le_of_not_lt (hlimit ∘ .inl))
  · exact Bool.eq_false_iff.mpr fun hfailed => hlimit (.inr hfailed)

end Readers

/-- What is left of the two readers. -/
def readers (p q : Prog ChildOp (Except String Unit)) :
    Bool → Prog ChildOp (Except String Unit)
  | false => p
  | true => q

theorem readers_false (p q p' : Prog ChildOp (Except String Unit)) :
    Function.update (readers p q) false p' = readers p' q := by
  funext side
  cases side with
  | false => exact Function.update_self ..
  | true => exact Function.update_of_ne Bool.false_ne_true.symm _ _

theorem readers_true (p q q' : Prog ChildOp (Except String Unit)) :
    Function.update (readers p q) true q' = readers p q' := by
  funext side
  cases side with
  | false => exact Function.update_of_ne Bool.false_ne_true _ _
  | true => exact Function.update_self ..

/-- However the pipes are read, it is what they hold that decides. -/
theorem read_verdict {s : Owner} (hcount : s.count = 0) (hfailed : s.readFailed = false) :
    Native.read.wp owning ChildOp.Live (Owner.Verdict s.rest) s := by
  let R (p q : Prog ChildOp (Except String Unit)) (t : Owner) : Prop :=
    ∃ fuel pending counted, Drained ((s.rest false).length' + (s.rest true).length')
      (readers p q) fuel pending counted t
  refine Prog.wp_tryJoin R ?_ ?_ ?_ ?_ ?_ _ _ s ?_
  · intro p q t hR
    refine ⟨trivial, fun c first u hr => ?_⟩
    cases c <;> cases hr
    exact hR
  · rintro β e k q t hq ⟨fuel, pending, counted, h⟩
    have hnext := drained_respond h false rfl hq
    refine ⟨hnext.1, fun c b u hr => ?_⟩
    rcases hnext.2 c b u hr with ⟨fuel', pending', counted', h'⟩
    exact ⟨fuel', pending', counted', readers_false _ q _ ▸ h'⟩
  · rintro β e k p t hp ⟨fuel, pending, counted, h⟩
    have hnext := drained_respond h true rfl hp
    refine ⟨hnext.1, fun c b u hr => ?_⟩
    rcases hnext.2 c b u hr with ⟨fuel', pending', counted', h'⟩
    exact ⟨fuel', pending', counted', readers_true p _ _ ▸ h'⟩
  · rintro x p q t ⟨fuel, pending, counted, h⟩ hor
    rcases hor with hp | hq
    · exact verdict_error h false hp
    · exact verdict_error h true hq
  · rintro t ⟨fuel, pending, counted, h⟩
    exact verdict_ok h fun side => by cases side <;> rfl
  · refine ⟨fun _ => MAX_OPERATION_BYTES + 2, fun _ => 0, fun _ => 0, ?_, ?_, hcount, ?_, ?_⟩
    · intro side
      cases side <;> exact .reading rfl rfl
    · rw [hcount]
      exact (add_zero _).symm
    · exact fun _ => Nat.le_refl _
    · rintro (hover | hfail)
      · rw [hcount] at hover
        cases hover
      · cases hfailed.symm.trans hfail

/-! ## The two races -/

/-- What a race that is lost leaves behind: where the future was dropped, and which of
    the two was observed. -/
def Owner.Interrupted (C : Owner → Prop) (t : Owner) : Prop :=
  ∃ s, C s ∧ (t = { s with stopSeen := true } ∨ t = { s with deadlineSeen := true })

/-- What is asked of a future that is raced: `C` holds wherever it can be dropped. -/
def ChildOp.Held (C : Owner → Prop) : ∀ β, ChildOp β → Owner → Prop :=
  fun β e s => (ChildOp.suspends β e = true → C s) ∧ ChildOp.Live β e s

/-- What a future that is polled under an interrupt returns with. -/
def Owner.Cut {α : Type} (C : Owner → Prop) (Q : α → Owner → Prop) (o : Option α) (t : Owner) :
    Prop :=
  match o with
  | none => Owner.Interrupted C t
  | some a => Q a t

/-- What a race returns with. -/
def Owner.Raced {α : Type} (C : Owner → Prop) (Q : α → Owner → Prop) (r : Except String α)
    (t : Owner) : Prop :=
  match r with
  | .ok a => Q a t
  | .error _ => Owner.Interrupted C t

section Race

variable {α : Type} {C : Owner → Prop} {p : Prog ChildOp α} {s : Owner}

theorem respond_expired {t : Owner} {c : ChildChoice} {b : Bool}
    (h : owning.respond .expired s c = some (b, t)) :
    t = { s with deadlineSeen := s.deadlineSeen || b } := by
  cases c <;> cases h
  rfl

theorem respond_stopped {t : Owner} {c : ChildChoice} {b : Bool}
    (h : owning.respond .stopped s c = some (b, t)) :
    t = { s with stopSeen := s.stopSeen || b } := by
  cases c <;> cases h
  rfl

theorem wp_expired {A : ∀ β, ChildOp β → Owner → Prop} {Q : α → Owner → Prop}
    (hA : ∀ t, C t → A _ .expired t)
    (h : p.wp owning (fun β e t => (ChildOp.suspends β e = true → C t) ∧ A β e t) Q s) :
    (p.cut .expired ChildOp.suspends).wp owning A (Owner.Cut C Q) s := by
  refine Prog.wp_cut hA ?_ ?_ p s h
  · intro t c u _ hr
    rw [respond_expired hr, Bool.or_false]
  · intro t c u ht hr
    exact ⟨t, ht, .inr (by rw [respond_expired hr, Bool.or_true])⟩

theorem wp_stopped {A : ∀ β, ChildOp β → Owner → Prop} {Q : α → Owner → Prop}
    (hA : ∀ t, C t → A _ .stopped t)
    (h : p.wp owning (fun β e t => (ChildOp.suspends β e = true → C t) ∧ A β e t) Q s) :
    (p.cut .stopped ChildOp.suspends).wp owning A (Owner.Cut C Q) s := by
  refine Prog.wp_cut hA ?_ ?_ p s h
  · intro t c u _ hr
    rw [respond_stopped hr, Bool.or_false]
  · intro t c u ht hr
    exact ⟨t, ht, .inl (by rw [respond_stopped hr, Bool.or_true])⟩

/-- A future raced against the stop flag and a deadline. -/
theorem wp_select {Q : α → Owner → Prop} (h : p.wp owning (ChildOp.Held C) Q s) :
    (Native.select p).wp owning ChildOp.Live (Owner.Raced C Q) s := by
  have hexpired : (p.cut .expired ChildOp.suspends).wp owning (ChildOp.Held C)
      (Owner.Cut C Q) s :=
    wp_expired (fun _ _ => ⟨nofun, trivial⟩)
      (Prog.wp_weaken p (fun _ _ _ ht => ⟨ht.1, ht⟩) s h)
  rw [Native.select, Prog.wp_bind]
  refine Prog.wp_mono _ (fun o t ht => ?_) s (wp_stopped (fun _ _ => trivial) hexpired)
  rcases o with _ | _ | a
  · exact ht
  · exact ht
  · exact ht

end Race

/-- A child that nobody has killed or waited for. -/
structure Owner.Unreaped (s : Owner) : Prop where
  child : s.child = true
  reaping : s.reaping = none
  waits : s.waits = []
  exited : s.exited = none

/-- Nobody has told the command to end. -/
structure Owner.Undisturbed (s : Owner) : Prop extends s.Unreaped where
  stop : s.stopSeen = false
  deadline : s.deadlineSeen = false

/-- The effects of the readers. -/
def ChildOp.Reads : ∀ β, ChildOp β → Prop
  | _, .read _ | _, .fetchAdd _ | _, .turn | _, .pending => True
  | _, _ => False

theorem uses_drainBounded (side : Bool) :
    ∀ fuel, (Native.drainBounded side fuel).run.Uses ChildOp.Reads := by
  intro fuel
  induction fuel with
  | zero => exact ⟨trivial, fun never => nomatch never⟩
  | succ n ih =>
      rw [drainBounded_succ]
      refine ⟨trivial, fun r => ?_⟩
      cases r with
      | error _ => trivial
      | ok count =>
          by_cases hzero : count = 0
          · simp only [hzero, if_true]
            trivial
          · simp only [hzero, if_false]
            refine ⟨trivial, fun total => ?_⟩
            beta_reduce
            split
            · trivial
            · exact ih

theorem undisturbed_reads {β : Type} {e : ChildOp β} {s t : Owner} {c : ChildChoice} {b : β}
    (he : ChildOp.Reads β e) (hs : s.Undisturbed) (hr : owning.respond e s c = some (b, t)) :
    t.Undisturbed := by
  cases e with
  | read side =>
      rcases c with _ | _ | _ | (_ | n) | _ <;> cases hr <;>
        exact ⟨⟨hs.child, hs.reaping, hs.waits, hs.exited⟩, hs.stop, hs.deadline⟩
  | fetchAdd count =>
      cases hr
      exact ⟨⟨hs.child, hs.reaping, hs.waits, hs.exited⟩, hs.stop, hs.deadline⟩
  | turn =>
      cases c <;> cases hr
      exact hs
  | pending => cases hr
  | _ => cases he

/-- What is known after the first race. -/
structure Owner.Read (rest : Bool → Seq UInt8) (r : Except String Unit) (t : Owner) : Prop
    extends t.Unreaped where
  ok : r = .ok () → Fits rest ∧ t.readFailed = false ∧ t.stopSeen = false ∧
    t.deadlineSeen = false ∧ ∀ side, t.rest side = .nil
  error : r ≠ .ok () → ¬ Fits rest ∨ t.readFailed = true ∨ t.stopSeen = true ∨
    t.deadlineSeen = true

theorem select_read {s : Owner} (hs : s.Undisturbed) (hcount : s.count = 0)
    (hfailed : s.readFailed = false) :
    (Native.select Native.read).wp owning ChildOp.Live
      (fun r t => t.Read s.rest (Native.flatten r)) s := by
  have huses : Native.read.Uses ChildOp.Reads :=
    Prog.uses_tryJoin trivial (uses_drainBounded _ _) (uses_drainBounded _ _)
  have hkeeps := Prog.wp_uses Owner.Undisturbed
    (fun _ _ _ _ _ _ he h hr => undisturbed_reads he h hr) Native.read s huses hs
  have hboth := Prog.wp_and Native.read s hkeeps (read_verdict hcount hfailed)
  refine Prog.wp_mono _ (fun r t ht => ?_) s (wp_select (C := Owner.Undisturbed)
    (Prog.wp_weaken _ (fun _ _ _ h => ⟨fun _ => h.1, h.2⟩) s hboth))
  rcases r with reason | reason | _
  · rcases ht with ⟨u, hu, rfl | rfl⟩
    · exact ⟨⟨hu.child, hu.reaping, hu.waits, hu.exited⟩, nofun, fun _ => .inr (.inr (.inl rfl))⟩
    · exact ⟨⟨hu.child, hu.reaping, hu.waits, hu.exited⟩, nofun, fun _ => .inr (.inr (.inr rfl))⟩
  · refine ⟨ht.1.toUnreaped, nofun, fun _ => ?_⟩
    rcases ht.2 with h | h
    · exact .inl h.2
    · exact .inr (.inl h.2)
  · exact ⟨ht.1.toUnreaped, fun _ => ⟨ht.2.1, ht.2.2.1, ht.1.stop, ht.1.deadline, ht.2.2.2⟩,
      fun hne => absurd rfl hne⟩

/-- What is known after the second race. -/
def Owner.Waited (s : Owner) (r : Except String Bool) (t : Owner) : Prop :=
  match r with
  | .ok success => t = { s with exited := some success }
  | .error _ => t = s ∨ t = { s with stopSeen := true } ∨ t = { s with deadlineSeen := true }

theorem select_wait (s : Owner) :
    (Native.select Native.directWait).wp owning ChildOp.Live
      (fun r t => s.Waited (Native.flatten r) t) s := by
  have hwait : Native.directWait.wp owning (ChildOp.Held (· = s)) s.Waited s := by
    rw [Native.directWait, Prog.wp_bind, Prog.wp_op]
    refine ⟨⟨fun _ => rfl, trivial⟩, fun c r t hr => ?_⟩
    rcases c with _ | _ | _ | _ | (_ | success) <;> cases hr
    · exact .inl rfl
    · exact rfl
  refine Prog.wp_mono _ (fun r t ht => ?_) s (wp_select hwait)
  rcases r with reason | r
  · rcases ht with ⟨u, rfl, ht⟩
    exact .inr ht
  · exact ht

/-- What is known once a command has run. -/
structure Owner.Executed (rest : Bool → Seq UInt8) (r : Except String Unit) (t : Owner) :
    Prop where
  /-- It succeeds exactly if nothing went wrong. -/
  ok : r = .ok () ↔ Fits rest ∧ t.readFailed = false ∧ t.exited = some true ∧
    t.stopSeen = false ∧ t.deadlineSeen = false
  /-- Then both pipes are at their end. -/
  ended : r = .ok () → ∀ side, t.rest side = .nil
  /-- After a wait that failed or was given up, the child is reaped or the error is that
      of reaping it. -/
  cleaned : t.exited = none →
    t.At .reaped ∨ r = .error "prepare_reap_failed" ∧ (t.At .child ∨ t.At .lost)

/-- The effects of reaping. -/
def ChildOp.Reaps : ∀ β, ChildOp β → Prop
  | _, .launch | _, .join => True
  | _, _ => False

/-- Reaping does not wait for the child directly. -/
theorem reaps_respond {β : Type} {e : ChildOp β} {s t : Owner} {c : ChildChoice} {b : β}
    (he : ChildOp.Reaps β e) (hr : owning.respond e s c = some (b, t)) : t.exited = s.exited := by
  cases e with
  | launch =>
      cases hr
      rw [Owner.launch]
      split <;> rfl
  | join =>
      cases c with
      | ended ended =>
          change s.join ended = some (b, t) at hr
          rw [Owner.join] at hr
          split at hr
          · cases hr
            rfl
          · cases hr
            rfl
          · cases ended <;> cases hr <;> rfl
      | _ => cases hr
  | _ => cases he

/-- Cleaning up within `execute`. -/
theorem settle_cleanup {s : Owner} (hs : s.Stage true) (hexited : s.exited = none) :
    Native.preparationCleanup.run.wp owning ChildOp.Live
      (fun r t => t.exited = none ∧
        match r with
        | .ok _ => t.At .reaped
        | .error reason => reason = "prepare_reap_failed" ∧ (t.At .child ∨ t.At .lost)) s := by
  have huses : Native.reap.run.Uses ChildOp.Reaps := ⟨trivial, fun _ => ⟨trivial, fun _ => trivial⟩⟩
  have hkeeps := Prog.wp_uses (fun t => t.exited = none)
    (fun _ _ _ _ _ _ he h hr => (reaps_respond he hr).trans h) _ s huses hexited
  have hboth := Prog.wp_and_uses _ s (Prog.wp_and _ s hkeeps (reap_acknowledges hs)) huses
  have hreap : Native.reap.run.wp owning ChildOp.Live
      (fun r t => t.exited = none ∧ t.Acknowledges true r) s := by
    refine Prog.wp_weaken _ (fun β e t ht => ?_) s hboth
    cases e with
    | pending => exact ht.2
    | _ => trivial
  rw [Native.preparationCleanup, Prog.wp_run_bind, Prog.wp_run_lift]
  refine Prog.wp_mono _ (fun r t ht => ?_) s hreap
  cases r with
  | error reason => exact ⟨ht.1, rfl, ht.2.2⟩
  | ok _ =>
      refine ⟨trivial, fun c _ u hr => ?_⟩
      cases hr
      exact ⟨ht.1, ht.2.2.resolve_left fun h => by cases h⟩

/-- From the second race on. -/
theorem settle_spec {rest : Bool → Seq UInt8} {result : Except String Unit} {s : Owner}
    (h : s.Read rest result) :
    (Native.settle result).run.wp owning ChildOp.Live (Owner.Executed rest) s := by
  rw [Native.settle, Prog.wp_run_bind, Prog.wp_run_lift]
  refine Prog.wp_mono _ (fun r t ht => ?_) s (select_wait s)
  change Prog.wp _ _ _ _ _
  generalize Native.flatten r = wait at ht ⊢
  cases wait with
  | error reason =>
      -- The wait has failed or was given up.
      have hunreaped : t.Unreaped := by
        rcases ht with rfl | rfl | rfl
        · exact h.toUnreaped
        · exact ⟨h.child, h.reaping, h.waits, h.exited⟩
        · exact ⟨h.child, h.reaping, h.waits, h.exited⟩
      have hstage : t.Stage true := by
        refine .child rfl hunreaped.child hunreaped.reaping ?_
        rw [hunreaped.waits]
        exact fun w hw => nomatch hw
      rw [Prog.wp_run_bind]
      refine Prog.wp_mono _ (fun r u hu => ?_) t (settle_cleanup hstage hunreaped.exited)
      have hok : ∀ r' : Except String Unit, r' ≠ .ok () → (r' = .ok () ↔ Fits rest ∧
          u.readFailed = false ∧ u.exited = some true ∧ u.stopSeen = false ∧
          u.deadlineSeen = false) :=
        fun r' hne => ⟨fun heq => absurd heq hne, fun hall => nomatch hu.1.symm.trans hall.2.2.1⟩
      cases r with
      | error reason' => exact ⟨hok _ nofun, nofun, fun _ => .inr ⟨congrArg _ hu.2.1, hu.2.2⟩⟩
      | ok _ =>
          have hne : Native.outcome result (.error reason) ≠ .ok () := by
            cases result <;> exact nofun
          exact ⟨hok _ hne, fun heq => absurd heq hne, fun _ => .inl hu.2⟩
  | ok success =>
      subst ht
      change Owner.Executed rest (Native.outcome result (.ok success)) _
      cases result with
      | error reason =>
          refine ⟨⟨nofun, fun ⟨hfits, hfailed, _, hstop, hdeadline⟩ => ?_⟩, nofun, nofun⟩
          rcases h.error nofun with hno | hno | hno | hno
          · exact absurd hfits hno
          · cases hfailed.symm.trans hno
          · cases hstop.symm.trans hno
          · cases hdeadline.symm.trans hno
      | ok _ =>
          rcases h.ok rfl with ⟨hfits, hfailed, hstop, hdeadline, hend⟩
          cases success with
          | true =>
              exact ⟨⟨fun _ => ⟨hfits, hfailed, rfl, hstop, hdeadline⟩, fun _ => rfl⟩,
                fun _ => hend, nofun⟩
          | false => exact ⟨⟨nofun, fun hall => nomatch hall.2.2.1⟩, nofun, nofun⟩

/-- A command from its start. -/
theorem execute_spec (rest : Bool → Seq UInt8) :
    Native.execute.run.wp owning ChildOp.Live (Owner.Executed rest) (Owner.spawned rest) := by
  rw [Native.execute, Prog.wp_run_bind, Prog.wp_act, Prog.wp_op]
  refine ⟨trivial, fun c first s₁ hr => ?_⟩
  cases hr
  simp only [Owner.spawned, Bool.not_true, Bool.false_eq_true, if_false]
  rw [Prog.wp_run_bind, Prog.wp_act, Prog.wp_op]
  refine ⟨trivial, fun c first s₂ hr => ?_⟩
  cases hr
  simp only [Function.update_of_ne Bool.false_ne_true.symm, Bool.not_true, Bool.false_eq_true,
    if_false]
  rw [Prog.wp_run_bind, Prog.wp_run_lift]
  refine Prog.wp_mono _ (fun r t ht => ?_) _
    (select_read ⟨⟨rfl, rfl, rfl, rfl⟩, rfl, rfl⟩ rfl rfl)
  -- The child is still there: nobody has reaped it.
  change Prog.wp _ _ _ _ _
  rw [Prog.wp_run_bind, Prog.wp_act, Prog.wp_op]
  refine ⟨trivial, fun c owns u hr => ?_⟩
  cases hr
  simp only [ht.child, Bool.not_true, Bool.false_eq_true, if_false]
  generalize Native.flatten r = result at ht ⊢
  cases result with
  | error reason =>
      rw [Prog.wp_run_bind, Prog.wp_act, Prog.wp_op]
      refine ⟨trivial, fun c _ u hr => ?_⟩
      cases hr
      exact settle_spec ⟨⟨ht.child, ht.reaping, ht.waits, ht.exited⟩, nofun, ht.error⟩
  | ok _ => exact settle_spec ht

/-- Every effect but one can be answered. -/
theorem live_answers {β : Type} {e : ChildOp β} {s : Owner} (h : ChildOp.Live β e s) :
    ∃ c r, owning.respond e s c = some r := by
  cases e with
  | join =>
      refine ⟨.ended .succeeded, ?_⟩
      change ∃ r, s.join .succeeded = some r
      rw [Owner.join]
      split <;> exact ⟨_, rfl⟩
  | read side => exact ⟨.read none, _, rfl⟩
  | turn | stopped | expired => exact ⟨.flag true, _, rfl⟩
  | wait => exact ⟨.exit none, _, rfl⟩
  | pending => exact h.elim
  | _ => exact ⟨.pass, _, rfl⟩

/-- A preparation command succeeds exactly when it should. It is what the pipes hold that
    decides whether its output is too much, however they are read. -/
theorem execute_exact (rest : Bool → Seq UInt8) :
    (∀ r t, Prog.Reaches owning Native.execute.run (Owner.spawned rest) (.done r) t →
      t.Executed rest r) ∧
    (∀ r t, Prog.Reaches owning Native.read (Owner.spawned rest) (.done r) t →
      t.readFailed = false →
        (r = .error "prepare_output_limit" ↔ ¬ Fits rest) ∧ (r = .ok () ↔ Fits rest)) ∧
    ∀ q t, Prog.Reaches owning Native.execute.run (Owner.spawned rest) q t →
      (∃ r, q = .done r) ∨ ∃ c q' t', q.advance owning t c = some (q', t') := by
  refine ⟨fun r t h => Prog.wp_reaches (execute_spec rest) h, fun r t h hfailed => ?_,
    fun q t h => ?_⟩
  · have hverdict : Owner.Verdict rest r t :=
      Prog.wp_reaches (read_verdict (s := Owner.spawned rest) rfl rfl) h
    cases r with
    | ok _ =>
        exact ⟨⟨nofun, fun hno => absurd hverdict.1 hno⟩, ⟨fun _ => hverdict.1, fun _ => rfl⟩⟩
    | error reason =>
        rcases hverdict with hover | hno
        · exact ⟨⟨fun _ => hover.2, fun _ => congrArg _ hover.1⟩,
            ⟨nofun, fun hfits => absurd hfits hover.2⟩⟩
        · cases hfailed.symm.trans hno.2
  · have hlive := Prog.wp_reaches (execute_spec rest) h
    cases q with
    | done r => exact .inl ⟨r, rfl⟩
    | perform e k =>
        rcases live_answers hlive.1 with ⟨c, ⟨b, t'⟩, hr⟩
        exact .inr ⟨c, k b, t', by rw [Prog.advance, hr]⟩

end TinyRuntime
