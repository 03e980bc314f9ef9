import TinyRuntime.PyServer.Server

/-!
# How a Call on a Slot Behaves

What a call knows of its locals at each of its effects: which locks it holds,
which server it has in hand, what it has written of a frame. The programs are
walked through once, here.

An ensure call has the server it works on in hand (`subject`) until it gives it
up, and locks no other. Every other call locks the one it was called on. Only a
call that has seen that a server has no child spawns one, only a request writes,
and it writes one frame from its start.

## Main definitions

* `Frame`: One request on the wire.
* `Asserts`: What a call knows of its locals at an effect.
* `Caller.Free`: What it has when it is to lock a server.
* `Done`: What it returns with.

## Theorems

* `locked_spec`: A body under the lock of a server.
* `main_spec`: Every call keeps to what it asserts.
-/

namespace TinyRuntime.PyServer

open Prog (act attempt)

variable {V T : Type} {codec : ServerCodec V} {l : Caller}

/-- The bytes of one request on the wire, newline included. -/
def Frame (codec : ServerCodec V) (bytes : List UInt8) : Prop :=
  ∃ request text, codec.encode request = .ok text ∧ bytes = text ++ [NEWLINE]

/-- It holds no server and has nothing in its hands. -/
structure Caller.Idle (l : Caller) : Prop where
  server : l.server = none
  vacant : l.vacant = false
  child : l.child = none
  part : l.part = []

/-- It has a right to a server's lock. -/
structure Caller.Entitled (l : Caller) (i : Nat) : Prop where
  ensure : l.kind = .ensure → l.slot = true ∧ l.subject = some i
  others : l.kind ≠ .ensure → l.slot = false ∧ l.target = some i

/-- It may lock a server. -/
structure Caller.Free (l : Caller) (i : Nat) : Prop extends l.Idle, l.Entitled i where
  kept : l.gaveUp = false
  running : l.finished = false

/-- It holds the lock of a server. -/
structure Caller.Holds (l : Caller) (i : Nat) : Prop extends l.Entitled i where
  server : l.server = some i
  kept : l.gaveUp = false
  running : l.finished = false

/-- What a call knows of its locals when it performs an effect. -/
def Asserts (codec : ServerCodec V) : ∀ β, ServerOp β → Caller → Prop := fun β op l =>
  l.finished = false ∧ (op.suspends = true → l.gaveUp = false) ∧
    match op with
    | .lockSlot => l.slot = false ∧ l.Idle
    | .unlockSlot | .cache =>
        l.slot = true ∧ l.gaveUp = false ∧ l.Idle ∧ ∀ i, l.subject = some i → l.target = some i
    | .setCache value =>
        l.slot = true ∧ l.Idle ∧ l.subject = value.server ∧
          (value.server ≠ none → l.gaveUp = false)
    | .prepare | .newServer _ _ =>
        l.slot = true ∧ l.gaveUp = false ∧ l.subject = none ∧ l.Idle
    | .lockInner i => l.Free i
    | .unlockInner => ∃ i, l.Holds i ∧ l.child = none
    | .inner | .take => ∃ i, l.Holds i ∧ l.child = none ∧ l.part = []
    | .spawn _ =>
        ∃ i, l.Holds i ∧ l.child = none ∧ l.part = [] ∧ l.vacant = true ∧ l.kind ≠ .other
    | .setInner value =>
        ∃ i, l.Holds i ∧ l.child = some value.child ∧ l.part = [] ∧ l.vacant = true ∧
          l.kind ≠ .other
    | .dropChild | .startKill => ∃ i, l.Holds i ∧ l.child ≠ none
    | .nextId => ∃ i, l.Holds i ∧ l.child = none ∧ l.vacant = false
    | .write buffer =>
        ∃ i, l.Holds i ∧ l.child = none ∧ l.kind = .request ∧ buffer ≠ [] ∧
          Frame codec (l.part ++ buffer)
    | _ => True

/-- One effect as a call sees it. -/
theorem wp_server {β : Type} {op : ServerOp β} {A : ∀ β, ServerOp β → Caller → Prop}
    {Q : β → Caller → Prop} (hA : A _ op l)
    (hQ : ∀ s c b s' l', op.respond (s, l) c = some (b, s', l') → Q b l') :
    (Prog.op op : Prog ServerOp β).wp (calls (T := T) codec).localised A Q l := by
  refine ⟨hA, ?_⟩
  rintro ⟨s, c⟩ b l' hr
  rcases Option.map_eq_some_iff.mp hr with ⟨⟨b', s', l''⟩, hrespond, hr⟩
  cases hr
  exact hQ s c _ s' _ hrespond

/-- The effects that change none of the locals. -/
def ServerOp.still : ∀ β, ServerOp β → Bool
  | _, .now => true
  | _, .prepare => true
  | _, .launch _ => true
  | _, .takeStdin => true
  | _, .takeStdout => true
  | _, .readyLine _ => true
  | _, .nextId => true
  | _, .flush => true
  | _, .nextLine _ => true
  | _, .lastUsed _ => true
  | _, .markUsed _ _ => true
  | _, .pending => true
  | _, _ => false

theorem respond_still {β : Type} {op : ServerOp β} (hop : op.still = true) {s s' : Slot}
    {l' : Caller} {c : ServerChoice} {b : β} (h : op.respond (s, l) c = some (b, s', l')) :
    l' = l := by
  cases op with
  | now | prepare | takeStdin | takeStdout | flush =>
      simp only [ServerOp.respond] at h
      split at h <;> first | (cases h; rfl) | cases h | (split at h <;> cases h; rfl)
  | launch i | lastUsed i | markUsed i t =>
      cases h
      rfl
  | readyLine budget | nextLine budget =>
      rcases Option.map_eq_some_iff.mp h with ⟨r, _, hr⟩
      cases hr
      rfl
  | nextId =>
      simp only [ServerOp.respond] at h
      split at h
      · rcases Option.map_eq_some_iff.mp h with ⟨x, _, hr⟩
        cases hr
        rfl
      · cases h
  | pending => cases h
  | _ => cases hop

theorem wp_still {β : Type} {op : ServerOp β} (hop : op.still = true)
    {A : ∀ β, ServerOp β → Caller → Prop} {Q : β → Caller → Prop} (hA : A _ op l)
    (hQ : ∀ b, Q b l) :
    (Prog.op op : Prog ServerOp β).wp (calls (T := T) codec).localised A Q l := by
  refine wp_server hA fun s c b s' l' hr => ?_
  rw [respond_still hop hr]
  exact hQ b

/-- Those among them that no call asserts anything at, other than that it goes on. -/
def ServerOp.quiet : ∀ β, ServerOp β → Bool
  | _, .prepare => false
  | _, .nextId => false
  | β, op => op.still β

theorem wp_quiet {α : Type} {p : Prog ServerOp α} {Q : α → Caller → Prop}
    (hp : p.Uses fun β op => op.quiet β = true) (hover : l.finished = false)
    (hkept : l.gaveUp = false) (hQ : ∀ a, Q a l) :
    p.wp (calls (T := T) codec).localised (Asserts codec) Q l := by
  have hstill : ∀ β (op : ServerOp β), op.quiet β = true → op.still β = true := by
    intro β op h
    cases op <;> first | rfl | cases h
  have hsame := Prog.wp_uses (H := (calls (T := T) codec).localised) (fun l' => l' = l)
    (fun β op m c b t (hop : op.quiet β = true) hm hr => by
      rcases c with ⟨s, c⟩
      rcases Option.map_eq_some_iff.mp hr with ⟨⟨b', s', l'⟩, hrespond, heq⟩
      cases heq
      rw [respond_still (hstill β op hop) hrespond]
      exact hm) p l hp rfl
  refine Prog.wp_mono _ ?_ _ (Prog.wp_weaken _ ?_ _ (Prog.wp_and_uses _ _ hsame hp))
  · rintro a _ rfl
    exact hQ a
  · rintro β op _ ⟨rfl, hop⟩
    refine ⟨hover, fun _ => hkept, ?_⟩
    cases op <;> first | exact trivial | cases hop

section Quiet

theorem quiet_act {β : Type} {op : ServerOp β} (hop : op.quiet β = true) :
    (act op : ExceptT Error (Prog ServerOp) β).run.Uses fun β op => op.quiet β = true :=
  Prog.uses_run_lift ((Prog.uses_op op).mpr hop)

theorem quiet_greet (codec : ServerCodec V) (launch : ServerLaunch) :
    (greet codec launch).run.Uses fun β op => op.quiet β = true := by
  have hcheck : ∀ (b : Bool) (e : Error), (okOr b e).run.Uses fun β op => op.quiet β = true := by
    intro b e
    cases b <;> trivial
  refine Prog.uses_run_bind (quiet_act rfl) fun b => ?_
  refine Prog.uses_run_bind (hcheck b _) fun _ => ?_
  refine Prog.uses_run_bind (quiet_act rfl) fun b => ?_
  refine Prog.uses_run_bind (hcheck b _) fun _ => ?_
  refine Prog.uses_run_bind (quiet_act rfl) fun read => ?_
  match read with
  | none | some (.error _) | some (.ok none) => trivial
  | some (.ok (some line)) =>
      simp only []
      split
      · trivial
      · split
        · trivial
        · split <;> trivial

theorem quiet_awaitResponse (codec : ServerCodec V) (id method : String)
    (decode : V → Except String T) (budget fuel : Nat) :
    (awaitResponse codec id method decode budget fuel).Uses fun β op => op.quiet β = true := by
  induction fuel with
  | zero => exact Prog.uses_bind ((Prog.uses_op _).mpr rfl) fun never => nomatch never
  | succ fuel ih =>
      refine Prog.uses_bind ((Prog.uses_op _).mpr rfl) fun read => ?_
      match read with
      | none | some (.error _) | some (.ok none) => trivial
      | some (.ok (some line)) =>
          simp only []
          split
          · exact ih
          · split
            · exact ih
            · split
              · trivial
              · split <;> trivial

theorem quiet_markUsed (server : Nat) :
    (markUsed server).Uses fun β op => op.quiet β = true :=
  Prog.uses_bind ((Prog.uses_op _).mpr rfl) fun _ => (Prog.uses_op _).mpr rfl

theorem quiet_stale (server : Nat) (requested : List String) (idle : Option IdleRule) :
    (stale server requested idle).Uses fun β op => op.quiet β = true := by
  refine Prog.uses_bind ((Prog.uses_op _).mpr rfl) fun launch => ?_
  split
  · trivial
  · cases idle with
    | none => trivial
    | some rule =>
        simp only []
        split
        · exact Prog.uses_bind ((Prog.uses_op _).mpr rfl) fun _ =>
            Prog.uses_bind ((Prog.uses_op _).mpr rfl) fun _ => trivial
        · trivial

end Quiet

/-! ## Under a server's lock -/

namespace Caller

variable {i : Nat} {v : Bool} {part : List UInt8}

/-- The locals under a server's lock. -/
def holding (l : Caller) (i : Nat) (v : Bool) (child : Option Nat) (part : List UInt8) : Caller :=
  { l with server := some i, vacant := v, child := child, part := part }

theorem Free.holds (h : l.Free i) (v : Bool) (child : Option Nat) (part : List UInt8) :
    (l.holding i v child part).Holds i :=
  { ensure := h.ensure, others := h.others, server := rfl, kept := h.kept, running := h.running }

/-- The locals after a server's lock was let go, by whether it had no child. -/
def after (l : Caller) (v : Bool) : Caller :=
  if l.kind = .ensure ∧ v = true then { l with gaveUp := true, subject := none } else l

theorem Free.unlocked (h : l.Free i) : (l.holding i v none part).unlocked = l.after v := by
  have hidle := h.toIdle
  rcases l with ⟨kind, slot, subject, gaveUp, target, server, vacant, child, part', handed, finished⟩
  rcases hidle with ⟨hserver, hvacant, hchild, hpart⟩
  have hkept := h.kept
  simp only at hserver hvacant hchild hpart hkept
  subst hserver hvacant hchild hpart hkept
  cases kind <;> cases v <;> rfl

end Caller

section Locked

variable {i : Nat}

theorem spawnChild_spec (h : l.Free i) (hkind : l.kind ≠ .other) (launch : ServerLaunch) :
    (spawnChild launch).run.wp (calls (T := T) codec).localised (Asserts codec)
      (fun r l' => match r with
        | .ok child => l' = l.holding i true (some child) []
        | .error _ => l' = l.holding i true none []) (l.holding i true none []) := by
  rw [spawnChild]
  split
  · rfl
  · rename_i spec _
    rw [Prog.wp_run_mk, Prog.wp_bind]
    refine wp_server ⟨h.running, fun hs => (by cases hs), i, h.holds _ _ _, rfl, rfl, rfl, hkind⟩ ?_
    intro s c b s' l' hr
    cases c with
    | pass | failed reason =>
        cases hr
        rfl
    | _ => cases hr

theorem spawnInner_spec (h : l.Free i) (hkind : l.kind ≠ .other) (launch : ServerLaunch) :
    (spawnInner codec launch).run.wp (calls (T := T) codec).localised (Asserts codec)
      (fun r l' => match r with
        | .ok inner => l' = l.holding i true (some inner.child) []
        | .error _ => l' = l.holding i true none []) (l.holding i true none []) := by
  rw [spawnInner, Prog.wp_run_bind]
  refine Prog.wp_mono _ ?_ _ (spawnChild_spec h hkind launch)
  rintro r l' hl'
  cases r with
  | error e => exact hl'
  | ok child =>
      cases hl'
      simp only []
      rw [Prog.wp_run_mk, Prog.wp_bind]
      refine wp_quiet (quiet_greet codec launch) h.running h.kept fun r => ?_
      cases r with
      | ok ready => rfl
      | error e =>
          simp only []
          rw [Prog.wp_bind]
          refine wp_server ⟨h.running, fun hs => (by cases hs), i, h.holds _ _ _, ?_⟩ ?_
          · exact fun hnone => by cases hnone
          · intro s c b s' l' hr
            cases hr
            rfl

/-- A worker is there afterwards, unless it could not be spawned. -/
theorem fill_spec (h : l.Free i) (hkind : l.kind ≠ .other) :
    (fill codec i).run.wp (calls (T := T) codec).localised (Asserts codec)
      (fun r l' => match r with
        | .ok _ => l' = l.holding i false none []
        | .error _ => l' = l.holding i true none []) (l.holding i false none []) := by
  rw [fill, Prog.wp_run_bind, Prog.wp_act]
  refine wp_server ⟨h.running, fun hs => (by cases hs), i, h.holds _ _ _, rfl, rfl⟩ ?_
  intro s c inner s' l' hr
  cases hr
  cases hinner : (s.servers i).inner with
  | some x => rfl
  | none =>
      simp only [Option.isNone_none]
      rw [Prog.wp_run_bind, Prog.wp_act]
      refine wp_still rfl ⟨h.running, fun hs => (by cases hs), trivial⟩ fun launch => ?_
      simp only []
      rw [Prog.wp_run_bind]
      refine Prog.wp_mono _ ?_ _ (spawnInner_spec h hkind launch)
      rintro r l' hl'
      cases r with
      | error e => exact hl'
      | ok inner =>
          cases hl'
          simp only []
          rw [Prog.wp_act]
          refine wp_server ⟨h.running, fun hs => (by cases hs), i, h.holds _ _ _, rfl, rfl, rfl,
            hkind⟩ ?_
          intro s c b s' l' hr
          cases hr
          rfl

/-- A frame is written from its start, and only what is left of it after a failure
    stays unfinished. -/
theorem writeAll_spec (h : l.Free i) (hkind : l.kind = .request) (fuel : Nat) :
    ∀ {part buffer : List UInt8}, buffer.length ≤ fuel →
      (buffer = [] ∨ Frame codec (part ++ buffer)) →
      (writeAll fuel buffer).run.wp (calls (T := T) codec).localised (Asserts codec)
        (fun _ l' => ∃ part', l' = l.holding i false none part')
        (l.holding i false none part) := by
  induction fuel with
  | zero => exact fun _ _ => ⟨_, rfl⟩
  | succ fuel ih =>
      intro part buffer hlen hframe
      rw [writeAll]
      split
      · exact ⟨_, rfl⟩
      · rename_i hmore
        have hrest := hframe.resolve_left hmore
        rw [Prog.wp_run_bind, Prog.wp_attempt]
        refine wp_server ⟨h.running, fun _ => h.kept, i, h.holds _ _ _, rfl, hkind, hmore, hrest⟩ ?_
        intro s c b s' l' hr
        simp only [ServerOp.respond, Caller.holding] at hr
        split at hr
        · rename_i x n hinner
          split at hr
          · cases hr
            simp only []
            split
            · exact ⟨_, rfl⟩
            · rename_i hn
              refine ih ?_ ?_
              · rw [List.length_drop]
                omega
              · by_cases hall : n = buffer.length
                · exact .inl (by rw [hall, List.drop_length])
                · rw [if_neg hall, List.append_assoc, List.take_append_drop]
                  exact .inr hrest
          · cases hr
        · cases hr
          exact ⟨_, rfl⟩
        · cases hr

theorem exchange_spec (h : l.Free i) (hkind : l.kind = .request) (method : String) (params : V)
    (decode : V → Except String T) (lines : Nat) :
    (exchange codec i method params decode lines).wp (calls (T := T) codec).localised
      (Asserts codec) (fun _ l' => ∃ part, l' = l.holding i false none part)
      (l.holding i false none []) := by
  rw [exchange, Prog.wp_bind]
  refine wp_still rfl ⟨h.running, fun hs => (by cases hs), i, h.holds _ _ _, rfl, rfl⟩ fun n => ?_
  simp only []
  split
  · exact ⟨_, rfl⟩
  · rename_i text htext
    rw [Prog.wp_bind]
    refine Prog.wp_mono _ ?_ _ (writeAll_spec h hkind _ (Nat.le_refl _)
      (.inr ⟨_, text, htext, rfl⟩))
    rintro r _ ⟨part, rfl⟩
    cases r with
    | error e => exact ⟨_, rfl⟩
    | ok _ =>
        simp only []
        rw [Prog.wp_bind]
        refine wp_still rfl ⟨h.running, fun _ => h.kept, trivial⟩ fun r => ?_
        cases r with
        | error e => exact ⟨_, rfl⟩
        | ok _ =>
            simp only []
            rw [Prog.wp_bind]
            refine wp_still rfl ⟨h.running, fun hs => (by cases hs), trivial⟩ fun launch => ?_
            exact wp_quiet (quiet_awaitResponse codec _ method decode _ lines) h.running h.kept
              fun _ => ⟨_, rfl⟩

/-- A body under the lock of a server. `B` relates what it returns to what it saw
    last of the server's child. -/
theorem locked_spec {α : Type} {body : Prog ServerOp α} {B : α → Bool → Prop} (h : l.Free i)
    (hbody : body.wp (calls (T := T) codec).localised (Asserts codec)
      (fun r l' => ∃ v part, B r v ∧ l' = l.holding i v none part) (l.holding i false none [])) :
    (locked i body).wp (calls (T := T) codec).localised (Asserts codec)
      (fun r l' => ∃ v, B r v ∧ l' = l.after v) l := by
  rw [locked, Prog.wp_bind]
  refine wp_server ⟨h.running, fun _ => h.kept, h⟩ ?_
  intro s c b s' l' hr
  have hl' : l' = l.holding i false none [] := by
    simp only [ServerOp.respond] at hr
    split at hr
    · cases hr
      rw [Caller.holding, ← h.child, ← h.part]
    · cases hr
  subst hl'
  rw [Prog.wp_bind]
  refine Prog.wp_mono _ ?_ _ hbody
  rintro r _ ⟨v, part, hB, rfl⟩
  rw [Prog.wp_bind]
  refine wp_server ⟨h.running, fun hs => (by cases hs), i, h.holds _ _ _, rfl⟩ ?_
  intro s c b s' l' hr
  cases hr
  exact ⟨v, hB, h.unlocked⟩

/-! ## The methods of a server -/

theorem start_spec (h : l.Free i) (hkind : l.kind ≠ .other) :
    (start codec i).wp (calls (T := T) codec).localised (Asserts codec)
      (fun r l' => match r with
        | .ok _ => l' = l.after false
        | .error _ => l' = l.after true) l := by
  refine Prog.wp_mono _ ?_ _ (locked_spec (B := fun r v => match r with
    | .ok _ => v = false
    | .error _ => v = true) h (Prog.wp_mono _ ?_ _ (fill_spec h hkind)))
  · rintro r l' ⟨v, hv, rfl⟩
    cases r with
    | ok _ | error _ =>
        cases hv
        rfl
  · rintro r l' hl'
    cases r with
    | ok _ => exact ⟨false, [], rfl, hl'⟩
    | error _ => exact ⟨true, [], rfl, hl'⟩

theorem requestOnce_spec (h : l.Free i) (hkind : l.kind = .request) (method : String) (params : V)
    (decode : V → Except String T) (lines : Nat) :
    (requestOnce codec i method params decode lines).wp (calls (T := T) codec).localised
      (Asserts codec) (fun _ l' => l' = l) l := by
  have hother : l.kind ≠ .other := by
    rw [hkind]
    nofun
  refine Prog.wp_mono _ ?_ _ (locked_spec (B := fun _ _ => True) h ?_)
  · rintro r _ ⟨v, _, rfl⟩
    rw [Caller.after, if_neg]
    rw [hkind]
    nofun
  · rw [Prog.wp_bind]
    refine Prog.wp_mono _ ?_ _ (fill_spec h hother)
    rintro r l' hl'
    cases r with
    | error e => exact ⟨true, [], trivial, hl'⟩
    | ok _ =>
        cases hl'
        simp only []
        rw [Prog.wp_bind]
        refine wp_server ⟨h.running, fun hs => (by cases hs), i, h.holds _ _ _, rfl, rfl⟩ ?_
        intro s c inner s' l' hr
        cases hr
        cases hinner : (s.servers i).inner with
        | none => exact ⟨true, [], trivial, rfl⟩
        | some x =>
            refine Prog.wp_mono _ ?_ _ (exchange_spec h hkind method params decode lines)
            rintro r _ ⟨part, rfl⟩
            exact ⟨false, part, trivial, rfl⟩

/-- After a reset the server has no child. -/
theorem reset_spec (h : l.Free i) :
    (reset i).wp (calls (T := T) codec).localised (Asserts codec)
      (fun _ l' => l' = l.after true) l := by
  refine Prog.wp_mono _ ?_ _ (locked_spec (B := fun _ v => v = true) h ?_)
  · rintro r _ ⟨_, rfl, rfl⟩
    rfl
  · rw [Prog.wp_bind]
    refine wp_server ⟨h.running, fun hs => (by cases hs), i, h.holds _ _ _, rfl, rfl⟩ ?_
    intro s c inner s' l' hr
    cases hr
    cases hinner : (s.servers i).inner with
    | none => exact ⟨true, [], rfl, rfl⟩
    | some x =>
        refine wp_server ⟨h.running, fun hs => (by cases hs), i,
          h.holds false (some x.child) [], ?_⟩ ?_
        · exact fun hnone => by cases hnone
        · intro s c b s' l' hr
          cases hr
          exact ⟨true, [], rfl, rfl⟩

theorem request_spec (h : l.Free i) (hkind : l.kind = .request) (method : String) (params : V)
    (decode : V → Except String T) (lines : Nat) :
    (request codec i method params decode lines).wp (calls (T := T) codec).localised
      (Asserts codec) (fun _ l' => l' = l) l := by
  have hafter : l.after true = l := by
    rw [Caller.after, if_neg]
    rw [hkind]
    nofun
  have hmark : ∀ value : T, (do
      markUsed i
      pure (.ok value) : Prog ServerOp (Except Error T)).wp (calls (T := T) codec).localised
        (Asserts codec) (fun _ l' => l' = l) l := by
    intro value
    rw [Prog.wp_bind]
    exact wp_quiet (quiet_markUsed i) h.running h.kept fun _ => rfl
  rw [request, Prog.wp_bind]
  refine Prog.wp_mono _ ?_ _ (requestOnce_spec h hkind method params decode lines)
  rintro r _ rfl
  cases r with
  | ok value => exact hmark value
  | error e =>
      simp only []
      rw [Prog.wp_bind]
      refine Prog.wp_mono _ ?_ _ (reset_spec h)
      rintro _ _ rfl
      rw [hafter, Prog.wp_bind]
      refine Prog.wp_mono _ ?_ _ (requestOnce_spec h hkind method params decode lines)
      rintro r _ rfl
      cases r with
      | error e => rfl
      | ok value => exact hmark value

theorem status_spec (h : l.Free i) (hkind : l.kind ≠ .ensure) :
    (status i).wp (calls (T := T) codec).localised (Asserts codec) (fun _ l' => l' = l) l := by
  refine Prog.wp_mono _ ?_ _ (locked_spec (B := fun _ _ => True) h ?_)
  · rintro r _ ⟨v, _, rfl⟩
    rw [Caller.after, if_neg fun hk => hkind hk.1]
  · rw [Prog.wp_bind]
    refine wp_server ⟨h.running, fun hs => (by cases hs), i, h.holds _ _ _, rfl, rfl⟩ ?_
    intro s c inner s' l' hr
    cases hr
    rw [Prog.wp_bind]
    refine wp_still rfl ⟨h.running, fun hs => (by cases hs), trivial⟩ fun launch => ?_
    exact ⟨_, [], trivial, rfl⟩

end Locked

/-! ## The slot -/

namespace Caller

/-- An ensure call that holds the slot's lock, with a server in hand or without. -/
def inSlot (l : Caller) (subject : Option Nat) (gaveUp : Bool) (target : Option Nat) : Caller :=
  { l with slot := true, subject := subject, gaveUp := gaveUp, target := target }

/-- A call that has just been made. -/
structure Fresh (l : Caller) : Prop extends l.Idle where
  slot : l.slot = false
  subject : l.subject = none
  kept : l.gaveUp = false
  running : l.finished = false

variable {subject target : Option Nat} {gaveUp : Bool}

theorem Fresh.idle (h : l.Fresh) : (l.inSlot subject gaveUp target).Idle :=
  ⟨h.server, h.vacant, h.child, h.part⟩

/-- An ensure call may lock the server it has in hand. -/
theorem Fresh.free (h : l.Fresh) (hkind : l.kind = .ensure) {i : Nat} :
    (l.inSlot (some i) false target).Free i :=
  { h.idle with
    ensure := fun _ => ⟨rfl, rfl⟩, others := fun hk => absurd hkind hk, kept := rfl
    running := h.running }

/-- The locals after the slot's lock was let go. -/
theorem Fresh.outside (h : l.Fresh) :
    { l.inSlot subject false target with slot := false, subject := none } =
      { l with target := target } := by
  have hslot := h.slot
  have hsubject := h.subject
  have hkept := h.kept
  cases l
  cases hslot
  cases hsubject
  cases hkept
  rfl

theorem after_inSlot (hkind : l.kind = .ensure) {i : Nat} :
    (l.inSlot (some i) false target).after true = l.inSlot none true target := by
  rw [after, if_pos ⟨hkind, rfl⟩]
  rfl

theorem after_false (l : Caller) : l.after false = l := by
  rw [after, if_neg fun h => by cases h.2]

end Caller

section Ensure

variable {subject target : Option Nat} {gaveUp : Bool}

theorem giveUp_spec (h : l.Fresh) (message : String) :
    (giveUp message).wp (calls (T := T) codec).localised (Asserts codec)
      (fun _ l' => l' = l.inSlot none false target) (l.inSlot none gaveUp target) := by
  rw [giveUp, failed, Prog.wp_bind, Prog.wp_bind]
  refine wp_still rfl ⟨h.running, fun hs => (by cases hs), trivial⟩ fun now => ?_
  rw [Prog.wp_pure, Prog.wp_bind]
  refine wp_server ⟨h.running, fun hs => (by cases hs), rfl, h.idle, rfl, fun hne => absurd rfl hne⟩ ?_
  intro s c b s' l' hr
  cases hr
  rfl

/-- Building a server. On failure it has been given up. -/
theorem build_spec (h : l.Fresh) (hkind : l.kind = .ensure) :
    (build codec).run.wp (calls (T := T) codec).localised (Asserts codec)
      (fun r l' => match r with
        | .ok server => l' = l.inSlot (some server) false target
        | .error _ => ∃ gaveUp, l' = l.inSlot none gaveUp target)
      (l.inSlot none false target) := by
  have hother : l.kind ≠ .other := by
    rw [hkind]
    nofun
  rw [build, Prog.wp_run_bind, Prog.wp_attempt]
  refine wp_still rfl ⟨h.running, fun _ => rfl, rfl, rfl, rfl, h.idle⟩ fun r => ?_
  cases r with
  | error e => exact ⟨false, rfl⟩
  | ok launch =>
      simp only []
      rw [Prog.wp_run_bind, Prog.wp_act]
      refine wp_still rfl ⟨h.running, fun hs => (by cases hs), trivial⟩ fun now => ?_
      simp only []
      rw [Prog.wp_run_bind, Prog.wp_act]
      refine wp_server ⟨h.running, fun hs => (by cases hs), rfl, rfl, rfl, h.idle⟩ ?_
      intro s c server s' l' hr
      cases hr
      simp only []
      rw [Prog.wp_run_bind, Prog.wp_run_mk]
      refine Prog.wp_mono _ ?_ _ (start_spec (h.free hkind) hother)
      rintro r l' hl'
      cases r with
      | ok _ => exact hl'.trans (Caller.after_false _)
      | error e => exact ⟨true, hl'.trans (Caller.after_inSlot hkind)⟩

/-- A call in the slot that is about to leave it, with what it returns. -/
def Served (l : Caller) (r : Except Error Nat) (l' : Caller) : Prop :=
  ∃ subject target, l' = l.inSlot subject false target ∧
    (∀ i, subject = some i → target = some i) ∧ ∀ i, r = .ok i → target = some i

theorem giveUp_served (h : l.Fresh) (message : String) :
    (giveUp message).wp (calls (T := T) codec).localised (Asserts codec) (Served l)
      (l.inSlot none gaveUp target) := by
  refine Prog.wp_mono _ ?_ _ (Prog.wp_and_returns (R := fun r => ∀ i, r ≠ .ok i) _ ?_ _
    (giveUp_spec h message))
  · rintro r _ ⟨hr, rfl⟩
    exact ⟨none, target, rfl, nofun, fun i hi => absurd hi (hr i)⟩
  · exact fun _ _ _ => by nofun

theorem rebuild_spec (h : l.Fresh) (hkind : l.kind = .ensure) :
    (rebuild codec).wp (calls (T := T) codec).localised (Asserts codec) (Served l)
      (l.inSlot none false target) := by
  rw [rebuild, Prog.wp_bind]
  refine Prog.wp_mono _ ?_ _ (build_spec h hkind)
  rintro r l' hl'
  cases r with
  | ok server =>
      cases hl'
      simp only []
      rw [Prog.wp_bind]
      refine wp_server ⟨h.running, fun hs => (by cases hs), rfl, h.idle, rfl, fun _ => rfl⟩ ?_
      intro s c b s' l' hr
      cases hr
      exact ⟨some server, some server, rfl, fun _ hi => hi, fun i hi => by cases hi; rfl⟩
  | error e =>
      rcases hl' with ⟨gaveUp, rfl⟩
      exact giveUp_served h _

theorem serve_spec (h : l.Fresh) (hkind : l.kind = .ensure)
    (hsubject : ∀ i, subject = some i → target = some i) :
    (serve codec).wp (calls (T := T) codec).localised (Asserts codec) (Served l)
      (l.inSlot subject false target) := by
  have hother : l.kind ≠ .other := by
    rw [hkind]
    nofun
  rw [serve, Prog.wp_bind]
  refine wp_server ⟨h.running, fun hs => (by cases hs), rfl, rfl, h.idle, hsubject⟩ ?_
  intro s c cached s' l' hr
  cases hr
  cases hcache : s.cache with
  | empty => exact rebuild_spec h hkind
  | ready existing =>
      simp only []
      rw [Prog.wp_bind]
      refine Prog.wp_mono _ ?_ _ (start_spec (h.free hkind) hother)
      rintro r l' hl'
      cases r with
      | ok _ =>
          exact ⟨some existing, some existing, hl'.trans (Caller.after_false _), fun _ hi => hi,
            fun i hi => by cases hi; rfl⟩
      | error e =>
          have hlost : l' = l.inSlot none true (some existing) :=
            hl'.trans (Caller.after_inSlot hkind)
          subst hlost
          exact giveUp_served h _
  | failed message retryAfter =>
      simp only []
      rw [Prog.wp_bind]
      refine wp_still rfl ⟨h.running, fun hs => (by cases hs), trivial⟩ fun now => ?_
      split
      · exact ⟨none, none, rfl, nofun, nofun⟩
      · exact rebuild_spec h hkind

/-- A call in the slot that has in hand at most the server it has got. -/
def InSlot (l l' : Caller) : Prop :=
  ∃ subject target, l' = l.inSlot subject false target ∧
    ∀ i, subject = some i → target = some i

theorem discardStale_spec (h : l.Fresh) (hkind : l.kind = .ensure)
    (hsubject : ∀ i, subject = some i → target = some i) (requested : List String)
    (idle : Option IdleRule) :
    (discardStale requested idle).wp (calls (T := T) codec).localised (Asserts codec)
      (fun _ l' => InSlot l l') (l.inSlot subject false target) := by
  rw [discardStale, Prog.wp_bind]
  refine wp_server ⟨h.running, fun hs => (by cases hs), rfl, rfl, h.idle, hsubject⟩ ?_
  intro s c cached s' l' hr
  cases hr
  cases hcache : s.cache.server with
  | none => exact ⟨none, none, rfl, nofun⟩
  | some existing =>
      simp only []
      rw [Prog.wp_bind]
      refine wp_quiet (quiet_stale existing requested idle) h.running rfl fun old => ?_
      split
      · rw [Prog.wp_bind]
        refine Prog.wp_mono _ ?_ _ (reset_spec (h.free hkind))
        rintro _ l' hl'
        have hlost : l' = l.inSlot none true (some existing) :=
          hl'.trans (Caller.after_inSlot hkind)
        subst hlost
        refine wp_server ⟨h.running, fun hs => (by cases hs), rfl, h.idle, rfl,
          fun hne => absurd rfl hne⟩ ?_
        intro s c b s' l' hr
        cases hr
        exact ⟨none, some existing, rfl, nofun⟩
      · exact ⟨some existing, some existing, rfl, fun _ hi => hi⟩

theorem lockSlot_spec (h : l.Fresh) :
    (Prog.op .lockSlot : Prog ServerOp Unit).wp (calls (T := T) codec).localised (Asserts codec)
      (fun _ l' => InSlot l l') l := by
  refine wp_server ⟨h.running, fun _ => h.kept, h.slot, h.toIdle⟩ ?_
  intro s c b s' l' hr
  simp only [ServerOp.respond] at hr
  split at hr
  · cases hr
  · cases hr
    exact ⟨s.cache.server, s.cache.server, by rw [Caller.inSlot, ← h.kept], fun _ hi => hi⟩

theorem unlockSlot_spec (h : l.Fresh) (hsubject : ∀ i, subject = some i → target = some i) :
    (Prog.op .unlockSlot : Prog ServerOp Unit).wp (calls (T := T) codec).localised
      (Asserts codec) (fun _ l' => l' = { l with target := target })
      (l.inSlot subject false target) := by
  refine wp_server ⟨h.running, fun hs => (by cases hs), rfl, rfl, h.idle, hsubject⟩ ?_
  intro s c b s' l' hr
  cases hr
  exact h.outside

theorem ensure_spec (h : l.Fresh) (hkind : l.kind = .ensure) (requested : List String)
    (idle : Option IdleRule) :
    (ensure codec requested idle).wp (calls (T := T) codec).localised (Asserts codec)
      (fun r l' => ∃ target, l' = { l with target := target } ∧ ∀ i, r = .ok i → target = some i)
      l := by
  rw [ensure, Prog.wp_bind]
  refine Prog.wp_mono _ ?_ _ (lockSlot_spec h)
  rintro _ _ ⟨subject, target, rfl, hsubject⟩
  rw [Prog.wp_bind]
  refine Prog.wp_mono _ ?_ _ (discardStale_spec h hkind hsubject requested idle)
  rintro _ _ ⟨subject, target, rfl, hsubject⟩
  rw [Prog.wp_bind]
  refine Prog.wp_mono _ ?_ _ (serve_spec h hkind hsubject)
  rintro r _ ⟨subject, target, rfl, hsubject, hr⟩
  rw [Prog.wp_bind]
  refine Prog.wp_mono _ ?_ _ (unlockSlot_spec h hsubject)
  rintro _ _ rfl
  exact ⟨target, rfl, hr⟩

theorem slotStatus_spec (h : l.Fresh) (hkind : l.kind ≠ .ensure) :
    slotStatus.wp (calls (T := T) codec).localised (Asserts codec)
      (fun _ l' => ∃ target, l' = { l with target := target }) l := by
  rw [slotStatus, Prog.wp_bind]
  refine Prog.wp_mono _ ?_ _ (lockSlot_spec h)
  rintro _ _ ⟨subject, target, rfl, hsubject⟩
  rw [Prog.wp_bind]
  refine wp_server ⟨h.running, fun hs => (by cases hs), rfl, rfl, h.idle, hsubject⟩ ?_
  intro s c cached s' l' hr
  cases hr
  rw [Prog.wp_bind]
  refine Prog.wp_mono _ ?_ _ (@unlockSlot_spec _ _ codec l s.cache.server s.cache.server h
    fun _ hi => hi)
  rintro _ _ rfl
  cases hcache : s.cache with
  | empty | failed message retryAfter => exact ⟨_, rfl⟩
  | ready server =>
      have hfree : ({ l with target := some server } : Caller).Free server :=
        { server := h.server, vacant := h.vacant, child := h.child, part := h.part
          ensure := fun hk => absurd hk hkind, others := fun _ => ⟨h.slot, rfl⟩
          kept := h.kept, running := h.running }
      exact Prog.wp_mono _ (fun _ _ h' => ⟨some server, h'⟩) _ (status_spec hfree hkind)

end Ensure

/-! ## Every call -/

theorem fresh_fresh (call : Call V T) : call.fresh.Fresh := by
  cases call <;> exact
    { server := rfl, vacant := rfl, child := rfl, part := rfl, slot := rfl, subject := rfl
      kept := rfl, running := rfl }

/-- A call on a server may lock it. -/
theorem fresh_free (call : Call V T) {i : Nat} (hkind : call.fresh.kind ≠ .ensure)
    (htarget : call.fresh.target = some i) : call.fresh.Free i :=
  { (fresh_fresh call) with
    ensure := fun hk => absurd hk hkind
    others := fun _ => ⟨(fresh_fresh call).slot, htarget⟩ }

/-- What a call returns with: nothing in its hands, and the server it hands out is
    one it has got. -/
def Done (r : Reply T) (l : Caller) : Prop :=
  l.Fresh ∧ ∀ i, r.server = some i → l.target = some i

/-- Every call keeps to what it asserts. -/
theorem main_spec (codec : ServerCodec V) (call : Call V T) :
    (call.main codec).wp (calls (T := T) codec).localised (Asserts codec) Done call.fresh := by
  have hfresh : ∀ target, Caller.Fresh { call.fresh with target := target } := fun target =>
    { (fresh_fresh call) with }
  have hother : ∀ {r : Reply T} {l' : Caller}, r.server = none →
      (∃ target, l' = { call.fresh with target := target }) → Done r l' := by
    rintro r l' hr ⟨target, rfl⟩
    exact ⟨hfresh target, fun i hi => by rw [hr] at hi; cases hi⟩
  cases call with
  | ensure requested idle =>
      rw [Call.main, Prog.wp_bind]
      refine Prog.wp_mono _ ?_ _ (ensure_spec (fresh_fresh (V := V) (T := T)
        (.ensure requested idle)) rfl requested idle)
      rintro r _ ⟨target, rfl, hr⟩
      refine ⟨hfresh target, fun i hi => hr i ?_⟩
      cases r with
      | ok j =>
          cases hi
          rfl
      | error e => cases hi
  | slotStatus =>
      rw [Call.main, Prog.wp_bind]
      exact Prog.wp_mono _ (fun _ _ h' => hother rfl h') _
        (slotStatus_spec (fresh_fresh (V := V) (T := T) .slotStatus) nofun)
  | start server =>
      rw [Call.main, Prog.wp_bind]
      refine Prog.wp_mono _ ?_ _ (start_spec
        (fresh_free (V := V) (T := T) (.start server) nofun rfl) nofun)
      rintro r l' hl'
      refine hother rfl ⟨some server, ?_⟩
      cases r with
      | ok _ | error _ => exact hl'
  | request server method params decode lines =>
      rw [Call.main, Prog.wp_bind]
      exact Prog.wp_mono _ (fun _ _ h' => hother rfl ⟨some server, h'⟩) _ (request_spec
        (fresh_free (.request server method params decode lines) nofun rfl) rfl method
        params decode lines)
  | reset server =>
      rw [Call.main, Prog.wp_bind]
      exact Prog.wp_mono _ (fun _ _ h' => hother rfl ⟨some server, h'⟩) _ (reset_spec
        (fresh_free (V := V) (T := T) (.reset server) nofun rfl))
  | status server =>
      rw [Call.main, Prog.wp_bind]
      exact Prog.wp_mono _ (fun _ _ h' => hother rfl ⟨some server, h'⟩) _ (status_spec
        (fresh_free (V := V) (T := T) (.status server) nofun rfl) nofun)

end TinyRuntime.PyServer
