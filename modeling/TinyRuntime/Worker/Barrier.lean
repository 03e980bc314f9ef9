import TinyRuntime.Lib.Rely
import TinyRuntime.Worker.Book

/-!
# Stop and Shutdown as Barriers

What an answer of `stop` and of `shutdown` says.

The two calls give up slots, and before they do they wait for the supervisors to
publish that they are closed. In between the book and every supervisor go on, so what
a call has found out is used only as far as it stays true: a supervisor that has closed
stays closed, a manager that is shut down stays so and enters no slot any more.

## Main definitions

* `Manager.Left`: A handle whose slot is gone, and whose supervisor is finished.
* `ManagerCall.Ensures`: What an answer says.

## Theorems

* `manager_rely`: Every call asserts what is granted and ensures what its answer says.
* `stop_barrier`, `shutdown_barrier`: The two barriers.
-/

namespace TinyRuntime

open Concurrent (Rely wp_relying)

variable {V : Type} [BEq V] {codec : Codec V}

namespace Manager

/-- A handle that has left the book, with a supervisor that is finished or none. -/
structure Left (m : Manager V) (cell : Nat) : Prop where
  issued : cell < m.issued
  made : cell < m.cells.length
  gone : ∀ s ∈ m.slots, s.1 ≠ m.handle (cell + 1) ∧ s.2.cell ≠ cell
  shutdown : m.Shut cell ∨ m.supervised cell = none

theorem Left.onward {m m' : Manager V} {cell : Nat} (h : m.Left cell)
    (ho : m.Onward codec m') : m'.Left cell where
  issued := Nat.lt_of_lt_of_le h.issued ho.later.issued
  made := Nat.lt_of_lt_of_le h.made ho.grows
  gone s' hs' := by
    rw [ho.later.handle]
    constructor
    · rcases ho.later.slots s' hs' with hold | ⟨n, hn, _, heq⟩
      · rcases List.mem_map.mp hold with ⟨s, hs, hname⟩
        exact hname ▸ (h.gone s hs).1
      · intro hsame
        have hn' := handle_injective (heq.symm.trans hsame)
        have hlt := h.issued
        omega
    · rcases ho.slots s' hs' with ⟨s, hs, _, hcell, _⟩ | ⟨_, hnew⟩
      · rw [hcell]
        exact (h.gone s hs).2
      · exact Nat.ne_of_gt (Nat.lt_of_lt_of_le h.made hnew)
  shutdown := by
    rcases h.shutdown with hshut | hnone
    · exact .inl (hshut.onward ho)
    · exact .inr (ho.vacant cell h.made hnone (.inr fun s hs => (h.gone s hs).2))

omit [BEq V] in
theorem Left.slot {m : Manager V} {cell : Nat} (h : m.Left cell) :
    m.slot (m.handle (cell + 1)) = none := by
  refine List.lookup_eq_none_iff.mpr fun s hs => ?_
  rw [bne_iff_ne]
  exact fun heq => (h.gone s hs).1 heq.symm

omit [BEq V] in
theorem Left.finished {m : Manager V} {cell : Nat} (h : m.Left cell) {sv : Supervisor V}
    (hsv : m.supervised cell = some sv) : sv.Finished := by
  rcases h.shutdown with ⟨sv', hsv', _, hf⟩ | hnone
  · cases hsv.symm.trans hsv'
    exact hf
  · cases hsv.symm.trans hnone

/-- The supervisor of a handle that has left the book does nothing any more. -/
theorem Left.still {m m' : Manager V} {cell : Nat} (h : m.Left cell) (ho : m.Onward codec m')
    {sv' : Supervisor V} (hsv' : m'.supervised cell = some sv') :
    ∃ sv, m.supervised cell = some sv ∧ sv.world.Alike sv'.world := by
  rcases h.shutdown with ⟨sv, hsv, _, hf⟩ | hnone
  · rcases ho.supervised cell sv hsv with ⟨sv'', hsv'', hon⟩
    cases hsv'.symm.trans hsv''
    exact ⟨sv, hsv, (hon.finished hf).1⟩
  · rw [ho.vacant cell h.made hnone (.inr fun s hs => (h.gone s hs).2)] at hsv'
    cases hsv'

end Manager

/-- What an answer says of the book and the supervisors. -/
def ManagerCall.Ensures (call : ManagerCall V) (reply : ManagerReply V) (m : Manager V) : Prop :=
  match call, reply with
  | .stop handle, .outcome o => o.kind = .complete →
      ∃ cell, handle = m.handle (cell + 1) ∧ m.Left cell
  | .shutdown, .outcome o => o.kind = .complete →
      m.terminal = true ∧ m.slots = [] ∧ ∀ cell < m.cells.length, m.Left cell
  | _, _ => True

theorem ManagerCall.Ensures.onward {call : ManagerCall V} {reply : ManagerReply V}
    {m m' : Manager V} (h : call.Ensures reply m) (ho : m.Onward codec m') :
    call.Ensures reply m' := by
  unfold Ensures at h ⊢
  split
  · intro hk
    rcases h hk with ⟨cell, hname, hleft⟩
    exact ⟨cell, hname.trans (ho.later.handle _).symm, hleft.onward ho⟩
  · intro hk
    rcases h hk with ⟨hterminal, hslots, hall⟩
    refine ⟨ho.terminal hterminal, List.eq_nil_iff_forall_not_mem.mpr fun s' hs' => ?_,
      fun cell hcell => ?_⟩
    · rcases ho.slots s' hs' with ⟨s, hs, _⟩ | ⟨hopen, _⟩
      · rw [hslots] at hs
        cases hs
      · rw [hterminal] at hopen
        cases hopen
    · exact (hall cell (ho.sealed hterminal ▸ hcell)).onward ho
  · trivial

/-! ## The calls -/

section Calls

variable {site : ManagerSite V}

/-- What surrounds a call. -/
noncomputable abbrev Manager.around (site : ManagerSite V) :=
  (manager site).relying (Manager.Kept site.codec) (Manager.Onward site.codec)

/-- The effects that give up no slot. -/
def BookOp.free {β : Type} (op : BookOp V β) : Prop :=
  match op with
  | .remove _ | .clear => False
  | _ => True

omit [BEq V] in
theorem BookOp.free.grants {β : Type} {op : BookOp V β} (h : op.free) (w : Manager V × Caller V) :
    Manager.Grants op w := by
  cases op with
  | remove | clear => cases h
  | _ => trivial

/-- A call that gives up no slot, and whose answer says nothing. -/
theorem wp_free {α : Type} {p : Prog (BookOp V) α} (hp : p.Uses fun _ op => op.free)
    {Q : α → Manager V × Caller V → Prop} (hQ : ∀ a w, Q a w) (w : Manager V × Caller V) :
    p.wp (Manager.around site) (fun _ op w => Manager.Grants op w) Q w := by
  have hkeep : p.wp (Manager.around site) (Prog.always fun _ => True) (fun _ _ => True) w :=
    Prog.wp_uses _ (fun _ _ _ _ _ _ _ _ _ => trivial) p w hp trivial
  exact Prog.wp_mono p (fun a t _ => hQ a t) w
    (Prog.wp_weaken p (fun _ _ t ht => ht.2.grants t) w (Prog.wp_and_uses p w hkeep hp))

omit [BEq V] in
theorem free_prepareInner (handle : WorkerHandle) (plan : WorkerPlan) (cached : Option Cached) :
    (ManagerCall.prepareInner (V := V) handle plan cached).Uses fun _ op => op.free := by
  unfold ManagerCall.prepareInner
  split
  · trivial
  · refine Prog.uses_bind ⟨trivial, fun _ => trivial⟩ fun r => ?_
    split
    · trivial
    · exact ⟨trivial, fun _ => trivial⟩

omit [BEq V] in
theorem free_runSubmit (handle : WorkerHandle) (command : Command V) :
    (ManagerCall.runSubmit handle command).Uses fun _ op => op.free := by
  refine Prog.uses_bind ⟨trivial, fun _ => trivial⟩ fun r => ?_
  split
  · trivial
  · refine Prog.uses_bind ⟨trivial, fun _ => trivial⟩ fun r => ?_
    split <;> trivial

omit [BEq V] in
theorem free_runRequest (request : WorkerRequest V) :
    (ManagerCall.runRequest site request).Uses fun _ op => op.free := by
  unfold ManagerCall.runRequest
  dsimp only
  split
  · trivial
  · refine Prog.uses_bind ⟨trivial, fun _ => trivial⟩ fun r => ?_
    split
    · trivial
    · refine Prog.uses_bind (Prog.uses_cut trivial (free_runSubmit _ _)) fun r => ?_
      split <;> trivial

omit [BEq V] in
theorem free_runPrepareCached (request : WorkerPrepareCached) :
    (ManagerCall.runPrepareCached site request).Uses fun _ op => op.free := by
  unfold ManagerCall.runPrepareCached
  split
  · trivial
  · split
    · trivial
    · exact free_prepareInner _ _ _

/-- The calls that give up no slot, and whose answers say nothing. -/
def ManagerCall.Plain : ManagerCall V → Prop
  | .stop _ | .shutdown => False
  | _ => True

omit [BEq V] in
theorem free_run (site : ManagerSite V) (call : ManagerCall V) (h : call.Plain) :
    (call.run site).Uses fun _ op => op.free := by
  cases call with
  | stop | shutdown => cases h
  | reserve | status => exact ⟨trivial, fun _ => trivial⟩
  | prepare request => exact Prog.uses_bind (free_prepareInner _ _ _) fun _ => trivial
  | prepareCached request => exact Prog.uses_bind (free_runPrepareCached _) fun _ => trivial
  | start handle => exact Prog.uses_bind (free_runSubmit _ _) fun _ => trivial
  | request request => exact Prog.uses_bind (free_runRequest _) fun _ => trivial

theorem wp_plainCall (call : ManagerCall V) (h : call.Plain) (w : Manager V × Caller V) :
    (call.run site).wp (Manager.around site) (fun _ op w => Manager.Grants op w)
      (fun reply w => call.Ensures reply w.1) w := by
  refine wp_free (free_run site call h) (fun reply w => ?_) w
  cases call with
  | stop | shutdown => cases h
  | _ => trivial

omit [BEq V] in
theorem missing_incomplete (m : Manager V) (handle : WorkerHandle) :
    (m.missing handle).kind ≠ .complete := by
  rw [Manager.missing, outcome]
  split <;> exact fun h => by cases h

omit [BEq V] in
theorem Manager.slots_remove {m : Manager V} {handle : WorkerHandle}
    {s : WorkerHandle × Slot} (hs : s ∈ (m.remove handle).slots) : s ∈ m.slots ∧ s.1 ≠ handle := by
  rcases List.mem_filter.mp hs with ⟨hmem, hkeep⟩
  refine ⟨hmem, fun heq => ?_⟩
  change (!decide (s.1 = handle)) = true at hkeep
  rw [decide_eq_true heq] at hkeep
  cases hkeep

/-- A slot removed whose supervisor has closed, or that never had one. -/
theorem Manager.left_remove {m : Manager V} {cell : Nat} (hk : m.Kept codec)
    (hissued : cell < m.issued) (hover : m.Shut cell ∨ m.supervised cell = none) :
    (m.remove (m.handle (cell + 1))).Left cell := by
  have hspent : m.Spent cell := by
    rcases hover with hshut | hnone
    · exact hshut.spent
    · intro sv hsv
      cases hsv.symm.trans hnone
  have hstirs := stirs_remove hk rfl hspent
  refine ⟨hissued, ?_, fun s hs => ?_, ?_⟩
  · rw [hstirs.length, hk.cells]
    exact hissued
  · rcases slots_remove hs with ⟨hmem, hne⟩
    refine ⟨hne, fun hcell => hne ?_⟩
    rw [(hk.named s hmem).2, hcell]
  · exact hover.imp (fun h => h.onward hstirs.onward) hstirs.supervised_none

/-- The first section of `stop`. -/
theorem stop_section {m m' : Manager V} {handle : WorkerHandle}
    {r : WorkerOutcome V ⊕ Nat} (hk : m.Kept codec) (h : m.stop handle = (r, m')) :
    match r with
    | .inl o => o.kind = .complete → ∃ cell, handle = m'.handle (cell + 1) ∧ m'.Left cell
    | .inr cell => handle = m'.handle (cell + 1) ∧ cell < m'.issued := by
  rw [Manager.stop] at h
  split at h
  · cases h
    exact fun hc => absurd hc (missing_incomplete m handle)
  · rename_i slot hslot
    have hmem := Manager.mem_of_slot hslot
    have hname : handle = m.handle (slot.cell + 1) := (hk.named _ hmem).2
    have hissued : slot.cell < m.issued := (hk.named _ hmem).1
    have hsignal : Manager.Stirs codec m (m.modify slot.cell Manager.signal) :=
      Manager.stirs_modify fun c _ => c.steps_signal
    dsimp only at h
    split at h
    · rename_i hcommands
      cases h
      have hnone : m.supervised slot.cell = none := by
        cases hplan : slot.plan with
        | none => exact (hk.bare _ hmem hplan).2
        | some plan =>
            have htrue := (hk.spawned _ hmem plan hplan).1
            rw [htrue] at hcommands
            cases hcommands
      have hleft := Manager.left_remove (hsignal.kept hk) hissued
        (.inr (hsignal.supervised_none hnone))
      exact fun _ => ⟨slot.cell, hname, hname ▸ hleft⟩
    · cases h
      exact ⟨hname, hissued⟩

/-- Waiting for a supervisor that closes. -/
theorem shut_of_waitClosed {m : Manager V} {cell : Nat} (hk : m.Kept codec)
    (h : m.waitClosed cell = some true) : m.Shut cell := by
  rw [Manager.waitClosed] at h
  split at h
  · rename_i hclosed
    rw [Manager.watch] at hclosed
    split at hclosed
    · rename_i c hc
      cases hs : c.supervisor with
      | some sv =>
          rw [Cell.watch, hs] at hclosed
          exact hk.shut (Manager.supervised_some.mpr ⟨c, hc, hs⟩) hclosed
      | none =>
          -- Nobody closes a cell without a supervisor.
          rw [Cell.watch, hs] at hclosed
          rcases hk.blank cell c hc hs with ⟨b, hstate⟩
          rw [hstate] at hclosed
          cases hclosed
    · cases hclosed
  · split at h
    · cases h
    · split at h <;> cases h

theorem wp_runStop (handle : WorkerHandle) (w : Manager V × Caller V) :
    (ManagerCall.runStop handle).wp (Manager.around site) (fun _ op w => Manager.Grants op w)
      (fun o w => (ManagerCall.stop handle).Ensures (.outcome o) w.1) w := by
  rcases w with ⟨m, l⟩
  rw [ManagerCall.runStop, Prog.wp_bind, wp_relying]
  refine ⟨trivial, fun m₁ c r m₂ l₂ _ hk hr => ?_⟩
  have hsection : m₁.stop handle = (r, m₂) := by
    simp only [manager, BookOp.respond] at hr
    split at hr <;> rename_i heq <;> cases hr <;> exact heq
  have hfirst := stop_section hk hsection
  cases r with
  | inl o => exact hfirst
  | inr cell =>
      rcases hfirst with ⟨hname, hissued⟩
      dsimp only
      rw [Prog.wp_bind, wp_relying]
      refine ⟨trivial, fun m₃ c closed m₄ l₄ ho hk₃ hr => ?_⟩
      rcases Option.map_eq_some_iff.mp hr with ⟨closed, hwait, heq⟩
      cases heq
      cases closed with
      | false => exact fun h => by cases h
      | true =>
          have hshut := shut_of_waitClosed hk₃ hwait
          have hname₃ : handle = m₃.handle (cell + 1) := hname.trans (ho.later.handle _).symm
          simp only [↓reduceIte]
          rw [Prog.wp_bind, wp_relying]
          refine ⟨⟨cell, hname₃, hshut⟩, fun m₅ c _ m₆ l₆ ho' hk₅ hr => ?_⟩
          cases hr
          intro _
          have hname₅ : handle = m₅.handle (cell + 1) := hname₃.trans (ho'.later.handle _).symm
          have hissued₅ : cell < m₅.issued :=
            Nat.lt_of_lt_of_le hissued (Nat.le_trans ho.later.issued ho'.later.issued)
          have hleft := Manager.left_remove hk₅ hissued₅ (.inl (hshut.onward ho'))
          exact ⟨cell, hname₅, hname₅ ▸ hleft⟩

/-- What `shutdown` waits for covers every supervisor in the book. -/
def Manager.Covered (m : Manager V) (cells : List Nat) : Prop :=
  m.terminal = true ∧ ∀ s ∈ m.slots, s.2.commands = true → s.2.cell ∈ cells

theorem Manager.Covered.onward {m m' : Manager V} {cells : List Nat} (h : m.Covered cells)
    (ho : m.Onward codec m') : m'.Covered cells := by
  refine ⟨ho.terminal h.1, fun s' hs' => ?_⟩
  rcases ho.slots s' hs' with ⟨s, hs, _, _, hsame⟩ | ⟨hopen, _⟩
  · rw [hsame (.inr h.1)]
    exact h.2 s hs
  · rw [h.1] at hopen
    cases hopen

theorem wp_waitAll {covered : List Nat} (cells : List Nat) : ∀ (complete : Bool) (m : Manager V)
    (l : Caller V), m.Covered covered →
    (ManagerCall.waitAll cells complete).wp (Manager.around site)
      (fun _ op w => Manager.Grants op w)
      (fun done w => w.1.Covered covered ∧ (done = true → complete = true ∧
        ∀ cell ∈ cells, w.1.Shut cell)) (m, l) := by
  -- The cells waited for so far stay shut while it waits for the others.
  suffices hstrong : ∀ (seen : List Nat) (complete : Bool) (m : Manager V) (l : Caller V),
      m.Covered covered → (complete = true → ∀ cell ∈ seen, m.Shut cell) →
      (ManagerCall.waitAll cells complete).wp (Manager.around site)
        (fun _ op w => Manager.Grants op w)
        (fun done w => w.1.Covered covered ∧ (done = true → complete = true ∧
          ∀ cell ∈ seen ++ cells, w.1.Shut cell)) (m, l) by
    intro complete m l hc
    have h := hstrong [] complete m l hc fun _ _ hcell => by cases hcell
    rwa [List.nil_append] at h
  induction cells with
  | nil =>
      intro seen complete m l hc hseen
      rw [List.append_nil]
      exact ⟨hc, fun hdone => ⟨hdone, hseen hdone⟩⟩
  | cons cell cells ih =>
      intro seen complete m l hc hseen
      rw [ManagerCall.waitAll, Prog.wp_bind, wp_relying]
      refine ⟨trivial, fun m₁ c closed m₂ l₂ ho hk hr => ?_⟩
      rcases Option.map_eq_some_iff.mp hr with ⟨closed, hwait, heq⟩
      cases heq
      have hnext : (complete && closed) = true → ∀ i ∈ seen ++ [cell], m₁.Shut i := by
        intro hboth i hi
        rcases Bool.and_eq_true_iff.mp hboth with ⟨hcomplete, hclosed⟩
        rcases List.mem_append.mp hi with hi | hi
        · exact (hseen hcomplete i hi).onward ho
        · rw [List.mem_singleton.mp hi]
          exact shut_of_waitClosed hk (hclosed ▸ hwait)
      refine Prog.wp_mono _ ?_ _ (ih (seen ++ [cell]) _ m₁ _ (hc.onward ho) hnext)
      rintro done w ⟨hcover, hdone⟩
      rw [List.append_assoc, List.singleton_append] at hdone
      exact ⟨hcover, fun h => ⟨(Bool.and_eq_true_iff.mp (hdone h).1).1, (hdone h).2⟩⟩

theorem Manager.left_clear {m : Manager V} {cells : List Nat} (hk : m.Kept codec)
    (hc : m.Covered cells) (hshut : ∀ cell ∈ cells, m.Shut cell) :
    ∀ cell < m.clear.cells.length, m.clear.Left cell := by
  have hstirs := stirs_clear hk fun s hs hcommands => hshut _ (hc.2 s hs hcommands)
  intro cell hcell
  have hmade : cell < m.cells.length := hstirs.length ▸ hcell
  refine ⟨hk.cells ▸ hmade, hcell, fun s hs => ?_, ?_⟩
  · have hnone : m.clear.slots = [] := List.filter_eq_nil_iff.mpr fun _ _ h => by cases h
    rw [hnone] at hs
    cases hs
  · cases hsv : m.supervised cell with
    | none => exact .inr (hstirs.supervised_none hsv)
    | some sv =>
        refine .inl (Shut.onward ?_ hstirs.onward)
        cases hclosed : sv.world.state.closed with
        | true => exact hk.shut hsv hclosed
        | false =>
            -- One that is at work has a slot, and was waited for.
            rcases hk.admitted cell sv hsv hclosed with ⟨s, hs, rfl⟩
            cases hplan : s.2.plan with
            | none => cases hsv.symm.trans (hk.bare s hs hplan).2
            | some plan => exact hshut _ (hc.2 s hs (hk.spawned s hs plan hplan).1)

theorem wp_runShutdown (w : Manager V × Caller V) :
    (ManagerCall.runShutdown).wp (Manager.around site) (fun _ op w => Manager.Grants op w)
      (fun o w => (ManagerCall.shutdown : ManagerCall V).Ensures (.outcome o) w.1) w := by
  rcases w with ⟨m, l⟩
  rw [ManagerCall.runShutdown, Prog.wp_bind, wp_relying]
  refine ⟨trivial, fun m₁ c cells m₂ l₂ _ hk hr => ?_⟩
  cases hr
  have hcover : m₁.shutdown.2.Covered m₁.shutdown.1 := by
    refine ⟨rfl, fun s hs hcommands => ?_⟩
    exact List.mem_map.mpr ⟨s, List.mem_filter.mpr ⟨hs, hcommands⟩, rfl⟩
  rw [Prog.wp_bind]
  refine Prog.wp_mono _ ?_ _ (wp_waitAll m₁.shutdown.1 true _ _ hcover)
  rintro done ⟨m₃, l₃⟩ ⟨hcover, hdone⟩
  cases done with
  | false => exact fun h => by cases h
  | true =>
      have hshut := (hdone rfl).2
      simp only [↓reduceIte]
      rw [Prog.wp_bind, wp_relying]
      refine ⟨⟨hcover.1, fun s hs hcommands => hshut _ (hcover.2 s hs hcommands)⟩, ?_⟩
      intro m₄ c _ m₅ l₅ ho hk₄ hr
      cases hr
      intro _
      have hcover₄ := hcover.onward ho
      refine ⟨hcover₄.1, List.filter_eq_nil_iff.mpr (fun _ _ h => by cases h), ?_⟩
      exact Manager.left_clear hk₄ hcover₄ fun cell hcell => (hshut cell hcell).onward ho

/-- Every call asserts what is granted where it gives up a slot, and ensures what its
    answer says. -/
theorem manager_rely (site : ManagerSite V) :
    Rely (manager site) (Manager.Kept site.codec) (Manager.Onward site.codec)
      (fun _ _ op w => Manager.Grants op w) (fun call reply w => call.Ensures reply w.1)
      (fun call m l => ∀ reply, l.result = some reply → call.Ensures reply m) where
  refl := .refl
  trans _ _ _ := .trans
  asserted _ _ op m m' l ho h := by
    cases op with
    | remove handle =>
        rcases h with ⟨cell, hname, hshut⟩
        exact ⟨cell, hname.trans (ho.later.handle _).symm, hshut.onward ho⟩
    | clear =>
        refine ⟨ho.terminal h.1, fun s' hs' => ?_⟩
        rcases ho.slots s' hs' with ⟨s, hs, _, _, hsame⟩ | ⟨hopen, _⟩
        · rw [hsame (.inr h.1)]
          exact fun hcommands => (h.2 s hs hcommands).onward ho
        · rw [h.1] at hopen
          cases hopen
    | _ => trivial
  returned _ _ _ _ _ ho h := h.onward ho
  ended _ _ _ _ ho h reply hreply := (h reply hreply).onward ho
  main call m _ := by
    cases call with
    | stop handle =>
        refine (Prog.wp_bind ..).mpr ?_
        exact wp_runStop handle (m, _)
    | shutdown =>
        refine (Prog.wp_bind ..).mpr ?_
        exact wp_runShutdown (m, _)
    | reserve => exact wp_plainCall .reserve trivial _
    | prepare request => exact wp_plainCall (.prepare request) trivial _
    | prepareCached request => exact wp_plainCall (.prepareCached request) trivial _
    | start handle => exact wp_plainCall (.start handle) trivial _
    | request request => exact wp_plainCall (.request request) trivial _
    | status handle => exact wp_plainCall (.status handle) trivial _
  perform _ _ _ _ _ _ _ _ _ hk hop hr := Manager.kept_respond hk hop hr
  finish _ reply _ _ h reply' hreply := by
    cases hreply
    exact h
  drop _ _ _ _ _ _ hreply := by cases hreply
  orphan _ _ _ _ _ _ ho := by cases ho
  release _ _ _ _ _ _ _ hr := by cases hr
  env _ _ _ hk hr := Manager.kept_env hk hr

/-! ## The barriers -/

/-- The outcome that a call has returned. -/
def answered (g : Manager.Config V) (i : Nat) : Option (WorkerOutcome V) :=
  match g.calls[i]? with
  | some { prog := none, loc := { result := some (.outcome o), .. } } => some o
  | _ => none

variable {nonce : String} {g g₁ g₂ g₃ : Manager.Config V}
  {es fs : List (Concurrent.Step (ManagerCall V) (ManagerChoice V))}

theorem kept_init : ∀ m : Manager V, (∃ now, m = Manager.new nonce now) → m.Kept codec := by
  rintro m ⟨now, rfl⟩
  exact Manager.kept_new nonce now

/-- What holds of the book and the supervisors of a manager at any time. -/
theorem Manager.kept (hg : Transition.Reachable (managers site nonce) g) :
    g.shared.Kept site.codec :=
  ((manager_rely site).reachable kept_init hg).1

theorem Manager.onward_run (hg : Transition.Reachable (managers site nonce) g)
    (hrun : Transition.Run (managers site nonce) g es g₁) :
    g.shared.Onward site.codec g₁.shared := by
  rcases (manager_rely site).reachable kept_init hg with ⟨hk, as, heach⟩
  exact ((manager_rely site).run hk heach hrun).2.1

omit [BEq V] in
theorem answered_some {i : Nat} {o : WorkerOutcome V} (h : answered g i = some o) :
    ∃ l, g.calls[i]? = some { prog := none, loc := l } ∧ l.result = some (.outcome o) := by
  rw [answered] at h
  split at h
  · rename_i waits seen o' ht
    cases h
    exact ⟨_, ht, rfl⟩
  · cases h

/-- What the answer of a call says holds from when it has returned on. -/
theorem ensures_called (hg : Transition.Reachable (managers site nonce) g) {call : ManagerCall V}
    (hcall : (managers site nonce).step g (.call call) g₁)
    (hrun : Transition.Run (managers site nonce) g₁ es g₂) {o : WorkerOutcome V}
    (ho : answered g₂ g.calls.length = some o) : call.Ensures (.outcome o) g₂.shared := by
  rcases answered_some ho with ⟨l, ht, hresult⟩
  exact ((manager_rely site).called kept_init hg hcall hrun ht).2 _ hresult

/-- **Stop is a barrier.** When a call of `stop` has returned `Complete`, then for good:
    the handle has no slot, and its supervisor, if it ever had one, is finished. It has
    reaped its child, removed its staging directory, released the lock of its cache and
    removed its directory, and it performs no effect any more. This holds for any other
    calls, dropped anywhere, any signals and any number of failed cleanups. -/
theorem stop_barrier (site : ManagerSite V) (nonce : String)
    (hg : Transition.Reachable (managers site nonce) g) {handle : WorkerHandle}
    (hcall : (managers site nonce).step g (.call (.stop handle)) g₁)
    (hrun : Transition.Run (managers site nonce) g₁ es g₂) {o : WorkerOutcome V}
    (ho : answered g₂ g.calls.length = some o) (hkind : o.kind = .complete)
    (hlater : Transition.Run (managers site nonce) g₂ fs g₃) :
    ∃ cell, handle = g₂.shared.handle (cell + 1) ∧ g₃.shared.slot handle = none ∧
      ∀ s, g₃.shared.supervised cell = some s → s.Finished ∧
        ∃ s₂, g₂.shared.supervised cell = some s₂ ∧ s₂.Finished ∧ s₂.world.Alike s.world := by
  rcases ensures_called hg hcall hrun ho hkind with ⟨cell, hname, hleft⟩
  have hg₂ := Transition.reachable_run (Transition.reachable_step hg hcall) hrun
  have honward := Manager.onward_run hg₂ hlater
  have hleft' := hleft.onward honward
  refine ⟨cell, hname, ?_, fun s hs => ?_⟩
  · rw [hname, ← honward.later.handle]
    exact hleft'.slot
  · rcases hleft.still honward hs with ⟨s₂, hs₂, halike⟩
    exact ⟨hleft'.finished hs, s₂, hs₂, hleft.finished hs₂, halike⟩

/-- **Shutdown is a barrier.** When a call of `shutdown` has returned `Complete`, then
    for good: no handle has a slot, no supervisor is ever spawned, and every one there
    ever was is finished and performs no effect any more. -/
theorem shutdown_barrier (site : ManagerSite V) (nonce : String)
    (hg : Transition.Reachable (managers site nonce) g)
    (hcall : (managers site nonce).step g (.call .shutdown) g₁)
    (hrun : Transition.Run (managers site nonce) g₁ es g₂) {o : WorkerOutcome V}
    (ho : answered g₂ g.calls.length = some o) (hkind : o.kind = .complete)
    (hlater : Transition.Run (managers site nonce) g₂ fs g₃) :
    g₃.shared.slots = [] ∧ g₃.shared.cells.length = g₂.shared.cells.length ∧
      ∀ cell s, g₃.shared.supervised cell = some s → s.Finished ∧
        ∃ s₂, g₂.shared.supervised cell = some s₂ ∧ s₂.Finished ∧ s₂.world.Alike s.world := by
  rcases ensures_called hg hcall hrun ho hkind with ⟨hterminal, hslots, hall⟩
  have hg₂ := Transition.reachable_run (Transition.reachable_step hg hcall) hrun
  have honward := Manager.onward_run hg₂ hlater
  have hsealed := honward.sealed hterminal
  refine ⟨?_, hsealed, fun cell s hs => ?_⟩
  · refine List.eq_nil_iff_forall_not_mem.mpr fun s' hs' => ?_
    rcases honward.slots s' hs' with ⟨s, hs, _⟩ | ⟨hopen, _⟩
    · rw [hslots] at hs
      cases hs
    · rw [hterminal] at hopen
      cases hopen
  · have hcell : cell < g₂.shared.cells.length := by
      rcases Manager.supervised_some.mp hs with ⟨c, hc, _⟩
      exact hsealed ▸ (List.getElem?_eq_some_iff.mp hc).1
    have hleft := hall cell hcell
    rcases hleft.still honward hs with ⟨s₂, hs₂, halike⟩
    exact ⟨(hleft.onward honward).finished hs, s₂, hs₂, hleft.finished hs₂, halike⟩

end Calls

/-! ## A worker that is stopped -/

/-- A plan that is accepted. -/
def soundPlan : WorkerPlan :=
  { plainPlan with
    command := { executable := "/worker", args := [], env := [], timeoutMs := none } }

/-- A worker is prepared, breaks off, and releases what it owns. -/
def closingRun : List (Concurrent.Step (ManagerCall Unit) (ManagerChoice Unit)) :=
  [.call .reserve, .perform 0 .pass, .call (.prepare { handle := "n:1", plan := soundPlan }),
    .perform 1 .pass, .env (.supervise 0 .unwind)] ++
  List.replicate 9 (.env (.supervise 0 (.perform .pass))) ++
  [.env (.supervise 0 (.perform (.flag true))), .env (.supervise 0 (.perform .pass))]

/-- A call made after that run, and what it has answered after some steps. -/
theorem closingRun_reachable (call : ManagerCall Unit)
    (es : List (Concurrent.Step (ManagerCall Unit) (ManagerChoice Unit)))
    (hrun : (Transition.play (manager bareSite).move { shared := Manager.new "n" 0, calls := [] }
      (closingRun ++ .call call :: es)).map (fun g => ((answered g 2).map WorkerOutcome.kind,
        (g.shared.supervised 0).isSome, g.shared.handle 1)) = some (some .complete, true, "n:1")) :
    ∃ (g g₁ g₂ : Manager.Config Unit) (o : WorkerOutcome Unit) (s : Supervisor Unit),
      Transition.Reachable (managers bareSite "n") g ∧
        (managers bareSite "n").step g (.call call) g₁ ∧
        Transition.Run (managers bareSite "n") g₁ es g₂ ∧
        answered g₂ g.calls.length = some o ∧ o.kind = .complete ∧
        g₂.shared.supervised 0 = some s ∧ g₂.shared.handle 1 = "n:1" := by
  rcases Option.map_eq_some_iff.mp hrun with ⟨g₂, hplay, hparts⟩
  rcases Prod.mk.inj hparts with ⟨hanswer, hrest⟩
  rcases Prod.mk.inj hrest with ⟨hsome, hhandle⟩
  rcases Option.map_eq_some_iff.mp hanswer with ⟨o, ho, hkind⟩
  rcases Option.isSome_iff_exists.mp hsome with ⟨s, hs⟩
  rw [Transition.play_append] at hplay
  rcases Option.bind_eq_some_iff.mp hplay with ⟨g, hg, hrest⟩
  rcases Option.bind_eq_some_iff.mp hrest with ⟨g₁, hcall, hrest⟩
  have hlength : g.calls.length = 2 := by
    have hcount : (Transition.play (manager bareSite).move
        { shared := Manager.new "n" 0, calls := [] } closingRun).map (fun g =>
          g.calls.length) = some 2 := by rfl
    rw [hg] at hcount
    exact Option.some.inj hcount
  exact ⟨g, g₁, g₂, o, s, Concurrent.reachable_play ⟨0, rfl⟩ hg,
    ⟨Concurrent.Limits.none_allow _ _, hcall⟩, Concurrent.run_play hrest, hlength ▸ ho, hkind, hs,
    hhandle⟩

/-- A worker that was being prepared is stopped. -/
theorem stop_barrier_stopped : ∃ (g : Manager.Config Unit) (s : Supervisor Unit),
    g.shared.slot "n:1" = none ∧ g.shared.supervised 0 = some s ∧ s.Finished := by
  rcases closingRun_reachable (.stop "n:1")
    [.perform 2 .pass, .perform 2 .pass, .perform 2 .pass, .finish 2] rfl with
    ⟨g, g₁, g₂, o, s, hg, hcall, hrun, ho, hkind, hs, hhandle⟩
  rcases stop_barrier bareSite "n" hg hcall hrun ho hkind .refl with ⟨cell, hname, hslot, hall⟩
  have hcell := Nat.succ.inj (Manager.handle_injective (hhandle.trans hname))
  exact ⟨g₂, s, hslot, hs, (hall s (hcell ▸ hs)).1⟩

/-- The same with the whole manager shut down. -/
theorem shutdown_barrier_shut : ∃ (g : Manager.Config Unit) (s : Supervisor Unit),
    g.shared.slots = [] ∧ g.shared.supervised 0 = some s ∧ s.Finished := by
  rcases closingRun_reachable .shutdown
    [.perform 2 .pass, .perform 2 .pass, .perform 2 .pass, .finish 2] rfl with
    ⟨g, g₁, g₂, o, s, hg, hcall, hrun, ho, hkind, hs, _⟩
  rcases shutdown_barrier bareSite "n" hg hcall hrun ho hkind .refl with ⟨hslots, _, hall⟩
  exact ⟨g₂, s, hslots, hs, (hall 0 s hs).1⟩

end TinyRuntime
