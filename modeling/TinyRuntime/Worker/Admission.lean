import TinyRuntime.Worker.Barrier
import TinyRuntime.Worker.Published

/-!
# Admission

What a manager takes in, and how much of it there is at a time.

A supervisor that is at work has a slot, a slot has one cell, and a supervisor owns at
most one child that is not reaped. So the bound on the slots bounds the supervisors and
the children as well. A supervisor is spawned by the first `prepare` of its reservation
and by nothing else, for a plan that was accepted.

What is known of a supervisor by itself holds of each one here too. The calls share no
more than the stop flag and the failed cleanup with it, and the second one is never
read by its code.

## Main definitions

* `Manager.Vetted`, `BookOp.Vets`: Plans that were accepted.
* `Manager.Reserved`: A reservation that can still be prepared.

## Theorems

* `supervisors_alone`: Every supervisor behaves like one by itself.
* `supervisors_admitted`: The bounds on slots, supervisors and children.
* `supervisor_spawned`: When a supervisor is spawned, and what for.
* `plan_kept`: The plan of a handle never changes.
* `status_truthful`: What `status` answers is so.
-/

namespace TinyRuntime

variable {V : Type}

/-! ## What a supervisor owns -/

theorem Supervisor.Behaves.held [BEq V] {codec : Codec V} {plan : WorkerPlan}
    {cached : Option Cached} {s : Supervisor V} (h : s.Behaves codec plan cached) :
    Held s.world := by
  rcases h.alone with ⟨t, ht, _, flag, hworld⟩
  have hcustody := custody_contract codec plan cached
  rcases hcustody.always (hcustody.reachable ht) with ⟨howned, halone, hlocked, hdone⟩
  rw [hworld] at howned halone hlocked hdone
  exact ⟨howned, halone, hlocked, hdone⟩

/-- The fields for children hold one at most. -/
theorem Held.alike {w : World V} (h : Held w) {p q : Nat} (hp : p ∈ w.live) (hq : q ∈ w.live) :
    p = q := by
  have hexclusive : w.actor.process = none ∨ w.actor.preparation = none := by
    cases hprocess : w.actor.process with
    | none => exact .inl rfl
    | some r => exact .inr (h.alone (by rw [hprocess]; rfl)).1
  rcases hexclusive with hnone | hnone <;> rcases h.owned p hp with hp | hp <;>
    rcases h.owned q hq with hq | hq <;> rw [hnone] at * <;>
    first
      | exact Option.some.inj (hp.symm.trans hq)
      | cases hp
      | cases hq

namespace Manager

/-! ## The bounds -/

variable [BEq V] {codec : Codec V} {m : Manager V}

/-- The slot of a supervisor that has not published that it is closed. -/
theorem Kept.seat (hk : m.Kept codec) {cell : Nat} {s : Supervisor V}
    (hs : m.supervised cell = some s) (hopen : s.world.state.closed = false) :
    cell ∈ m.slots.map fun s => s.2.cell := by
  rcases hk.admitted cell s hs hopen with ⟨t, ht, rfl⟩
  exact List.mem_map_of_mem ht

omit [BEq V] in
theorem lookup_of_mem {slots : List (WorkerHandle × Slot)} (hd : (slots.map Prod.fst).Nodup)
    {handle : WorkerHandle} {slot : Slot} (h : (handle, slot) ∈ slots) :
    slots.lookup handle = some slot := by
  induction slots with
  | nil => cases h
  | cons s slots ih =>
      rw [List.map_cons, List.nodup_cons] at hd
      rcases List.mem_cons.mp h with rfl | hmem
      · exact List.lookup_cons_self
      · have hne : handle ≠ s.1 := by
          rintro rfl
          exact hd.1 (List.mem_map.mpr ⟨(s.1, slot), hmem, rfl⟩)
        rw [List.lookup_cons, beq_eq_false_iff_ne.mpr hne]
        exact ih hd.2 hmem

theorem Kept.slot_of_mem (hk : m.Kept codec) {handle : WorkerHandle} {slot : Slot}
    (h : (handle, slot) ∈ m.slots) : m.slot handle = some slot :=
  lookup_of_mem hk.distinct h

/-- A supervisor with a child has not closed. -/
theorem Kept.open_of_child (hk : m.Kept codec) {cell : Nat} {s : Supervisor V}
    (hs : m.supervised cell = some s) {p : Nat} (hp : p ∈ s.world.live) :
    s.world.state.closed = false := by
  refine Bool.eq_false_iff.mpr fun hclosed => ?_
  rw [(hk.finished hs hclosed).live] at hp
  cases hp

/-- Different cells with a supervisor at work are at most as many as slots. -/
theorem Kept.seated (hk : m.Kept codec) {cells : List Nat} (hdistinct : cells.Nodup)
    (h : ∀ cell ∈ cells, ∃ s, m.supervised cell = some s ∧ s.world.state.closed = false) :
    cells.length ≤ m.slots.length := by
  have hsub : cells ⊆ m.slots.map fun s => s.2.cell := by
    intro cell hcell
    rcases h cell hcell with ⟨s, hs, hopen⟩
    exact hk.seat hs hopen
  have hle := (List.subperm_of_subset hdistinct hsub).length_le
  rwa [List.length_map] at hle

/-- Different children that are not reaped belong to different cells. -/
theorem Kept.childless (hk : m.Kept codec) {children : List (Nat × Nat)}
    (hdistinct : children.Nodup)
    (h : ∀ c ∈ children, ∃ s, m.supervised c.1 = some s ∧ c.2 ∈ s.world.live) :
    (children.map Prod.fst).Nodup := by
  refine List.Nodup.map_on ?_ hdistinct
  rintro ⟨cell, p⟩ hp ⟨_, q⟩ hq rfl
  rcases h _ hp with ⟨s, hs, hlive⟩
  rcases h _ hq with ⟨s', hs', hlive'⟩
  cases hs.symm.trans hs'
  rcases hk.behaved cell s hs with ⟨plan, cached, hb⟩
  exact congrArg (Prod.mk cell) (hb.held.alike hlive hlive')

/-! ## Spawning -/

/-- What the validation lets through. -/
def Vetted (site : ManagerSite V) (plan : WorkerPlan) (cached : Option Cached) : Prop :=
  Validate.plan plan = .ok () ∧ ∀ c, cached = some c → Cache.recipe c.recipe = .ok () ∧
    ∃ scope ∈ site.scopes, scope.id = c.recipe.scope ∧ scope.root = c.root

end Manager

/-- An effect that enters accepted plans only. -/
def BookOp.Vets {β : Type} (site : ManagerSite V) (op : BookOp V β) : Prop :=
  match op with
  | .enlist _ plan cached => Manager.Vetted site plan cached
  | _ => True

namespace Manager

/-- A reservation that can still be prepared. -/
structure Reserved (m : Manager V) (handle : WorkerHandle) (slot : Slot) : Prop where
  entered : m.slot handle = some slot
  bare : slot.plan = none
  serving : m.terminal = false
  young : m.now - slot.reservedAt < RESERVATION_LIFETIME

theorem enlist_cases (m : Manager V) (handle : WorkerHandle) (plan : WorkerPlan)
    (cached : Option Cached) : (m.enlist handle plan cached).2 = m ∨
      ∃ slot, m.Reserved handle slot ∧
        (m.enlist handle plan cached).2 = m.spawn handle slot plan cached := by
  rw [enlist]
  split
  · exact .inl rfl
  · rename_i hterminal
    split
    · exact .inl rfl
    · rename_i slot hslot
      split
      · exact .inl rfl
      · split
        · split <;> exact .inl rfl
        · rename_i hplan
          split
          · exact .inl rfl
          · rename_i hold
            refine .inr ⟨slot, ⟨hslot, hplan, Bool.eq_false_iff.mpr hterminal, ?_⟩, rfl⟩
            exact Nat.lt_of_not_le fun hle => hold (decide_eq_true hle)

theorem supervised_spawn_ne (m : Manager V) (handle : WorkerHandle) (slot : Slot)
    (plan : WorkerPlan) (cached : Option Cached) {cell : Nat} (h : cell ≠ slot.cell) :
    (m.spawn handle slot plan cached).supervised cell = m.supervised cell := by
  rw [supervised, spawn, modify, List.getElem?_modify_ne _ _ (Ne.symm h)]
  rfl

theorem supervised_spawn_eq {m : Manager V} (handle : WorkerHandle) {slot : Slot}
    (plan : WorkerPlan) (cached : Option Cached) {s : Supervisor V}
    (hs : (m.spawn handle slot plan cached).supervised slot.cell = some s) :
    s = Supervisor.new plan cached m.now := by
  rw [supervised, spawn, modify, List.getElem?_modify_eq] at hs
  rcases Option.bind_eq_some_iff.mp hs with ⟨c, hc, hsupervisor⟩
  rcases Option.map_eq_some_iff.mp hc with ⟨c', _, rfl⟩
  cases hsupervisor
  rfl

/-! ## One effect -/

theorem supervised_dropSlots (m : Manager V) (dropped : WorkerHandle × Slot → Bool) (cell : Nat) :
    (m.dropSlots dropped).supervised cell = m.supervised cell := by
  rw [supervised, dropSlots, List.getElem?_mapIdx, supervised]
  cases m.cells[cell]? with
  | none => rfl
  | some c =>
      dsimp only [Option.map_some, Option.bind_some]
      split <;> rfl

theorem supervised_reserve (m : Manager V) (cell : Nat) :
    m.reserve.2.supervised cell = m.supervised cell := by
  rw [reserve]
  split
  · rfl
  · dsimp only
    split
    · exact supervised_dropSlots ..
    · split
      · exact supervised_dropSlots ..
      · exact (supervised_push rfl rfl cell).trans (supervised_dropSlots ..)

/-- A cell changed in place without a supervisor for it. -/
theorem supervised_modify {m : Manager V} {i cell : Nat} {f : Cell V → Cell V}
    (hf : ∀ c, c.supervisor = none → (f c).supervisor = none) (h : m.supervised cell = none) :
    (m.modify i f).supervised cell = none := by
  refine supervised_none.mpr fun c hc => ?_
  rw [modify, List.getElem?_modify] at hc
  rcases Option.map_eq_some_iff.mp hc with ⟨c', hc', rfl⟩
  split
  · exact hf c' (supervised_none.mp h c' hc')
  · exact supervised_none.mp h c' hc'

theorem supervisor_signal {c : Cell V} (h : c.supervisor = none) :
    (signal c).supervisor = none := by
  rw [signal, Cell.sendModify, h]

theorem supervised_submit {m : Manager V} (handle : WorkerHandle) (command : Command V) {cell : Nat}
    (h : m.supervised cell = none) : (m.submit handle command).2.supervised cell = none := by
  rw [submit]
  split
  · exact h
  · split
    · exact h
    · split
      · exact h
      · split
        · exact h
        · split
          · exact h
          · split
            · split
              · exact h
              · exact supervised_modify (fun _ hc => hc) h
            · exact h

theorem supervised_stop {m : Manager V} (handle : WorkerHandle) {cell : Nat}
    (h : m.supervised cell = none) : (m.stop handle).2.supervised cell = none := by
  rw [stop]
  split
  · exact h
  · dsimp only
    split
    · exact (supervised_dropSlots ..).trans (supervised_modify (fun _ => supervisor_signal) h)
    · exact supervised_modify (fun _ => supervisor_signal) h

theorem supervised_shutdown {m : Manager V} {cell : Nat} (h : m.supervised cell = none) :
    m.shutdown.2.supervised cell = none := by
  refine supervised_none.mpr fun c hc => ?_
  rw [shutdown, List.getElem?_mapIdx] at hc
  rcases Option.map_eq_some_iff.mp hc with ⟨c', hc', rfl⟩
  have hnone := supervised_none.mp h c' hc'
  split
  · exact supervisor_signal hnone
  · exact hnone

/-- One effect spawns a supervisor for an accepted plan, or none at all. -/
theorem spawned_respond {β : Type} {op : BookOp V β} {m m' : Manager V} {l l' : Caller V}
    {c : ManagerChoice V} {b : β} {site : ManagerSite V} (hvets : op.Vets site)
    (h : op.respond (m, l) c = some (b, m', l')) {cell : Nat} {s : Supervisor V}
    (hnone : m.supervised cell = none) (hs : m'.supervised cell = some s) :
    ∃ handle slot plan cached, m.Reserved handle slot ∧ slot.cell = cell ∧
      Vetted site plan cached ∧ s = Supervisor.new plan cached m.now ∧
      m' = m.spawn handle slot plan cached := by
  cases op with
  | enlist handle plan cached =>
      have hm' : m' = (m.enlist handle plan cached).2 := by
        cases h
        rfl
      rcases m.enlist_cases handle plan cached with heq | ⟨slot, hreserved, heq⟩
      · rw [hm', heq] at hs
        cases hnone.symm.trans hs
      · rw [hm', heq] at hs
        by_cases hcell : slot.cell = cell
        · refine ⟨handle, slot, plan, cached, hreserved, hcell, hvets, ?_, hm'.trans heq⟩
          exact supervised_spawn_eq handle plan cached (hcell ▸ hs)
        · rw [supervised_spawn_ne m handle slot plan cached (Ne.symm hcell)] at hs
          cases hnone.symm.trans hs
  | reserve =>
      cases h
      cases ((supervised_reserve m cell).trans hnone).symm.trans hs
  | submit handle command =>
      cases h
      cases (supervised_submit handle command hnone).symm.trans hs
  | stop handle =>
      have hstop := supervised_stop handle hnone
      simp only [BookOp.respond] at h
      split at h <;> rename_i heq <;> cases h <;> rw [heq] at hstop <;> cases hstop.symm.trans hs
  | remove | clear =>
      cases h
      cases ((supervised_dropSlots ..).trans hnone).symm.trans hs
  | shutdown =>
      cases h
      cases (supervised_shutdown hnone).symm.trans hs
  | prepared cell | waitClosed cell =>
      rcases Option.map_eq_some_iff.mp h with ⟨_, _, heq⟩
      cases heq
      cases hnone.symm.trans hs
  | deadline handle | status handle =>
      cases h
      cases hnone.symm.trans hs
  | response =>
      cases c <;> cases h
      cases hnone.symm.trans hs
  | timedOut due =>
      cases c <;> simp only [BookOp.respond] at h <;> try cases h
      split at h <;> cases h
      cases hnone.symm.trans hs

end Manager

/-! ## The calls -/

section Calls

variable {site : ManagerSite V}

theorem vets_prepareInner {handle : WorkerHandle} {plan : WorkerPlan} {cached : Option Cached}
    (h : Validate.plan plan = .ok () → Manager.Vetted site plan cached) :
    (ManagerCall.prepareInner (V := V) handle plan cached).Uses fun _ op => op.Vets site := by
  unfold ManagerCall.prepareInner
  split
  · trivial
  · rename_i hplan
    refine Prog.uses_bind ⟨h hplan, fun _ => trivial⟩ fun r => ?_
    split
    · trivial
    · exact ⟨trivial, fun _ => trivial⟩

theorem vets_runSubmit (handle : WorkerHandle) (command : Command V) :
    (ManagerCall.runSubmit handle command).Uses fun _ op => op.Vets site := by
  refine Prog.uses_bind ⟨trivial, fun _ => trivial⟩ fun r => ?_
  split
  · trivial
  · refine Prog.uses_bind ⟨trivial, fun _ => trivial⟩ fun r => ?_
    split <;> trivial

theorem vets_runRequest (request : WorkerRequest V) :
    (ManagerCall.runRequest site request).Uses fun _ op => op.Vets site := by
  unfold ManagerCall.runRequest
  dsimp only
  split
  · trivial
  · refine Prog.uses_bind ⟨trivial, fun _ => trivial⟩ fun r => ?_
    split
    · trivial
    · refine Prog.uses_bind (Prog.uses_cut trivial (vets_runSubmit _ _)) fun r => ?_
      split <;> trivial

theorem vets_runPrepareCached (request : WorkerPrepareCached) :
    (ManagerCall.runPrepareCached (V := V) site request).Uses fun _ op => op.Vets site := by
  unfold ManagerCall.runPrepareCached
  split
  · trivial
  · rename_i hrecipe
    split
    · trivial
    · rename_i scope hscope
      refine vets_prepareInner fun hplan => ⟨hplan, fun c hc => ?_⟩
      cases hc
      have hid := List.find?_some hscope
      exact ⟨hrecipe, scope, List.mem_of_find?_eq_some hscope, of_decide_eq_true hid, rfl⟩

theorem vets_waitAll (cells : List Nat) : ∀ complete,
    (ManagerCall.waitAll (V := V) cells complete).Uses fun _ op => op.Vets site := by
  induction cells with
  | nil => exact fun _ => trivial
  | cons cell cells ih =>
      exact fun complete => Prog.uses_bind ⟨trivial, fun _ => trivial⟩ fun closed => ih _

theorem vets_run (call : ManagerCall V) : (call.run site).Uses fun _ op => op.Vets site := by
  cases call with
  | reserve | status => exact ⟨trivial, fun _ => trivial⟩
  | prepare request =>
      refine Prog.uses_bind (vets_prepareInner fun hplan => ⟨hplan, fun c hc => ?_⟩)
        fun _ => trivial
      cases hc
  | prepareCached request => exact Prog.uses_bind (vets_runPrepareCached _) fun _ => trivial
  | start handle => exact Prog.uses_bind (vets_runSubmit _ _) fun _ => trivial
  | request request => exact Prog.uses_bind (vets_runRequest _) fun _ => trivial
  | stop handle =>
      refine Prog.uses_bind (Prog.uses_bind ⟨trivial, fun _ => trivial⟩ fun r => ?_)
        fun _ => trivial
      split
      · trivial
      · refine Prog.uses_bind ⟨trivial, fun _ => trivial⟩ fun closed => ?_
        split
        · exact ⟨trivial, fun _ => trivial⟩
        · trivial
  | shutdown =>
      refine Prog.uses_bind (Prog.uses_bind ⟨trivial, fun _ => trivial⟩ fun cells => ?_)
        fun _ => trivial
      refine Prog.uses_bind (vets_waitAll cells true) fun complete => ?_
      split
      · exact ⟨trivial, fun _ => trivial⟩
      · trivial

variable [BEq V] {nonce : String} {g g' g'' : Manager.Config V}
  {es : List (Concurrent.Step (ManagerCall V) (ManagerChoice V))}

theorem vets_joint (site : ManagerSite V) :
    Concurrent.Joint (manager site) .none (fun p _ => p.Uses fun _ op => op.Vets site)
      (fun _ _ => True) where
  call _ _ call _ _ := ⟨vets_run call, trivial⟩
  perform _ _ _ _ _ _ _ _ _ _ _ huses _ _ := ⟨huses.2 _, trivial⟩
  finish _ _ _ _ _ _ _ := trivial
  drop _ _ _ _ _ _ _ _ _ _ := ⟨fun _ ho => absurd ho List.not_mem_nil, trivial⟩
  release _ _ _ _ _ _ _ _ := trivial
  env _ _ _ _ _ _ := trivial

/-! ## Every manager -/

/-- Every supervisor of a manager is, up to the flag that a call for its stop writes,
    where one by itself can be, and one that a slot names is one for the plan and the
    cache of this slot. So what holds of a supervisor by itself holds of it. -/
theorem supervisors_alone (site : ManagerSite V) (nonce : String)
    (hg : Transition.Reachable (managers site nonce) g) :
    (∀ cell s, g.shared.supervised cell = some s → ∃ plan cached t,
      Transition.Reachable (supervisor site.codec plan cached) t ∧ s.Alike t) ∧
    ∀ handle slot plan, g.shared.slot handle = some slot → slot.plan = some plan →
      ∃ s t, g.shared.supervised slot.cell = some s ∧
        Transition.Reachable (supervisor site.codec plan slot.cached) t ∧ s.Alike t := by
  have hk := Manager.kept hg
  refine ⟨fun cell s hs => ?_, fun handle slot plan hslot hplan => ?_⟩
  · rcases hk.behaved cell s hs with ⟨plan, cached, hb⟩
    rcases hb.alone with ⟨t, ht, halike⟩
    exact ⟨plan, cached, t, ht, halike⟩
  · rcases (hk.spawned _ (Manager.mem_of_slot hslot) plan hplan).2 with ⟨s, hs, hb⟩
    rcases hb.alone with ⟨t, ht, halike⟩
    exact ⟨s, t, hs, ht, halike⟩

/-- **The bound on what a manager runs.** At any time there are at most sixteen slots,
    at most sixteen supervisors that have not closed, each with a slot, and at most
    sixteen native children that are not reaped. -/
theorem supervisors_admitted (site : ManagerSite V) (nonce : String)
    (hg : Transition.Reachable (managers site nonce) g) :
    g.shared.slots.length ≤ CAPACITY ∧
    (∀ cells : List Nat, cells.Nodup → (∀ cell ∈ cells, ∃ s, g.shared.supervised cell = some s ∧
      s.world.state.closed = false) → cells.length ≤ CAPACITY) ∧
    (∀ children : List (Nat × Nat), children.Nodup → (∀ c ∈ children, ∃ s,
      g.shared.supervised c.1 = some s ∧ c.2 ∈ s.world.live) → children.length ≤ CAPACITY) ∧
    ∀ cell s, g.shared.supervised cell = some s → s.world.state.closed = false →
      ∃ slot plan, g.shared.slot (g.shared.handle (cell + 1)) = some slot ∧ slot.cell = cell ∧
        slot.plan = some plan ∧ s.Behaves site.codec plan slot.cached := by
  have hk := Manager.kept hg
  refine ⟨hk.bounded, fun cells hdistinct h => ?_, fun children hdistinct h => ?_,
    fun cell s hs hopen => ?_⟩
  · exact Nat.le_trans (hk.seated hdistinct h) hk.bounded
  · rw [← List.length_map (f := Prod.fst)]
    refine Nat.le_trans (hk.seated (hk.childless hdistinct h) fun cell hcell => ?_) hk.bounded
    rcases List.mem_map.mp hcell with ⟨c, hc, rfl⟩
    rcases h c hc with ⟨s, hs, hlive⟩
    exact ⟨s, hs, hk.open_of_child hs hlive⟩
  · rcases hk.admitted cell s hs hopen with ⟨⟨handle, slot⟩, hmem, rfl⟩
    have hname : handle = g.shared.handle (slot.cell + 1) := (hk.named _ hmem).2
    refine ⟨slot, ?_⟩
    cases hplan : slot.plan with
    | none => cases hs.symm.trans (hk.bare _ hmem hplan).2
    | some plan =>
        rcases (hk.spawned _ hmem plan hplan).2 with ⟨s', hs', hb⟩
        cases hs.symm.trans hs'
        exact ⟨plan, hname ▸ hk.slot_of_mem hmem, rfl, rfl, hb⟩

/-- **The plan of a handle never changes.** Whatever calls are made and dropped, a handle
    that has a plan has this plan and this cache as long as it has a slot, and never has
    a slot again afterwards. A second prepare for anything else leaves the book alone and
    does not wait for the supervisor. -/
theorem plan_kept (site : ManagerSite V) (nonce : String)
    (hg : Transition.Reachable (managers site nonce) g) {handle : WorkerHandle} {slot : Slot}
    (hslot : g.shared.slot handle = some slot) {plan : WorkerPlan} (hplan : slot.plan = some plan)
    (hrun : Transition.Run (managers site nonce) g es g') :
    (g'.shared.slot handle = some slot ∨ ∀ fs g'', Transition.Run (managers site nonce) g' fs g'' →
      g''.shared.slot handle = none) ∧
    ∀ plan' cached', plan' ≠ plan ∨ cached' ≠ slot.cached →
      ∃ o, g'.shared.enlist handle plan' cached' = (.inl o, g'.shared) := by
  have hk := Manager.kept hg
  have hmem := Manager.mem_of_slot hslot
  have honly : ∀ fs g'', Transition.Run (managers site nonce) g fs g'' → ∀ slot'',
      g''.shared.slot handle = some slot'' → slot'' = slot := by
    intro fs g'' hrun'' slot'' hslot''
    have honward := Manager.onward_run hg hrun''
    have hmem'' := Manager.mem_of_slot hslot''
    rcases honward.slots _ hmem'' with ⟨t, ht, hname, _, hkeep⟩ | ⟨_, hnew⟩
    · cases hk.unique ht hmem (.inl hname.symm)
      have heq := hkeep (.inl (by rw [hplan]; rfl))
      exact congrArg Prod.snd heq
    · -- A new slot has a name that was not given before.
      have hg'' := Transition.reachable_run hg hrun''
      have hname := ((Manager.kept hg'').named _ hmem'').2
      have hname' := (hk.named _ hmem).2
      rw [honward.later.handle] at hname
      have hcell := Nat.succ.inj (Manager.handle_injective (hname.symm.trans hname'))
      have hlt := (hk.named _ hmem).1
      rw [hk.cells, hcell] at hnew
      exact absurd hlt (Nat.not_lt_of_le hnew)
  refine ⟨?_, fun plan' cached' hother => ?_⟩
  · cases hslot' : g'.shared.slot handle with
    | some slot' => exact .inl (by rw [honly es g' hrun slot' hslot'])
    | none =>
        refine .inr fun fs g'' hrun' => ?_
        have hg' := Transition.reachable_run hg hrun
        have hcounted' := (Manager.issuing hg').counted
        have hlater := Manager.later_run hg hrun
        refine (slot_stays_none hg' hslot' ?_ hrun').1
        refine (Manager.missing_closed hcounted'.bounded handle).mpr (.inl ⟨slot.cell + 1,
          Nat.succ_pos _, Nat.le_trans (hk.named _ hmem).1 hlater.issued, ?_⟩)
        rw [hlater.handle]
        exact (hk.named _ hmem).2
  · rw [Manager.enlist]
    split
    · exact ⟨_, rfl⟩
    · split
      · exact ⟨_, rfl⟩
      · rename_i slot' hslot'
        cases honly es g' hrun slot' hslot'
        split
        · exact ⟨_, rfl⟩
        · rw [hplan]
          dsimp only
          rw [if_pos (hother.imp Ne.symm Ne.symm)]
          exact ⟨_, rfl⟩

/-- **What `status` answers is so.** A handle with a plan is answered with what its
    supervisor has published, a reservation with an empty status: a worker is answered as
    running exactly in the running phase, and then the supervisor owns its process, which
    has answered the handshake. A backend is answered as ready only while the worker runs
    and only if that handshake named it. In the closed phase nothing is owned. -/
theorem status_truthful (site : ManagerSite V) (nonce : String)
    (hg : Transition.Reachable (managers site nonce) g) {handle : WorkerHandle}
    {status : WorkerStatus} (h : g.shared.status handle = .ok status) :
    ∃ slot, g.shared.slot handle = some slot ∧
      (slot.plan = none ∧ g.shared.supervised slot.cell = none ∧
          status = (State.new .reserved : State V).status ∨
        ∃ plan s, slot.plan = some plan ∧ g.shared.supervised slot.cell = some s ∧
          status = s.world.state.status ∧
          (status.server.running = true ↔ status.phase = .running) ∧
          (status.server.running = true → ∃ p ready, s.world.actor.process = some p ∧
            Greeted site.codec s.world.log p ready ∧
            ∀ b ∈ status.server.backends, b.ready = true → b.id ∈ ready.backends) ∧
          (∀ b ∈ status.server.backends, b.ready = true → status.server.running = true) ∧
          (status.phase = .closed → Actor.Released s.world.actor)) := by
  have hk := Manager.kept hg
  rw [Manager.status] at h
  split at h
  · cases h
  · rename_i slot hslot
    split at h
    · cases h
    · cases h
      have hmem := Manager.mem_of_slot hslot
      have hlt : slot.cell < g.shared.cells.length := by
        rw [hk.cells]
        exact (hk.named _ hmem).1
      have hcell := List.getElem?_eq_getElem hlt
      refine ⟨slot, hslot, ?_⟩
      cases hplan : slot.plan with
      | none =>
          have hnone := (hk.bare _ hmem hplan).2
          have hblank := Manager.supervised_none.mp hnone _ hcell
          refine .inl ⟨rfl, hnone, ?_⟩
          rcases hk.blank _ _ hcell hblank with ⟨b, hstate⟩
          rw [Manager.watch, hcell]
          dsimp only
          rw [Cell.watch, hblank, hstate]
      | some plan =>
          rcases (hk.spawned _ hmem plan hplan).2 with ⟨s, hs, hb⟩
          rcases Manager.supervised_some.mp hs with ⟨c, hc, hsupervisor⟩
          have hwatch : g.shared.watch slot.cell = s.world.state := by
            rw [Manager.watch, hc]
            dsimp only
            rw [Cell.watch, hsupervisor]
          rw [hwatch]
          refine .inr ⟨plan, s, rfl, hs, rfl, ?_⟩
          rcases hb.alone with ⟨t, ht, _, flag, hworld⟩
          have hpublished := published_contract site.codec plan slot.cached
          have hp := hpublished.always (hpublished.reachable ht)
          rw [hworld] at hp
          refine ⟨hp.phase, fun hr => ?_, hp.ready, hp.closed⟩
          rcases hp.up hr with ⟨p, ready, hup⟩
          exact ⟨p, ready, hup.process, hup.greeted, hup.named⟩

end Calls

/-! ## A worker that is prepared -/

/-- A handle is reserved, and the first effect of its `prepare` is due. -/
def preparingRun : List (Concurrent.Step (ManagerCall Unit) (ManagerChoice Unit)) :=
  [.call .reserve, .perform 0 .pass, .call (.prepare { handle := "n:1", plan := soundPlan })]

def soundSlot : Slot :=
  { reservedAt := 0, plan := some soundPlan, cached := none, commands := true, cell := 0 }

/-- Its supervisor is spawned. -/
theorem spawned_reachable : ∃ g g' : Manager.Config Unit,
    Transition.Reachable (managers bareSite "n") g ∧
      Transition.Reachable (managers bareSite "n") g' ∧
      (managers bareSite "n").step g (.perform 1 .pass) g' ∧
      g.shared.supervised 0 = none ∧
      g'.shared.supervised 0 = some (Supervisor.new soundPlan none 0) ∧
      g'.shared.slot "n:1" = some soundSlot ∧
      g'.shared.status "n:1" = .ok (State.new .preparing : State Unit).status := by
  obtain ⟨g, hg, g', hstep, hnone, hs, hslot, hstatus⟩ : ∃ g : Manager.Config Unit,
      Transition.play (manager bareSite).move { shared := Manager.new "n" 0, calls := [] }
        preparingRun = some g ∧ ∃ g', (manager bareSite).move g (.perform 1 .pass) = some g' ∧
      g.shared.supervised 0 = none ∧
      g'.shared.supervised 0 = some (Supervisor.new soundPlan none 0) ∧
      g'.shared.slot "n:1" = some soundSlot ∧
      g'.shared.status "n:1" = .ok (State.new .preparing : State Unit).status :=
    ⟨_, rfl, _, rfl, rfl, rfl, rfl, rfl⟩
  have hreach : Transition.Reachable (managers bareSite "n") g :=
    Concurrent.reachable_play ⟨0, rfl⟩ hg
  have hallowed : (managers bareSite "n").step g (.perform 1 .pass) g' :=
    ⟨Concurrent.Limits.none_allow _ _, hstep⟩
  exact ⟨g, g', hreach, Transition.reachable_step hreach hallowed, hallowed, hnone, hs, hslot,
    hstatus⟩

/-- It is like one that was spawned by itself. -/
theorem supervisors_alone_spawned : ∃ (g : Manager.Config Unit) (s t : Supervisor Unit),
    g.shared.supervised 0 = some s ∧
      Transition.Reachable (supervisor bareSite.codec soundPlan none) t ∧ s.Alike t := by
  rcases spawned_reachable with ⟨_, g, _, hg, _, _, _, hslot, _⟩
  rcases (supervisors_alone bareSite "n" hg).2 "n:1" soundSlot soundPlan hslot rfl with
    ⟨s, t, hs, ht, halike⟩
  exact ⟨g, s, t, hs, ht, halike⟩

/-- It is one of sixteen at most. -/
theorem supervisors_admitted_spawned : ∃ g : Manager.Config Unit,
    (g.shared.supervised 0).isSome ∧ [0].length ≤ CAPACITY := by
  rcases spawned_reachable with ⟨_, g, _, hg, _, _, hs, _⟩
  refine ⟨g, by rw [hs]; rfl, ?_⟩
  refine (supervisors_admitted bareSite "n" hg).2.1 [0] (List.nodup_singleton 0) ?_
  intro cell hcell
  rw [List.mem_singleton.mp hcell]
  exact ⟨_, hs, rfl⟩

/-- It is not prepared for another plan. -/
theorem plan_kept_spawned : ∃ (g : Manager.Config Unit) (o : WorkerOutcome Unit),
    g.shared.enlist "n:1" plainPlan none = (.inl o, g.shared) := by
  rcases spawned_reachable with ⟨_, g, _, hg, _, _, _, hslot, _⟩
  rcases (plan_kept bareSite "n" hg hslot rfl .refl).2 plainPlan none (.inl (by decide)) with
    ⟨o, ho⟩
  exact ⟨g, o, ho⟩

/-- Its status is answered. -/
theorem status_truthful_spawned : ∃ (g : Manager.Config Unit) (slot : Slot),
    g.shared.slot "n:1" = some slot ∧
      g.shared.status "n:1" = .ok (State.new .preparing : State Unit).status := by
  rcases spawned_reachable with ⟨_, g, _, hg, _, _, _, _, hstatus⟩
  rcases status_truthful bareSite "n" hg hstatus with ⟨slot, hslot, _⟩
  exact ⟨g, slot, hslot, hstatus⟩

end TinyRuntime
