import TinyRuntime.Worker.Handles
import TinyRuntime.Worker.Signal

/-!
# The Book and the Supervisors

What the book says of the supervisors, and in which direction the two develop.

A slot leaves the book on four ways. On each of them either it never had a supervisor,
or the supervisor has published that it is closed. So a supervisor that is still at
work has a slot, and there are no more of them than slots.

A section under the lock does one of three things. It changes cells in place and drops
slots (`Stirs`), it enters a slot with a new cell, or it fills the cell of a slot. What
the supervisors do between two sections is of the first kind.

## Main definitions

* `Manager.supervised`: The supervisor of a cell.
* `Manager.Kept`: What holds of the book and the supervisors.
* `Supervisor.Onward`, `Manager.Onward`: The direction.
* `Cell.Steps`, `Manager.Stirs`: Cells changed in place and slots dropped.

## Theorems

* `Manager.Stirs.kept`: What such a change keeps.
* `Manager.kept_reserve`, `Manager.kept_enlist`: The other two.
* `Manager.kept_respond`, `Manager.kept_env`: One effect of a call, and the outside.
-/

namespace TinyRuntime

variable {V : Type} [BEq V] {codec : Codec V}

/-! ## The direction -/

/-- How a supervisor develops. One that is finished performs no effect any more. -/
structure Supervisor.Onward (codec : Codec V) (s s' : Supervisor V) : Prop where
  behaves : ∀ plan cached, s.Behaves codec plan cached → s'.Behaves codec plan cached
  finished : s.Finished → s.world.Alike s'.world ∧ s'.Finished

theorem Supervisor.Onward.refl (s : Supervisor V) : s.Onward codec s :=
  ⟨fun _ _ h => h, fun h => ⟨.refl _, h⟩⟩

theorem Supervisor.Onward.trans {s s' s'' : Supervisor V} (h : s.Onward codec s')
    (h' : s'.Onward codec s'') : s.Onward codec s'' := by
  refine ⟨fun plan cached hb => h'.behaves plan cached (h.behaves plan cached hb), fun hf => ?_⟩
  rcases h.finished hf with ⟨ha, hf'⟩
  rcases h'.finished hf' with ⟨ha', hf''⟩
  exact ⟨ha.trans ha', hf''⟩

theorem Supervisor.onward_move {s s' : Supervisor V} {m : Move V}
    (h : s.move codec m = some s') : s.Onward codec s' := by
  refine ⟨fun _ _ hb => hb.move h, fun hf => ?_⟩
  rcases hf.move h with ⟨hworld, hf'⟩
  exact ⟨hworld ▸ .refl _, hf'⟩

theorem Supervisor.onward_flag (s : Supervisor V) (b : Bool) : s.Onward codec (s.flag b) :=
  ⟨fun _ _ hb => hb.flag b, fun hf => ⟨⟨b, rfl⟩, hf.done, hf.released, hf.live, hf.locked, hf.dir⟩⟩

/-- A supervisor that is closed stays so. -/
theorem Supervisor.Onward.closed {s s' : Supervisor V} (h : s.Onward codec s')
    (hf : s.Finished) (hc : s.world.state.closed = true) : s'.world.state.closed = true := by
  rcases (h.finished hf).1 with ⟨b, hb⟩
  rw [hb]
  exact hc

namespace Manager

/-- The supervisor of a cell. -/
def supervised (m : Manager V) (cell : Nat) : Option (Supervisor V) :=
  m.cells[cell]?.bind Cell.supervisor

/-- A supervisor that has closed. -/
def Shut (m : Manager V) (cell : Nat) : Prop :=
  ∃ s, m.supervised cell = some s ∧ s.world.state.closed = true ∧ s.Finished

/-- No supervisor, or one that has closed. -/
def Spent (m : Manager V) (cell : Nat) : Prop :=
  ∀ s, m.supervised cell = some s → s.world.state.closed = true

/-- What holds of the book and the supervisors. -/
structure Kept (codec : Codec V) (m : Manager V) : Prop where
  counted : m.Counted
  cells : m.cells.length = m.issued
  bounded : m.slots.length ≤ CAPACITY
  distinct : (m.slots.map Prod.fst).Nodup
  named : ∀ s ∈ m.slots, s.2.cell < m.issued ∧ s.1 = m.handle (s.2.cell + 1)
  blank : ∀ (i : Nat) (c : Cell V), m.cells[i]? = some c → c.supervisor = none →
    (State.new .reserved).Alike c.state
  bare : ∀ s ∈ m.slots, s.2.plan = none →
    s.2.commands = false ∧ m.supervised s.2.cell = none
  spawned : ∀ s ∈ m.slots, ∀ plan, s.2.plan = some plan → s.2.commands = true ∧
    ∃ sv, m.supervised s.2.cell = some sv ∧ sv.Behaves codec plan s.2.cached
  behaved : ∀ i sv, m.supervised i = some sv → ∃ plan cached, sv.Behaves codec plan cached
  admitted : ∀ i sv, m.supervised i = some sv → sv.world.state.closed = false →
    ∃ s ∈ m.slots, s.2.cell = i

/-- How the book and the supervisors develop. -/
structure Onward (codec : Codec V) (m m' : Manager V) : Prop where
  later : Later m m'
  terminal : m.terminal = true → m'.terminal = true
  grows : m.cells.length ≤ m'.cells.length
  sealed : m.terminal = true → m'.cells.length = m.cells.length
  slots : ∀ s' ∈ m'.slots, (∃ s ∈ m.slots, s'.1 = s.1 ∧ s'.2.cell = s.2.cell ∧
      (s.2.plan.isSome ∨ m.terminal = true → s' = s)) ∨
    (m.terminal = false ∧ m.cells.length ≤ s'.2.cell)
  supervised : ∀ i sv, m.supervised i = some sv →
    ∃ sv', m'.supervised i = some sv' ∧ sv.Onward codec sv'
  vacant : ∀ i, i < m.cells.length → m.supervised i = none →
    (m.terminal = true ∨ ∀ s ∈ m.slots, s.2.cell ≠ i) → m'.supervised i = none

theorem Onward.refl (m : Manager V) : m.Onward codec m :=
  ⟨.refl m, id, Nat.le_refl _, fun _ => rfl, fun s hs => .inl ⟨s, hs, rfl, rfl, fun _ => rfl⟩,
    fun _ sv h => ⟨sv, h, .refl sv⟩, fun _ _ h _ => h⟩

theorem Onward.trans {m m' m'' : Manager V} (h : m.Onward codec m') (h' : m'.Onward codec m'') :
    m.Onward codec m'' where
  later := h.later.trans h'.later
  terminal ht := h'.terminal (h.terminal ht)
  grows := Nat.le_trans h.grows h'.grows
  sealed ht := (h'.sealed (h.terminal ht)).trans (h.sealed ht)
  slots s'' hs'' := by
    rcases h'.slots s'' hs'' with ⟨s', hs', hname', hcell', hsame'⟩ | ⟨ht', hnew'⟩
    · rcases h.slots s' hs' with ⟨s, hs, hname, hcell, hsame⟩ | ⟨ht, hnew⟩
      · refine .inl ⟨s, hs, hname'.trans hname, hcell'.trans hcell, fun hkeep => ?_⟩
        have hs's : s' = s := hsame hkeep
        rw [← hs's] at hkeep ⊢
        exact hsame' (hkeep.imp id h.terminal)
      · exact .inr ⟨ht, hcell' ▸ hnew⟩
    · refine .inr ⟨Bool.eq_false_iff.mpr fun ht => ?_, Nat.le_trans h.grows hnew'⟩
      rw [h.terminal ht] at ht'
      cases ht'
  supervised i sv hsv := by
    rcases h.supervised i sv hsv with ⟨sv', hsv', hon⟩
    rcases h'.supervised i sv' hsv' with ⟨sv'', hsv'', hon'⟩
    exact ⟨sv'', hsv'', hon.trans hon'⟩
  vacant i hi hnone hslots := by
    refine h'.vacant i (Nat.lt_of_lt_of_le hi h.grows) (h.vacant i hi hnone hslots) ?_
    rcases hslots with ht | hslots
    · exact .inl (h.terminal ht)
    · refine .inr fun s' hs' => ?_
      rcases h.slots s' hs' with ⟨s, hs, _, hcell, _⟩ | ⟨_, hnew⟩
      · rw [hcell]
        exact hslots s hs
      · exact Nat.ne_of_gt (Nat.lt_of_lt_of_le hi hnew)

theorem Kept.finished {m : Manager V} (h : m.Kept codec) {i : Nat} {sv : Supervisor V}
    (hsv : m.supervised i = some sv) (hc : sv.world.state.closed = true) : sv.Finished := by
  rcases h.behaved i sv hsv with ⟨plan, cached, hb⟩
  exact closed_finished hb hc

theorem Kept.shut {m : Manager V} (h : m.Kept codec) {i : Nat} {sv : Supervisor V}
    (hsv : m.supervised i = some sv) (hc : sv.world.state.closed = true) : m.Shut i :=
  ⟨sv, hsv, hc, h.finished hsv hc⟩

theorem Shut.onward {m m' : Manager V} {i : Nat} (h : m.Shut i) (ho : m.Onward codec m') :
    m'.Shut i := by
  rcases h with ⟨sv, hsv, hc, hf⟩
  rcases ho.supervised i sv hsv with ⟨sv', hsv', hon⟩
  exact ⟨sv', hsv', hon.closed hf hc, (hon.finished hf).2⟩

end Manager

/-! ## Changes in place -/

/-- A cell changed in place. -/
def Cell.Steps (codec : Codec V) (c c' : Cell V) : Prop :=
  match c.supervisor with
  | none => c'.supervisor = none ∧ c.state.Alike c'.state
  | some s => ∃ s', c'.supervisor = some s' ∧ s.Onward codec s'

theorem Cell.Steps.of_eq {c c' : Cell V} (hs : c'.supervisor = c.supervisor)
    (hstate : c'.state = c.state) : c.Steps codec c' := by
  unfold Steps
  split
  · rename_i hnone
    exact ⟨hs.trans hnone, hstate ▸ .refl _⟩
  · rename_i s hsome
    exact ⟨s, hs.trans hsome, .refl s⟩

theorem Cell.steps_signal (c : Cell V) : c.Steps codec (Manager.signal c) := by
  unfold Steps
  split
  · rename_i hnone
    rw [Manager.signal, Cell.sendModify, hnone]
    exact ⟨rfl, false, rfl⟩
  · rename_i s hsome
    rw [Manager.signal, Cell.sendModify, hsome]
    exact ⟨_, rfl, s.onward_flag false⟩

theorem Cell.steps_supervisor {c : Cell V} {s s' : Supervisor V} (hs : c.supervisor = some s)
    (ho : s.Onward codec s') {c' : Cell V} (hc : c'.supervisor = some s') : c.Steps codec c' := by
  unfold Steps
  rw [hs]
  exact ⟨s', hc, ho⟩

namespace Manager

omit [BEq V] in
theorem supervised_some {m : Manager V} {i : Nat} {sv : Supervisor V} :
    m.supervised i = some sv ↔ ∃ c, m.cells[i]? = some c ∧ c.supervisor = some sv :=
  Option.bind_eq_some_iff

omit [BEq V] in
theorem supervised_none {m : Manager V} {i : Nat} :
    m.supervised i = none ↔ ∀ c, m.cells[i]? = some c → c.supervisor = none :=
  Option.bind_eq_none_iff

/-- Cells changed in place, and slots dropped that had no supervisor or a closed one. -/
structure Stirs (codec : Codec V) (m m' : Manager V) : Prop where
  nonce : m'.nonce = m.nonce
  issued : m'.issued = m.issued
  handles : m'.handles = m.handles
  terminal : m.terminal = true → m'.terminal = true
  slots : m'.slots.Sublist m.slots
  dropped : ∀ s ∈ m.slots, s ∉ m'.slots → m.Spent s.2.cell
  length : m'.cells.length = m.cells.length
  cells : ∀ (i : Nat) (c : Cell V), m.cells[i]? = some c →
    ∃ c', m'.cells[i]? = some c' ∧ c.Steps codec c'

theorem Stirs.supervised {m m' : Manager V} (h : Stirs codec m m') {i : Nat} {sv : Supervisor V}
    (hsv : m.supervised i = some sv) :
    ∃ sv', m'.supervised i = some sv' ∧ sv.Onward codec sv' := by
  rcases supervised_some.mp hsv with ⟨c, hc, hs⟩
  rcases h.cells i c hc with ⟨c', hc', hsteps⟩
  rw [Cell.Steps, hs] at hsteps
  rcases hsteps with ⟨sv', hs', ho⟩
  exact ⟨sv', supervised_some.mpr ⟨c', hc', hs'⟩, ho⟩

/-- A cell that was there. -/
theorem Stirs.cell {m m' : Manager V} (h : Stirs codec m m') {i : Nat} {c' : Cell V}
    (hc' : m'.cells[i]? = some c') : ∃ c, m.cells[i]? = some c ∧ c.Steps codec c' := by
  rcases List.getElem?_eq_some_iff.mp hc' with ⟨hi, _⟩
  have hc := List.getElem?_eq_getElem (h.length ▸ hi)
  rcases h.cells i _ hc with ⟨c'', hc'', hsteps⟩
  cases hc'.symm.trans hc''
  exact ⟨_, hc, hsteps⟩

theorem Stirs.supervised_none {m m' : Manager V} (h : Stirs codec m m') {i : Nat}
    (hnone : m.supervised i = none) : m'.supervised i = none := by
  refine Manager.supervised_none.mpr fun c' hc' => ?_
  rcases h.cell hc' with ⟨c, hc, hsteps⟩
  rw [Cell.Steps, Manager.supervised_none.mp hnone c hc] at hsteps
  exact hsteps.1

/-- The supervisor that was there. -/
theorem Stirs.supervised_of {m m' : Manager V} (h : Stirs codec m m') {i : Nat}
    {sv' : Supervisor V} (hsv' : m'.supervised i = some sv') :
    ∃ sv, m.supervised i = some sv ∧ sv.Onward codec sv' := by
  cases hsv : m.supervised i with
  | none =>
      rw [h.supervised_none hsv] at hsv'
      cases hsv'
  | some sv =>
      rcases h.supervised hsv with ⟨sv'', hsv'', ho⟩
      cases hsv'.symm.trans hsv''
      exact ⟨sv, rfl, ho⟩

theorem Stirs.onward {m m' : Manager V} (h : Stirs codec m m') : m.Onward codec m' where
  later := .of_slots h.nonce h.issued h.handles fun _ hs =>
    List.mem_map_of_mem (h.slots.subset hs)
  terminal := h.terminal
  grows := Nat.le_of_eq h.length.symm
  sealed _ := h.length
  slots s hs := .inl ⟨s, h.slots.subset hs, rfl, rfl, fun _ => rfl⟩
  supervised _ _ hsv := h.supervised hsv
  vacant _ _ hnone _ := h.supervised_none hnone

theorem Stirs.kept {m m' : Manager V} (h : Stirs codec m m') (hk : m.Kept codec) :
    m'.Kept codec where
  counted := h.onward.later.counted hk.counted
  cells := by rw [h.length, h.issued, hk.cells]
  bounded := Nat.le_trans h.slots.length_le hk.bounded
  distinct := hk.distinct.sublist (h.slots.map _)
  named s hs := by
    rw [h.issued, h.onward.later.handle]
    exact hk.named s (h.slots.subset hs)
  blank i c' hc' hnone := by
    rcases h.cell hc' with ⟨c, hc, hsteps⟩
    cases hs : c.supervisor with
    | none =>
        rw [Cell.Steps, hs] at hsteps
        exact (hk.blank i c hc hs).trans hsteps.2
    | some s =>
        rw [Cell.Steps, hs] at hsteps
        rcases hsteps with ⟨s', hs', _⟩
        cases hnone.symm.trans hs'
  bare s hs hplan := by
    rcases hk.bare s (h.slots.subset hs) hplan with ⟨hcommands, hnone⟩
    exact ⟨hcommands, h.supervised_none hnone⟩
  spawned s hs plan hplan := by
    rcases hk.spawned s (h.slots.subset hs) plan hplan with ⟨hcommands, sv, hsv, hb⟩
    rcases h.supervised hsv with ⟨sv', hsv', ho⟩
    exact ⟨hcommands, sv', hsv', ho.behaves _ _ hb⟩
  behaved i sv' hsv' := by
    rcases h.supervised_of hsv' with ⟨sv, hsv, ho⟩
    rcases hk.behaved i sv hsv with ⟨plan, cached, hb⟩
    exact ⟨plan, cached, ho.behaves _ _ hb⟩
  admitted i sv' hsv' hopen := by
    rcases h.supervised_of hsv' with ⟨sv, hsv, ho⟩
    have hwas : sv.world.state.closed = false := by
      refine Bool.eq_false_iff.mpr fun hc => ?_
      rw [ho.closed (hk.finished hsv hc) hc] at hopen
      cases hopen
    rcases hk.admitted i sv hsv hwas with ⟨s, hs, hcell⟩
    -- A slot whose supervisor is at work is not dropped.
    refine ⟨s, ?_, hcell⟩
    by_contra hgone
    have hc := h.dropped s hs hgone sv (hcell ▸ hsv)
    rw [hwas] at hc
    cases hc

theorem stirs_dropSlots {m : Manager V} {dropped : WorkerHandle × Slot → Bool}
    (h : ∀ s ∈ m.slots, dropped s = true → m.Spent s.2.cell) :
    Stirs codec m (m.dropSlots dropped) where
  nonce := rfl
  issued := rfl
  handles := rfl
  terminal := id
  slots := List.filter_sublist
  dropped s hs hgone := by
    refine h s hs ?_
    by_contra hkeep
    refine hgone (List.mem_filter.mpr ⟨hs, ?_⟩)
    rw [Bool.eq_false_iff.mpr hkeep]
    rfl
  length := List.length_mapIdx
  cells i c hc := by
    refine ⟨_, by rw [dropSlots, List.getElem?_mapIdx, hc]; rfl, ?_⟩
    split <;> exact .of_eq rfl rfl

theorem stirs_modify {m : Manager V} {cell : Nat} {f : Cell V → Cell V}
    (h : ∀ c, m.cells[cell]? = some c → c.Steps codec (f c)) : Stirs codec m (m.modify cell f) where
  nonce := rfl
  issued := rfl
  handles := rfl
  terminal := id
  slots := List.Sublist.refl _
  dropped s hs hgone := absurd hs hgone
  length := List.length_modify ..
  cells i c hc := by
    refine ⟨_, by rw [modify, List.getElem?_modify, hc]; rfl, ?_⟩
    split
    · rename_i hi
      cases hi
      exact h c hc
    · exact .of_eq rfl rfl

theorem stirs_shutdown (m : Manager V) : Stirs codec m m.shutdown.2 where
  nonce := rfl
  issued := rfl
  handles := rfl
  terminal _ := rfl
  slots := List.Sublist.refl _
  dropped s hs hgone := absurd hs hgone
  length := List.length_mapIdx
  cells i c hc := by
    refine ⟨_, by rw [shutdown, List.getElem?_mapIdx, hc]; rfl, ?_⟩
    split
    · exact c.steps_signal
    · exact .of_eq rfl rfl

theorem stirs_env {m m' : Manager V} {c : ManagerChoice V} (h : m.env codec c = some m') :
    Stirs codec m m' := by
  cases c with
  | tick elapsed =>
      cases h
      exact ⟨rfl, rfl, rfl, id, .refl _, fun s hs hgone => absurd hs hgone, rfl,
        fun i c hc => ⟨c, hc, .of_eq rfl rfl⟩⟩
  | supervise cell move =>
      simp only [env] at h
      split at h
      · rename_i s stop hc
        split at h
        · cases h
        · cases h
        · rcases Option.map_eq_some_iff.mp h with ⟨s', hm, rfl⟩
          refine stirs_modify fun c hc' => ?_
          cases hc.symm.trans hc'
          exact Cell.steps_supervisor rfl (Supervisor.onward_move hm) rfl
      · cases h
  | take cell replyClosed =>
      simp only [env] at h
      split at h
      · rename_i s command queue hc
        rcases Option.map_eq_some_iff.mp h with ⟨s', hm, rfl⟩
        refine stirs_modify fun c hc' => ?_
        cases hc.symm.trans hc'
        exact Cell.steps_supervisor rfl (Supervisor.onward_move hm) rfl
      · cases h
  | pass | reply | flag => cases h

/-! ## A new slot -/

omit [BEq V] in
/-- The slot of a handle is in the book. -/
theorem mem_of_slot {m : Manager V} {handle : WorkerHandle} {slot : Slot}
    (h : m.slot handle = some slot) : (handle, slot) ∈ m.slots := by
  rcases List.lookup_eq_some_iff.mp h with ⟨l₁, l₂, heq, _⟩
  rw [heq]
  exact List.mem_append_right _ (List.mem_cons_self ..)

/-- A cell belongs to one slot. -/
theorem Kept.unique {m : Manager V} (hk : m.Kept codec) {s t : WorkerHandle × Slot}
    (hs : s ∈ m.slots) (ht : t ∈ m.slots) (h : s.1 = t.1 ∨ s.2.cell = t.2.cell) : s = t := by
  have hname : s.1 = t.1 := by
    rcases h with h | h
    · exact h
    · rw [(hk.named s hs).2, (hk.named t ht).2, h]
  exact List.inj_on_of_nodup_map hk.distinct hs ht hname

omit [BEq V] in
/-- A new cell has no supervisor. -/
theorem supervised_push {m m' : Manager V} {cell : Cell V} (hc : m'.cells = m.cells ++ [cell])
    (hnone : cell.supervisor = none) (i : Nat) : m'.supervised i = m.supervised i := by
  rw [supervised, supervised, hc, List.getElem?_append]
  split
  · rfl
  · rename_i hi
    rw [List.getElem?_eq_none (Nat.le_of_not_lt hi)]
    cases hcell : [cell][i - m.cells.length]? with
    | none => rfl
    | some c =>
        rw [List.mem_singleton.mp (List.mem_of_getElem? hcell)]
        exact hnone

/-- A slot entered for the next handle, with a new cell. -/
theorem kept_push {m m' : Manager V} (slot : Slot) (cell : Cell V) (hk : m.Kept codec)
    (hterminal : m.terminal = false) (hroom : m.slots.length < CAPACITY)
    (hissued : m.issued < U64_MAX) (hplan : slot.plan = none) (hcommands : slot.commands = false)
    (hslot : slot.cell = m.cells.length) (hnone : cell.supervisor = none)
    (hstate : cell.state = State.new .reserved)
    (hm' : m' = { m with
      issued := m.issued + 1
      slots := m.slots ++ [(m.handle (m.issued + 1), slot)]
      cells := m.cells ++ [cell]
      handles := m.handles ++ [m.handle (m.issued + 1)] }) :
    m'.Kept codec ∧ m.Onward codec m' := by
  have hcells : m'.cells = m.cells ++ [cell] := by rw [hm']
  have hslots : m'.slots = m.slots ++ [(m.handle (m.issued + 1), slot)] := by rw [hm']
  have hsame := supervised_push hcells hnone
  have hlater : Later m m' := by
    rw [hm']
    refine ⟨rfl, Nat.le_succ _, fun hc => ⟨hissued, ?_⟩, fun s hs => ?_⟩
    · rw [List.range_succ, List.map_append, hc.handles]
      rfl
    · rcases List.mem_append.mp hs with hs | hs
      · exact .inl (List.mem_map_of_mem hs)
      · rw [List.mem_singleton.mp hs]
        exact .inr ⟨_, Nat.lt_succ_self _, Nat.le_refl _, rfl⟩
  have hmem : ∀ s ∈ m'.slots, s ∈ m.slots ∨ s = (m.handle (m.issued + 1), slot) := by
    intro s hs
    rw [hslots] at hs
    exact (List.mem_append.mp hs).imp id List.mem_singleton.mp
  have hlength : m'.cells.length = m.cells.length + 1 := by
    rw [hcells, List.length_append, List.length_singleton]
  have hissued' : m'.issued = m.issued + 1 := by rw [hm']
  refine ⟨?_, ?_⟩
  · refine
      { counted := hlater.counted hk.counted
        cells := by rw [hlength, hissued', hk.cells]
        bounded := ?_, distinct := ?_, named := ?_, blank := ?_, bare := ?_, spawned := ?_
        behaved := fun i sv hsv => hk.behaved i sv (hsame i ▸ hsv), admitted := ?_ }
    · rw [hslots, List.length_append, List.length_singleton]
      exact hroom
    · rw [hslots, List.map_append, List.nodup_append]
      refine ⟨hk.distinct, List.nodup_singleton _, ?_⟩
      intro h hh h' hh' heq
      rcases List.mem_map.mp hh with ⟨s, hs, rfl⟩
      rw [List.mem_singleton.mp hh'] at heq
      have hn := handle_injective ((hk.named s hs).2.symm.trans heq)
      have hlt := (hk.named s hs).1
      omega
    · intro s hs
      rw [hissued', hlater.handle]
      rcases hmem s hs with hs | rfl
      · exact ⟨Nat.lt_succ_of_lt (hk.named s hs).1, (hk.named s hs).2⟩
      · dsimp only
        rw [hslot, hk.cells]
        exact ⟨Nat.lt_succ_self _, rfl⟩
    · intro i c hc hs
      rw [hcells, List.getElem?_append] at hc
      split at hc
      · exact hk.blank i c hc hs
      · rw [List.mem_singleton.mp (List.mem_of_getElem? hc), hstate]
        exact .refl _
    · intro s hs hnoplan
      rw [hsame]
      rcases hmem s hs with hs | rfl
      · exact hk.bare s hs hnoplan
      · refine ⟨hcommands, ?_⟩
        dsimp only
        rw [hslot, supervised, List.getElem?_eq_none (Nat.le_refl _)]
        rfl
    · intro s hs plan hsome
      rw [hsame]
      rcases hmem s hs with hs | rfl
      · exact hk.spawned s hs plan hsome
      · cases hplan.symm.trans hsome
    · intro i sv hsv hc
      rw [hsame] at hsv
      rcases hk.admitted i sv hsv hc with ⟨s, hs, hcell⟩
      exact ⟨s, hslots ▸ List.mem_append_left _ hs, hcell⟩
  · refine
      { later := hlater
        terminal := fun ht => by rw [hterminal] at ht; cases ht
        sealed := fun ht => by rw [hterminal] at ht; cases ht
        grows := Nat.le_of_lt (Nat.lt_of_lt_of_eq (Nat.lt_succ_self _) hlength.symm)
        slots := ?_
        supervised := fun i sv hsv => ⟨sv, (hsame i).trans hsv, .refl sv⟩
        vacant := fun i _ hnone _ => (hsame i).trans hnone }
    intro s hs
    rcases hmem s hs with hs | rfl
    · exact .inl ⟨s, hs, rfl, rfl, fun _ => rfl⟩
    · exact .inr ⟨hterminal, Nat.le_of_eq hslot.symm⟩

theorem kept_reserve {m : Manager V} (hk : m.Kept codec) :
    m.reserve.2.Kept codec ∧ m.Onward codec m.reserve.2 := by
  rw [reserve]
  split
  · exact ⟨hk, .refl m⟩
  · rename_i hterminal
    dsimp only
    generalize hpurged : m.dropSlots _ = purged
    have hstirs : Stirs codec m purged := by
      rw [← hpurged]
      refine stirs_dropSlots fun s hs hdrop sv hsv => ?_
      have hwatch : m.watch s.2.cell = sv.world.state := by
        rcases supervised_some.mp hsv with ⟨c, hc, hsup⟩
        rw [watch, hc]
        dsimp only
        rw [Cell.watch, hsup]
      cases hc : sv.world.state.closed with
      | true => rfl
      | false =>
          -- Only a reservation is too old, and it has no supervisor.
          rw [hwatch, hc] at hdrop
          cases hplan : s.2.plan with
          | none =>
              rw [(hk.bare s hs hplan).2] at hsv
              cases hsv
          | some plan =>
              rw [hplan] at hdrop
              cases hdrop
    have hk' := hstirs.kept hk
    have hterminal' : purged.terminal = false := by
      rw [← hpurged]
      exact Bool.eq_false_iff.mpr hterminal
    split
    · exact ⟨hk', hstirs.onward⟩
    · rename_i hroom
      split
      · exact ⟨hk', hstirs.onward⟩
      · rename_i hissued
        have hpush := kept_push
          { reservedAt := purged.now, plan := none, cached := none, commands := false
            cell := purged.cells.length }
          { stop := false, queue := [], state := State.new .reserved, supervisor := none }
          hk' hterminal' (Nat.lt_of_not_le hroom) (Nat.lt_of_not_le hissued) rfl rfl rfl rfl rfl rfl
        exact ⟨hpush.1, hstirs.onward.trans hpush.2⟩

/-! ## A new supervisor -/

/-- A supervisor spawned for the slot of a handle. -/
def spawn (m : Manager V) (handle : WorkerHandle) (slot : Slot) (plan : WorkerPlan)
    (cached : Option Cached) : Manager V :=
  (m.putSlot handle { slot with plan := some plan, cached := cached, commands := true }).modify
    slot.cell fun c => { c with supervisor := some (Supervisor.new plan cached m.now) }

theorem kept_spawn {m : Manager V} {handle : WorkerHandle} {slot : Slot} (plan : WorkerPlan)
    (cached : Option Cached) (hk : m.Kept codec) (hterminal : m.terminal = false)
    (hslot : m.slot handle = some slot) (hplan : slot.plan = none) :
    (m.spawn handle slot plan cached).Kept codec ∧
      m.Onward codec (m.spawn handle slot plan cached) := by
  have hmem := mem_of_slot hslot
  have hnone : m.supervised slot.cell = none := (hk.bare _ hmem hplan).2
  have hlt : slot.cell < m.cells.length := by
    rw [hk.cells]
    exact (hk.named _ hmem).1
  -- The cell of the slot is filled, and no other.
  have hsame : ∀ i, i ≠ slot.cell →
      (m.spawn handle slot plan cached).supervised i = m.supervised i := by
    intro i hi
    rw [supervised, spawn, modify, List.getElem?_modify_ne _ _ (Ne.symm hi)]
    rfl
  have hnew : (m.spawn handle slot plan cached).supervised slot.cell =
      some (Supervisor.new plan cached m.now) := by
    rw [supervised, spawn, modify, List.getElem?_modify_eq, putSlot,
      List.getElem?_eq_getElem hlt]
    rfl
  -- The slot of the handle is replaced, and no other.
  have hslots : ∀ s ∈ (m.spawn handle slot plan cached).slots,
      s = (handle, { slot with plan := some plan, cached := cached, commands := true }) ∨
        s ∈ m.slots ∧ s.2.cell ≠ slot.cell := by
    intro s hs
    rcases List.mem_map.mp hs with ⟨t, ht, rfl⟩
    split
    · exact .inl rfl
    · rename_i hne
      refine .inr ⟨ht, fun hcell => hne ?_⟩
      rw [hk.unique ht hmem (.inr hcell)]
  have hfst : (m.spawn handle slot plan cached).slots.map Prod.fst = m.slots.map Prod.fst := by
    change (m.slots.map _).map Prod.fst = _
    rw [List.map_map]
    refine List.map_congr_left fun s _ => ?_
    rw [Function.comp_apply]
    split
    · rename_i heq
      exact heq.symm
    · rfl
  have hlater : Later m (m.spawn handle slot plan cached) :=
    (later_putSlot m handle _).trans (later_modify _ _ _)
  have hlength : (m.spawn handle slot plan cached).cells.length = m.cells.length :=
    List.length_modify ..
  refine ⟨?_, ?_⟩
  · refine
      { counted := hlater.counted hk.counted
        cells := hlength.trans hk.cells
        bounded := ?_, distinct := hfst ▸ hk.distinct, named := ?_, blank := ?_, bare := ?_
        spawned := ?_, behaved := ?_, admitted := ?_ }
    · rw [← List.length_map (f := Prod.fst), hfst, List.length_map]
      exact hk.bounded
    · intro s hs
      rw [hlater.handle]
      have hnamed := hk.named _ hmem
      rcases hslots s hs with rfl | ⟨hs, _⟩
      · exact hnamed
      · exact hk.named s hs
    · intro i c hc hnosup
      by_cases hi : i = slot.cell
      · rw [hi] at hc
        have hsome := hnew
        rw [supervised, hc] at hsome
        cases hnosup.symm.trans hsome
      · change (m.cells.modify slot.cell _)[i]? = some c at hc
        rw [List.getElem?_modify_ne _ _ (Ne.symm hi)] at hc
        exact hk.blank i c hc hnosup
    · intro s hs hnoplan
      rcases hslots s hs with rfl | ⟨hs, hne⟩
      · cases hnoplan
      · rw [hsame _ hne]
        exact hk.bare s hs hnoplan
    · intro s hs plan' hplan'
      rcases hslots s hs with rfl | ⟨hs, hne⟩
      · cases hplan'
        exact ⟨rfl, _, hnew, Supervisor.behaves_new codec plan cached m.now⟩
      · rw [hsame _ hne]
        exact hk.spawned s hs plan' hplan'
    · intro i sv hsv
      by_cases hi : i = slot.cell
      · rw [hi, hnew] at hsv
        cases hsv
        exact ⟨plan, cached, Supervisor.behaves_new codec plan cached m.now⟩
      · exact hk.behaved i sv ((hsame i hi).symm.trans hsv)
    · intro i sv hsv hopen
      by_cases hi : i = slot.cell
      · refine ⟨(handle, { slot with plan := some plan, cached := cached, commands := true }), ?_,
          hi.symm⟩
        exact List.mem_map.mpr ⟨_, hmem, if_pos rfl⟩
      · rcases hk.admitted i sv ((hsame i hi).symm.trans hsv) hopen with ⟨s, hs, hcell⟩
        refine ⟨s, List.mem_map.mpr ⟨s, hs, if_neg fun heq => hi ?_⟩, hcell⟩
        rw [← hcell, hk.unique hs hmem (.inl heq)]
  · refine
      { later := hlater
        terminal := id
        grows := Nat.le_of_eq hlength.symm
        sealed := fun _ => hlength
        slots := ?_, supervised := ?_, vacant := ?_ }
    · intro s hs
      rcases hslots s hs with rfl | ⟨hs, _⟩
      · refine .inl ⟨_, hmem, rfl, rfl, fun hkeep => ?_⟩
        rw [hplan, hterminal] at hkeep
        cases hkeep <;> rename_i hkeep <;> cases hkeep
      · exact .inl ⟨s, hs, rfl, rfl, fun _ => rfl⟩
    · intro i sv hsv
      by_cases hi : i = slot.cell
      · rw [hi, hnone] at hsv
        cases hsv
      · exact ⟨sv, (hsame i hi).trans hsv, .refl sv⟩
    · intro i _ hnosup hreason
      by_cases hi : i = slot.cell
      · rcases hreason with ht | hreason
        · rw [hterminal] at ht
          cases ht
        · exact absurd hi.symm (hreason _ hmem)
      · exact (hsame i hi).trans hnosup

theorem kept_enlist {m : Manager V} (hk : m.Kept codec) (handle : WorkerHandle)
    (plan : WorkerPlan) (cached : Option Cached) :
    (m.enlist handle plan cached).2.Kept codec ∧
      m.Onward codec (m.enlist handle plan cached).2 := by
  rw [enlist]
  split
  · exact ⟨hk, .refl m⟩
  · rename_i hterminal
    split
    · exact ⟨hk, .refl m⟩
    · rename_i slot hslot
      split
      · exact ⟨hk, .refl m⟩
      · split
        · split <;> exact ⟨hk, .refl m⟩
        · rename_i hplan
          split
          · exact ⟨hk, .refl m⟩
          · exact kept_spawn plan cached hk (Bool.eq_false_iff.mpr hterminal) hslot hplan

/-! ## Every effect -/

theorem kept_submit {m : Manager V} (hk : m.Kept codec) (handle : WorkerHandle)
    (command : Command V) :
    (m.submit handle command).2.Kept codec ∧ m.Onward codec (m.submit handle command).2 := by
  have hqueue : ∀ cell, Stirs codec m
      (m.modify cell fun c => { c with queue := c.queue ++ [command] }) :=
    fun cell => stirs_modify fun c _ => .of_eq rfl rfl
  rw [submit]
  split
  · exact ⟨hk, .refl m⟩
  · split
    · exact ⟨hk, .refl m⟩
    · split
      · exact ⟨hk, .refl m⟩
      · split
        · exact ⟨hk, .refl m⟩
        · split
          · exact ⟨hk, .refl m⟩
          · split
            · split
              · exact ⟨hk, .refl m⟩
              · exact ⟨(hqueue _).kept hk, (hqueue _).onward⟩
            · exact ⟨hk, .refl m⟩

/-- A slot is removed whose supervisor has closed, or that never had one. -/
theorem stirs_remove {m : Manager V} (hk : m.Kept codec) {handle : WorkerHandle} {cell : Nat}
    (hname : handle = m.handle (cell + 1)) (hspent : m.Spent cell) :
    Stirs codec m (m.remove handle) := by
  refine stirs_dropSlots fun s hs hdrop => ?_
  have hn := handle_injective (((hk.named s hs).2.symm.trans (of_decide_eq_true hdrop)).trans hname)
  rw [Nat.succ.inj hn]
  exact hspent

theorem kept_stop {m : Manager V} (hk : m.Kept codec) (handle : WorkerHandle) :
    (m.stop handle).2.Kept codec ∧ m.Onward codec (m.stop handle).2 := by
  rw [stop]
  split
  · exact ⟨hk, .refl m⟩
  · rename_i slot hslot
    have hmem := mem_of_slot hslot
    have hsignal : Stirs codec m (m.modify slot.cell signal) :=
      stirs_modify fun c _ => c.steps_signal
    dsimp only
    split
    · rename_i hcommands
      -- Without a queue there is no supervisor.
      have hnone : m.supervised slot.cell = none := by
        cases hplan : slot.plan with
        | none => exact (hk.bare _ hmem hplan).2
        | some plan =>
            have htrue := (hk.spawned _ hmem plan hplan).1
            rw [htrue] at hcommands
            cases hcommands
      have hremove := stirs_remove (hsignal.kept hk) (hk.named _ hmem).2 fun sv hsv => by
        rw [hsignal.supervised_none hnone] at hsv
        cases hsv
      exact ⟨hremove.kept (hsignal.kept hk), hsignal.onward.trans hremove.onward⟩
    · exact ⟨hsignal.kept hk, hsignal.onward⟩

/-- What is known where slots are given up. -/
def Grants {β : Type} (op : BookOp V β) (w : Manager V × Caller V) : Prop :=
  match op with
  | .remove handle => ∃ cell, handle = w.1.handle (cell + 1) ∧ w.1.Shut cell
  | .clear => w.1.terminal = true ∧ ∀ s ∈ w.1.slots, s.2.commands = true → w.1.Shut s.2.cell
  | _ => True

omit [BEq V] in
theorem Shut.spent {m : Manager V} {i : Nat} (h : m.Shut i) : m.Spent i := by
  rcases h with ⟨sv, hsv, hc, _⟩
  intro sv' hsv'
  cases hsv.symm.trans hsv'
  exact hc

theorem stirs_clear {m : Manager V} (hk : m.Kept codec)
    (hshut : ∀ s ∈ m.slots, s.2.commands = true → m.Shut s.2.cell) : Stirs codec m m.clear := by
  refine stirs_dropSlots fun s hs _ => ?_
  cases hplan : s.2.plan with
  | none =>
      intro sv hsv
      rw [(hk.bare s hs hplan).2] at hsv
      cases hsv
  | some plan => exact (hshut s hs (hk.spawned s hs plan hplan).1).spent

/-- One effect of a call. -/
theorem kept_respond {β : Type} {op : BookOp V β} {m m' : Manager V} {l l' : Caller V}
    {c : ManagerChoice V} {b : β} (hk : m.Kept codec) (hop : Grants op (m, l))
    (h : op.respond (m, l) c = some (b, m', l')) : m'.Kept codec ∧ m.Onward codec m' := by
  cases op with
  | reserve =>
      cases h
      exact kept_reserve hk
  | enlist handle plan cached =>
      cases h
      exact kept_enlist hk handle plan cached
  | submit handle command =>
      cases h
      exact kept_submit hk handle command
  | stop handle =>
      have hstop := kept_stop hk handle
      simp only [BookOp.respond] at h
      split at h <;> rename_i heq <;> cases h <;> rw [heq] at hstop <;> exact hstop
  | remove handle =>
      cases h
      rcases hop with ⟨cell, hname, hshut⟩
      have hstirs := stirs_remove hk hname hshut.spent
      exact ⟨hstirs.kept hk, hstirs.onward⟩
  | shutdown =>
      cases h
      exact ⟨(stirs_shutdown m).kept hk, (stirs_shutdown m).onward⟩
  | clear =>
      cases h
      have hstirs := stirs_clear hk hop.2
      exact ⟨hstirs.kept hk, hstirs.onward⟩
  | prepared cell | waitClosed cell =>
      rcases Option.map_eq_some_iff.mp h with ⟨_, _, heq⟩
      cases heq
      exact ⟨hk, .refl m⟩
  | deadline handle | status handle =>
      cases h
      exact ⟨hk, .refl m⟩
  | response =>
      cases c <;> cases h
      exact ⟨hk, .refl m⟩
  | timedOut due =>
      cases c <;> simp only [BookOp.respond] at h <;> try cases h
      split at h <;> cases h
      exact ⟨hk, .refl m⟩

/-- The outside: time, and the supervisors. -/
theorem kept_env {m m' : Manager V} {c : ManagerChoice V} (hk : m.Kept codec)
    (h : m.env codec c = some m') : m'.Kept codec ∧ m.Onward codec m' :=
  ⟨(stirs_env h).kept hk, (stirs_env h).onward⟩

theorem kept_new (nonce : String) (now : Nat) :
    (Manager.new nonce now : Manager V).Kept codec where
  counted := ⟨Nat.zero_le _, rfl⟩
  cells := rfl
  bounded := Nat.zero_le _
  distinct := List.nodup_nil
  named _ hs := by cases hs
  blank _ _ hc := by cases hc
  bare _ hs := by cases hs
  spawned _ hs := by cases hs
  behaved _ _ hsv := by cases hsv
  admitted _ _ hsv := by cases hsv

end Manager

end TinyRuntime
