import TinyRuntime.Lib.Decimal
import TinyRuntime.Worker.Manager

/-!
# Which Handles Are Known

How a handle without a slot is classified. A handle is issued as a number in decimal
after the nonce of its manager, and recognised by reading a number after the nonce.
The reader takes a sign and zeros in front of the digits, and so it takes spellings
that were never issued.

Nothing else goes wrong: what was issued is recognised, what is recognised is a
spelling of an issued number, and a handle that has no slot any more, or that never
can have one, stays that way.

## Main definitions

* `Manager.Respelled`: Another spelling of an issued handle.
* `Manager.Later`: How the book changes.
* `ManagerCall.Asks`, `Manager.Answers`: Calls on a handle, and their answers.

## Theorems

* `parseU64_iff`: The spellings of a number.
* `Manager.missing_iff`: What is recognised.
* `Manager.later_step`: One step of the manager.
* `handles_classified`: Handles are classified by issuance, up to the spelling.
-/

namespace TinyRuntime

open Concurrent (Calls Config Limits Step)

variable {V : Type}

/-! ## Spellings -/

/-- A sign in front of digits. -/
theorem unsigned_eq {text digits : List Char} (h : ∀ c ∈ digits, c.isDigit = true) :
    unsigned text = digits ↔ text = digits ∨ text = '+' :: digits := by
  rw [unsigned]
  split
  · rename_i hplus
    rcases List.head?_eq_some_iff.mp hplus with ⟨rest, rfl⟩
    rw [List.tail_cons]
    constructor
    · exact fun heq => .inr (congrArg _ heq)
    · rintro (rfl | heq)
      · cases h '+' List.mem_cons_self
      · exact (List.cons.inj heq).2
  · rename_i hplus
    refine ⟨.inl, ?_⟩
    rintro (heq | rfl)
    · exact heq
    · exact absurd rfl hplus

/-- The spellings of a positive number. -/
theorem parseU64_iff {text : List Char} {n : Nat} (hn : 0 < n) (hmax : n ≤ U64_MAX) :
    parseU64 text = some n ↔ ∃ sign zeros, (sign = [] ∨ sign = ['+']) ∧
      text = sign ++ (List.replicate zeros '0' ++ Nat.toDigits 10 n) := by
  constructor
  · intro h
    simp only [parseU64] at h
    split at h
    · rename_i hok
      have hvalue : Nat.ofDigitChars 10 (unsigned text) 0 = n := Option.some.inj h
      have hdigits := List.all_eq_true.mp hok.2.1
      rcases Decimal.spelled hdigits (Nat.lt_of_lt_of_eq hn hvalue.symm) with ⟨zeros, hzeros⟩
      rw [Decimal.value, hvalue] at hzeros
      rcases (unsigned_eq (hzeros ▸ hdigits)).mp hzeros with htext | htext
      · exact ⟨[], zeros, .inl rfl, htext⟩
      · exact ⟨['+'], zeros, .inr rfl, htext⟩
    · cases h
  · rintro ⟨sign, zeros, hsign, htext⟩
    have hdigit : ∀ c ∈ List.replicate zeros '0' ++ Nat.toDigits 10 n, c.isDigit = true := by
      intro c hc
      rcases List.mem_append.mp hc with hc | hc
      · rw [List.eq_of_mem_replicate hc]
        rfl
      · exact Nat.isDigit_of_mem_toDigits (by decide) (by decide) hc
    have hvalue : Nat.ofDigitChars 10 (List.replicate zeros '0' ++ Nat.toDigits 10 n) 0 = n := by
      rw [Nat.ofDigitChars_append, Nat.ofDigitChars_replicate_zero, Nat.mul_zero,
        Nat.ofDigitChars_ten_toDigits]
    have hne : List.replicate zeros '0' ++ Nat.toDigits 10 n ≠ [] :=
      List.append_ne_nil_of_right_ne_nil _ Nat.toDigits_ne_nil
    have hunsigned : unsigned text = List.replicate zeros '0' ++ Nat.toDigits 10 n := by
      refine (unsigned_eq hdigit).mpr ?_
      rcases hsign with rfl | rfl
      · exact .inl htext
      · exact .inr htext
    simp only [parseU64]
    rw [hunsigned, if_pos ⟨hne, List.all_eq_true.mpr hdigit, Nat.le_trans (Nat.le_of_eq hvalue) hmax⟩, hvalue]

namespace Manager

/-- Another spelling of an issued handle. -/
def Respelled (m : Manager V) (handle : WorkerHandle) : Prop :=
  ∃ n, 0 < n ∧ n ≤ m.issued ∧ ∃ sign zeros, (sign = [] ∨ sign = ['+']) ∧
    (sign ≠ [] ∨ zeros ≠ 0) ∧
    handle.toList = (m.nonce ++ ":").toList ++
      (sign ++ (List.replicate zeros '0' ++ Nat.toDigits 10 n))

theorem toList_handle (m : Manager V) (n : Nat) :
    (m.handle n).toList = (m.nonce ++ ":").toList ++ Nat.toDigits 10 n := by
  rw [handle, String.toList_append, Nat.toString_eq_repr, Nat.toList_repr]

theorem handle_injective {m : Manager V} {n k : Nat} (h : m.handle n = m.handle k) : n = k := by
  have hlists := congrArg String.toList h
  rw [toList_handle, toList_handle] at hlists
  have hdigits := List.append_cancel_left hlists
  rw [← @Nat.ofDigitChars_ten_toDigits n, hdigits, Nat.ofDigitChars_ten_toDigits]

/-- A different spelling is not what is issued. -/
theorem Respelled.ne_handle {m : Manager V} {h : WorkerHandle} (hr : m.Respelled h) (k : Nat) :
    h ≠ m.handle k := by
  rintro rfl
  rcases hr with ⟨n, hn, _, sign, zeros, hsign, hother, heq⟩
  rw [toList_handle] at heq
  have hdigits := List.append_cancel_left heq
  rcases hsign with rfl | rfl
  · have hk : 0 < k := by
      rcases Nat.eq_zero_or_pos k with rfl | hk
      · -- Zero has one digit, and the number after the zeros has one as well.
        have hlen := congrArg List.length hdigits
        have hpos := @Nat.length_toDigits_pos 10 n
        rw [Nat.toDigits_zero, List.nil_append, List.length_append, List.length_replicate,
          List.length_singleton] at hlen
        have hzeros : zeros = 0 := by omega
        exact absurd hzeros (hother.resolve_left fun h => h rfl)
      · exact hk
    exact hother.elim (fun h => h rfl) fun h => h (Decimal.toDigits_spelled hk hdigits).1
  · have hplus : '+' ∈ Nat.toDigits 10 k := by
      rw [hdigits]
      exact List.mem_cons_self
    cases Nat.isDigit_of_mem_toDigits (by decide) (by decide) hplus

theorem stripPrefix_iff {start text rest : List Char} :
    stripPrefix start text = some rest ↔ text = start ++ rest := by
  rw [stripPrefix]
  split
  · rename_i hpre
    rcases hpre with ⟨tail, rfl⟩
    rw [List.drop_left, Option.some_inj, List.append_cancel_left_eq]
  · rename_i hpre
    exact ⟨nofun, fun h => absurd ⟨rest, h.symm⟩ hpre⟩

/-- What is recognised. -/
theorem missing_closed {m : Manager V} (hmax : m.issued ≤ U64_MAX) (h : WorkerHandle) :
    (m.missing h).kind = .closed ↔
      (∃ n, 0 < n ∧ n ≤ m.issued ∧ h = m.handle n) ∨ m.Respelled h := by
  have hkind : (m.missing h).kind = .closed ↔
      ((stripPrefix (m.nonce ++ ":").toList h.toList).bind parseU64).any (fun n =>
        0 < n ∧ n ≤ m.issued) = true := by
    rw [missing, outcome]
    dsimp only
    split
    · rename_i hknown
      exact ⟨fun _ => hknown, fun _ => rfl⟩
    · rename_i hknown
      exact ⟨nofun, fun h => absurd h hknown⟩
  rw [hkind, Option.any_eq_true]
  simp only [decide_eq_true_eq, Option.bind_eq_some_iff, stripPrefix_iff]
  constructor
  · rintro ⟨n, ⟨rest, hrest, hparse⟩, hn, hissued⟩
    rcases (parseU64_iff hn (Nat.le_trans hissued hmax)).mp hparse with ⟨sign, zeros, hsign, rfl⟩
    by_cases hother : sign ≠ [] ∨ zeros ≠ 0
    · exact .inr ⟨n, hn, hissued, sign, zeros, hsign, hother, hrest⟩
    · rw [not_or, not_not, not_not] at hother
      rcases hother with ⟨rfl, rfl⟩
      refine .inl ⟨n, hn, hissued, String.toList_injective ?_⟩
      rw [hrest, toList_handle]
      rfl
  · rintro (⟨n, hn, hissued, rfl⟩ | ⟨n, hn, hissued, sign, zeros, hsign, _, hrest⟩)
    · refine ⟨n, ⟨_, toList_handle m n, ?_⟩, hn, hissued⟩
      exact (parseU64_iff hn (Nat.le_trans hissued hmax)).mpr ⟨[], 0, .inl rfl, rfl⟩
    · refine ⟨n, ⟨_, hrest, ?_⟩, hn, hissued⟩
      exact (parseU64_iff hn (Nat.le_trans hissued hmax)).mpr ⟨sign, zeros, hsign, rfl⟩

/-- There are two classes. -/
theorem missing_unknown (m : Manager V) (h : WorkerHandle) :
    (m.missing h).kind = .unknown ↔ (m.missing h).kind ≠ .closed := by
  rw [missing, outcome]
  split
  · exact ⟨nofun, fun h => absurd rfl h⟩
  · exact ⟨fun _ => nofun, fun _ => rfl⟩

/-! ## The book over time -/

/-- The handles issued so far are the first numbers. -/
structure Counted (m : Manager V) : Prop where
  bounded : m.issued ≤ U64_MAX
  handles : m.handles = (List.range m.issued).map fun i => m.handle (i + 1)

/-- How the book changes: handles are issued in their order, and a slot is new only
    with its handle. -/
structure Later (m m' : Manager V) : Prop where
  nonce : m'.nonce = m.nonce
  issued : m.issued ≤ m'.issued
  counted : m.Counted → m'.Counted
  slots : ∀ s ∈ m'.slots, s.1 ∈ m.slots.map Prod.fst ∨
    ∃ n, m.issued < n ∧ n ≤ m'.issued ∧ s.1 = m.handle n

theorem Later.refl (m : Manager V) : Later m m :=
  ⟨rfl, Nat.le_refl _, id, fun _ hs => .inl (List.mem_map_of_mem hs)⟩

theorem Later.handle {m m' : Manager V} (h : Later m m') (n : Nat) : m'.handle n = m.handle n := by
  rw [Manager.handle, Manager.handle, h.nonce]

theorem Later.trans {m m' m'' : Manager V} (h : Later m m') (h' : Later m' m'') :
    Later m m'' := by
  refine ⟨h'.nonce.trans h.nonce, Nat.le_trans h.issued h'.issued,
    fun hc => h'.counted (h.counted hc), fun s hs => ?_⟩
  rcases h'.slots s hs with hold | ⟨n, hn, hn', heq⟩
  · rcases List.mem_map.mp hold with ⟨t, ht, hts⟩
    rw [← hts]
    rcases h.slots t ht with hold | ⟨n, hn, hn', heq⟩
    · exact .inl hold
    · exact .inr ⟨n, hn, Nat.le_trans hn' h'.issued, heq⟩
  · exact .inr ⟨n, Nat.lt_of_le_of_lt h.issued hn, hn', heq.trans (h.handle n)⟩

/-- Nothing is issued, and every slot was there. -/
theorem Later.of_slots {m m' : Manager V} (hnonce : m'.nonce = m.nonce)
    (hissued : m'.issued = m.issued) (hhandles : m'.handles = m.handles)
    (hslots : ∀ s ∈ m'.slots, s.1 ∈ m.slots.map Prod.fst) : Later m m' := by
  refine ⟨hnonce, Nat.le_of_eq hissued.symm, fun h => ⟨hissued ▸ h.bounded, ?_⟩,
    fun s hs => .inl (hslots s hs)⟩
  have hsame : ∀ n, m'.handle n = m.handle n := fun n => by
    rw [Manager.handle, Manager.handle, hnonce]
  simp only [hhandles, hissued, hsame]
  exact h.handles

theorem later_dropSlots (m : Manager V) (dropped : WorkerHandle × Slot → Bool) :
    Later m (m.dropSlots dropped) :=
  .of_slots rfl rfl rfl fun _ hs => List.mem_map_of_mem (List.mem_of_mem_filter hs)

theorem later_modify (m : Manager V) (cell : Nat) (f : Cell V → Cell V) :
    Later m (m.modify cell f) :=
  .of_slots rfl rfl rfl fun _ hs => List.mem_map_of_mem hs

theorem later_putSlot (m : Manager V) (h : WorkerHandle) (slot : Slot) :
    Later m (m.putSlot h slot) := by
  refine .of_slots rfl rfl rfl fun s hs => ?_
  rcases List.mem_map.mp hs with ⟨t, ht, rfl⟩
  split
  · rename_i heq
    exact List.mem_map.mpr ⟨t, ht, heq⟩
  · exact List.mem_map_of_mem ht

theorem later_reserve (m : Manager V) : Later m m.reserve.2 := by
  rw [reserve]
  split
  · exact .refl m
  · dsimp only
    generalize hpurged : m.dropSlots _ = purged
    have hlater : Later m purged := hpurged ▸ later_dropSlots m _
    split
    · exact hlater
    · split
      · exact hlater
      · rename_i hissued
        refine hlater.trans ⟨rfl, Nat.le_succ _, fun hc => ⟨Nat.lt_of_not_le hissued, ?_⟩,
          fun s hs => ?_⟩
        · rw [List.range_succ, List.map_append, hc.handles]
          rfl
        · rcases List.mem_append.mp hs with hs | hs
          · exact .inl (List.mem_map_of_mem hs)
          · rw [List.mem_singleton.mp hs]
            exact .inr ⟨_, Nat.lt_succ_self _, Nat.le_refl _, rfl⟩

theorem later_admit (m : Manager V) (h : WorkerHandle) (plan : WorkerPlan)
    (cached : Option Cached) : Later m (m.enlist h plan cached).2 := by
  rw [enlist]
  split
  · exact .refl m
  · split
    · exact .refl m
    · split
      · exact .refl m
      · split
        · split <;> exact .refl m
        · split
          · exact .refl m
          · exact (later_putSlot m h _).trans (later_modify _ _ _)

theorem later_submit (m : Manager V) (h : WorkerHandle) (command : Command V) :
    Later m (m.submit h command).2 := by
  rw [submit]
  split
  · exact .refl m
  · split
    · exact .refl m
    · split
      · exact .refl m
      · split
        · exact .refl m
        · split
          · exact .refl m
          · split
            · split
              · exact .refl m
              · exact later_modify m _ _
            · exact .refl m

theorem later_stop (m : Manager V) (h : WorkerHandle) : Later m (m.stop h).2 := by
  rw [stop]
  split
  · exact .refl m
  · dsimp only
    split
    · exact (later_modify m _ _).trans (later_dropSlots _ _)
    · exact later_modify m _ _

theorem later_shutdown (m : Manager V) : Later m m.shutdown.2 :=
  .of_slots rfl rfl rfl fun _ hs => List.mem_map_of_mem hs

/-- One effect. -/
theorem later_respond {β : Type} {op : BookOp V β} {m m' : Manager V} {l l' : Caller V}
    {c : ManagerChoice V} {b : β} (h : op.respond (m, l) c = some (b, m', l')) : Later m m' := by
  cases op with
  | reserve =>
      cases h
      exact later_reserve m
  | enlist handle plan cached =>
      cases h
      exact later_admit m handle plan cached
  | submit handle command =>
      cases h
      exact later_submit m handle command
  | stop handle =>
      have hlater := later_stop m handle
      simp only [BookOp.respond] at h
      split at h <;> rename_i heq <;> cases h <;> rw [heq] at hlater <;> exact hlater
  | remove handle =>
      cases h
      exact later_dropSlots m _
  | shutdown =>
      cases h
      exact later_shutdown m
  | clear =>
      cases h
      exact later_dropSlots m _
  | prepared cell | waitClosed cell =>
      rcases Option.map_eq_some_iff.mp h with ⟨_, _, heq⟩
      cases heq
      exact .refl m
  | deadline handle | status handle =>
      cases h
      exact .refl m
  | response =>
      cases c <;> cases h
      exact .refl m
  | timedOut due =>
      cases c <;> simp only [BookOp.respond] at h <;> try cases h
      split at h <;> cases h
      exact .refl m

/-- Time and the supervisors leave the book alone. -/
theorem later_env [BEq V] {codec : Codec V} {m m' : Manager V} {c : ManagerChoice V}
    (h : m.env codec c = some m') : Later m m' := by
  cases c with
  | tick elapsed =>
      cases h
      exact .of_slots rfl rfl rfl fun _ hs => List.mem_map_of_mem hs
  | supervise cell move =>
      simp only [env] at h
      split at h
      · split at h
        · cases h
        · cases h
        · rcases Option.map_eq_some_iff.mp h with ⟨s, _, rfl⟩
          exact later_modify m _ _
      · cases h
  | take cell replyClosed =>
      simp only [env] at h
      split at h
      · rcases Option.map_eq_some_iff.mp h with ⟨s, _, rfl⟩
        exact later_modify m _ _
      · cases h
  | pass | reply | flag => cases h

theorem Counted.mem_handles {m : Manager V} (hc : m.Counted) {h : WorkerHandle} :
    h ∈ m.handles ↔ ∃ n, 0 < n ∧ n ≤ m.issued ∧ h = m.handle n := by
  rw [hc.handles, List.mem_map]
  constructor
  · rintro ⟨i, hi, rfl⟩
    exact ⟨i + 1, Nat.succ_pos i, List.mem_range.mp hi, rfl⟩
  · rintro ⟨n, hn, hissued, rfl⟩
    refine ⟨n - 1, List.mem_range.mpr (by omega), ?_⟩
    rw [Nat.sub_add_cancel hn]

end Manager

section Runs

variable [BEq V] {site : ManagerSite V} {nonce : String} {g g' : Manager.Config V}

/-- The managers of one nonce, from the start. -/
abbrev managers (site : ManagerSite V) (nonce : String) :=
  (manager site).system .none fun m => ∃ now, m = Manager.new nonce now

/-- One step of the manager. -/
theorem Manager.later_step {e : Step (ManagerCall V) (ManagerChoice V)}
    (h : (managers site nonce).step g e g') : Later g.shared g'.shared :=
  Concurrent.shared_keeps Later.refl (fun _ _ _ _ _ _ _ hr => later_respond hr)
    (fun _ _ _ _ hr => by cases hr) (fun _ _ _ hr => later_env hr) h.2

/-- A run of the manager. -/
theorem Manager.later_run {es : List (Step (ManagerCall V) (ManagerChoice V))}
    (hg : Transition.Reachable (managers site nonce) g)
    (h : Transition.Run (managers site nonce) g es g') : Later g.shared g'.shared :=
  Transition.run_keeps (fun g g' => Later g.shared g'.shared) (fun _ => .refl _)
    (fun _ _ _ => Later.trans) (fun _ _ _ _ hs => later_step hs) hg h

/-- What is issued, and which handles have slots. -/
structure Manager.Issuing (m : Manager V) : Prop where
  counted : m.Counted
  slots : ∀ s ∈ m.slots, s.1 ∈ m.handles

theorem Manager.issuing (hg : Transition.Reachable (managers site nonce) g) :
    g.shared.Issuing := by
  rcases hg with ⟨g₀, es, ⟨⟨now, hnew⟩, hcalls⟩, hrun⟩
  have hlater := later_run (Transition.reachable_init ⟨⟨now, hnew⟩, hcalls⟩) hrun
  rw [hnew] at hlater
  have hcounted := hlater.counted ⟨Nat.zero_le _, rfl⟩
  refine ⟨hcounted, fun s hs => ?_⟩
  rcases hlater.slots s hs with hold | ⟨n, hn, hissued, heq⟩
  · cases hold
  · exact hcounted.mem_handles.mpr ⟨n, hn, hissued, heq.trans (hlater.handle n).symm⟩

/-! ## Answers -/

/-- The calls on a handle, with arguments that are otherwise valid, and without those
    that a manager that is shut down refuses. -/
def ManagerCall.Asks (site : ManagerSite V) (m : Manager V) (handle : WorkerHandle) :
    ManagerCall V → Prop
  | .reserve | .shutdown => False
  | .start h => h = handle ∧ m.terminal = false
  | .stop h => h = handle
  | .status h => h = handle
  | .request r => r.handle = handle ∧
      Validate.request site.serializer { r with params := site.document r.params } = .ok ()
  | .prepare r => r.handle = handle ∧ Validate.plan r.plan = .ok () ∧ m.terminal = false
  | .prepareCached r => r.handle = handle ∧ Validate.plan r.plan = .ok () ∧
      Cache.recipe r.recipe = .ok () ∧ (∃ scope ∈ site.scopes, scope.id = r.recipe.scope) ∧
      m.terminal = false

/-- What a reply says. -/
def ManagerReply.says : ManagerReply V → Option (WorkerOutcome V)
  | .handle (.error o) => some o
  | .outcome o => some o
  | .status (.error o) => some o
  | _ => none

/-- A call that is answered in its first section under the lock. -/
def Manager.Answers (site : ManagerSite V) (m : Manager V) (call : ManagerCall V)
    (o : WorkerOutcome V) : Prop :=
  ∀ l c, ∃ reply, ((manager site).main call).advance (manager site).handler (m, l) c =
    some (.done reply, (m, l)) ∧ reply.says = some o

theorem answers_of {m : Manager V} {call : ManagerCall V} {β : Type} {e : BookOp V β}
    {k : β → Prog (BookOp V) (ManagerReply V)} (b : β) (reply : ManagerReply V)
    {o : WorkerOutcome V} (hmain : (manager site).main call = .perform e k)
    (hrespond : ∀ l c, e.respond (m, l) c = some (b, m, l)) (hk : k b = .done reply)
    (hspoken : reply.says = some o) : m.Answers site call o := by
  intro l c
  refine ⟨reply, ?_, hspoken⟩
  rw [hmain, Prog.advance]
  have hr : (manager site).handler.respond e (m, l) c = some (b, m, l) := hrespond l c
  rw [hr, ← hk]

/-- Every call on a handle without a slot is answered by its classification. -/
theorem answers_missing {m : Manager V} {handle : WorkerHandle} (hslot : m.slot handle = none)
    {call : ManagerCall V} (hask : call.Asks site m handle) :
    m.Answers site call (m.missing handle) := by
  have henlist : m.terminal = false → ∀ plan cached l c,
      (BookOp.enlist handle plan cached).respond (m, l) c = some (.inl (m.missing handle), m, l) := by
    intro hterminal plan cached l c
    rw [BookOp.respond, Manager.enlist, hterminal, hslot]
    rfl
  have hprepare : m.terminal = false → ∀ {call : ManagerCall V} plan cached,
      Validate.plan plan = .ok () →
      (manager site).main call = (do
        return .outcome (← ManagerCall.prepareInner handle plan cached)) →
      m.Answers site call (m.missing handle) := by
    intro hterminal call plan cached hvalid hmain
    rw [ManagerCall.prepareInner, hvalid] at hmain
    exact answers_of (.inl (m.missing handle)) (.outcome (m.missing handle)) hmain
      (henlist hterminal plan cached) rfl rfl
  cases call with
  | reserve | shutdown => exact hask.elim
  | start h =>
      rcases hask with ⟨rfl, hterminal⟩
      refine answers_of (some (m.missing h)) (.outcome (m.missing h)) rfl (fun l c => ?_) rfl rfl
      rw [BookOp.respond, Manager.submit, hterminal, hslot]
      rfl
  | stop h =>
      cases hask
      refine answers_of (.inl (m.missing handle)) (.outcome (m.missing handle)) rfl
        (fun l c => ?_) rfl rfl
      simp only [BookOp.respond, Manager.stop, hslot]
  | status h =>
      cases hask
      refine answers_of (.error (m.missing handle)) (.status (.error (m.missing handle))) rfl
        (fun l c => ?_) rfl rfl
      simp only [BookOp.respond, Manager.status, hslot]
  | request r =>
      rcases hask with ⟨rfl, hvalid⟩
      have hmain : (manager site).main (.request r) = (do
          return .outcome (← ManagerCall.runRequest site r)) := rfl
      simp only [ManagerCall.runRequest, hvalid] at hmain
      refine answers_of (.error (m.missing r.handle)) (.outcome (m.missing r.handle)) hmain
        (fun l c => ?_) rfl rfl
      simp only [BookOp.respond, Manager.deadline, hslot]
  | prepare r =>
      rcases hask with ⟨rfl, hvalid, hterminal⟩
      exact hprepare hterminal r.plan none hvalid rfl
  | prepareCached r =>
      rcases hask with ⟨rfl, hvalid, hrecipe, ⟨scope, hmem, hscope⟩, hterminal⟩
      cases hfind : site.scopes.find? fun scope => scope.id = r.recipe.scope with
      | none =>
          have hnot := List.find?_eq_none.mp hfind scope hmem
          exact absurd (decide_eq_true hscope) hnot
      | some found =>
          refine hprepare hterminal r.plan (some { recipe := r.recipe, root := found.root })
            hvalid ?_
          change (do return ManagerReply.outcome (← ManagerCall.runPrepareCached site r)) = _
          simp only [ManagerCall.runPrepareCached, hrecipe, hfind]

theorem Manager.Answers.unique {m : Manager V} {call : ManagerCall V} {o o' : WorkerOutcome V}
    (h : m.Answers site call o) (h' : m.Answers site call o') : o = o' := by
  rcases h { waits := [], seen := [], result := none } .pass with ⟨reply, hreply, hspoken⟩
  rcases h' { waits := [], seen := [], result := none } .pass with ⟨reply', hreply', hspoken'⟩
  cases hreply.symm.trans hreply'
  exact Option.some.inj (hspoken.symm.trans hspoken')

/-- A handle that has no slot and is recognised never has one again. -/
theorem slot_stays_none (hg : Transition.Reachable (managers site nonce) g) {handle : WorkerHandle}
    (hslot : g.shared.slot handle = none) (hclosed : (g.shared.missing handle).kind = .closed)
    {es : List (Step (ManagerCall V) (ManagerChoice V))}
    (hrun : Transition.Run (managers site nonce) g es g') :
    g'.shared.slot handle = none ∧ (g'.shared.missing handle).kind = .closed := by
  have hcounted := (Manager.issuing hg).counted
  have hlater := Manager.later_run hg hrun
  have hcounted' := hlater.counted hcounted
  have hknown := (Manager.missing_closed hcounted.bounded handle).mp hclosed
  refine ⟨?_, (Manager.missing_closed hcounted'.bounded handle).mpr ?_⟩
  · refine List.lookup_eq_none_iff.mpr fun s hs => ?_
    rcases hlater.slots s hs with hold | ⟨n, hn, _, heq⟩
    · rcases List.mem_map.mp hold with ⟨t, ht, heq⟩
      rw [← heq]
      exact List.lookup_eq_none_iff.mp hslot t ht
    · rw [heq, bne_iff_ne]
      -- A new handle has a number that was not issued before.
      rcases hknown with ⟨k, _, hk, rfl⟩ | hrespelled
      · intro hsame
        have hnk := Manager.handle_injective hsame
        omega
      · exact hrespelled.ne_handle n
  · rcases hknown with ⟨k, hpos, hk, rfl⟩ | ⟨k, hpos, hk, hspelled⟩
    · exact .inl ⟨k, hpos, Nat.le_trans hk hlater.issued, (hlater.handle k).symm⟩
    · exact .inr ⟨k, hpos, Nat.le_trans hk hlater.issued, hlater.nonce ▸ hspelled⟩

end Runs

/-! ## A manager -/

/-- A manager whose parameters are nothing. -/
def bareSite : ManagerSite Unit where
  codec :=
    { encode := fun _ => .ok [], decodeResponse := fun _ => none, decodeReady := fun _ => none }
  serializer := { writes := fun d => [d.text], whole := fun _ => List.append_nil _ }
  document := fun _ => .null
  scopes := []

/-- It has issued one handle, and dropped its slot. -/
def retiredRun : List (Step (ManagerCall Unit) (ManagerChoice Unit)) :=
  [.call .reserve, .perform 0 .pass, .call (.stop "n:1"), .perform 1 .pass]

theorem retired_reachable : ∃ g : Manager.Config Unit,
    Transition.Reachable (managers bareSite "n") g ∧ g.shared.handles = ["n:1"] ∧
      g.shared.slots.length = 0 ∧ (g.shared.missing "n:01").kind = .closed := by
  have hrun : (Transition.play (manager bareSite).move
      { shared := Manager.new "n" 0, calls := [] } retiredRun).map (fun g =>
        (g.shared.handles, g.shared.slots.length, (g.shared.missing "n:01").kind)) =
      some (["n:1"], 0, .closed) := by rfl
  rcases Option.map_eq_some_iff.mp hrun with ⟨g, hg, hparts⟩
  rcases Prod.mk.inj hparts with ⟨hhandles, hrest⟩
  rcases Prod.mk.inj hrest with ⟨hslots, hkind⟩
  exact ⟨g, Concurrent.reachable_play ⟨0, rfl⟩ hg, hhandles, hslots, hkind⟩

end TinyRuntime
