import TinyRuntime.Pool.Conduct

/-!
# The Pool Bound

A pool never has more workers than its settings allow, parked ones, ones in the
hands of a run and half-spawned ones together, whatever is dropped when.

The idle lock is released before the slow spawn, and a worker is parked before
the permit of its run is given back, so no single counter shows the bound. It
holds because the idle list is empty when a run decides to spawn, and because
whoever holds a worker holds a permit (`Slots`). Admission is counted apart
(`Counted`). That a parked worker owes no answer is a matter of ownership
(`Owned`): each child is parked or in the hands of one run, and a run that has
written to a child without being answered is the only one to own it.

Each part is an invariant of its own over the shared state and the locals of all
runs, and each has one step lemma over all effects.

## Main definitions

* `Run.counted`, `Run.admitted`, `Run.slots`, `Run.busy`, `Run.owns`: What a run
  adds to each count.
* `Counted`, `Slots`, `Owned`, `Budgeted`: The parts of the invariant.
* `PoolInvariant`: All of them.

## Theorems

* `Counted.step`, `Slots.step`, `Owned.step`, `Budgeted.step`: What one effect
  keeps.
* `pool_joint`: The invariant is a joint one.
* `pool_bounded`: The bounds in every reachable state.
-/

namespace TinyRuntime

open Concurrent (tally tally_cons tally_perm tally_le le_tally)

/-! ## What a run adds up to -/

/-- Between its `fetch_add` and its `fetch_sub`. -/
def Run.counted (l : Run) : Nat :=
  if l.entered.isSome then 1 else 0

/-- Counted, and let in: the counter showed room. -/
def Run.admitted (capacity : Nat) (l : Run) : Nat :=
  if l.entered.any (· + 1 ≤ capacity) then 1 else 0

/-- The permit of a run. -/
def Run.slots (l : Run) : Nat :=
  if l.permit then 1 else 0

/-- Holding a worker, or spawning one. -/
def Run.busy (l : Run) : Nat :=
  if l.hold = .nothing then 0 else 1

/-- The child in the hands of a run. -/
def Hold.number : Hold → Option Nat
  | .nothing => none
  | .spawning child => child
  | .worker n => some n

def Run.owns (n : Nat) (l : Run) : Nat :=
  if l.hold.number = some n then 1 else 0

/-- How often a child is parked. -/
def parked (idle : List Worker) (n : Nat) : Nat :=
  idle.countP fun w => w.number = n

/-- How often a child is parked or in the hands of a run. -/
def owners (s : Pool) (ls : List Run) (n : Nat) : Nat :=
  parked s.idle n + tally (Run.owns n) ls

theorem parked_cons (w : Worker) (idle : List Worker) (n : Nat) :
    parked (w :: idle) n = parked idle n + if w.number = n then 1 else 0 := by
  simp only [parked, List.countP_cons, decide_eq_true_eq]

theorem parked_append (idle idle' : List Worker) (n : Nat) :
    parked (idle ++ idle') n = parked idle n + parked idle' n :=
  List.countP_append

theorem Run.admitted_le (capacity : Nat) (l : Run) : l.admitted capacity ≤ l.counted := by
  unfold Run.admitted Run.counted
  cases l.entered with
  | none => exact Nat.le_refl 0
  | some old =>
      simp only [Option.isSome_some, ↓reduceIte]
      split <;> omega

theorem Run.owns_le (n : Nat) (l : Run) : l.owns n ≤ l.busy := by
  unfold Run.owns Run.busy
  cases h : l.hold with
  | nothing => exact Nat.le_refl 0
  | spawning child =>
      simp only [reduceCtorEq, ↓reduceIte]
      split <;> omega
  | worker number =>
      simp only [reduceCtorEq, ↓reduceIte]
      split <;> omega

/-! ## Admission -/

/-- The in-flight counter counts the runs between their `fetch_add` and their
    `fetch_sub`, and few enough of them are let in. -/
structure Counted (settings : PoolSettings) (s : Pool) (ls : List Run) : Prop where
  inflight : s.inflight = tally Run.counted ls
  admitted : tally (Run.admitted settings.capacity) ls ≤ settings.capacity

/-- Whatever leaves the counter and the guard alone. -/
theorem Counted.frame {settings : PoolSettings} {s s' : Pool} {l l' : Run} {ls : List Run}
    (h : Counted settings s (l :: ls)) (hs : s'.inflight = s.inflight)
    (hl : l'.entered = l.entered) : Counted settings s' (l' :: ls) := by
  have hcounted : l'.counted = l.counted := by rw [Run.counted, hl, Run.counted]
  have hadmitted : l'.admitted settings.capacity = l.admitted settings.capacity := by
    rw [Run.admitted, hl, Run.admitted]
  refine ⟨?_, ?_⟩
  · rw [hs, tally_cons, hcounted, ← tally_cons]
    exact h.inflight
  · rw [tally_cons, hadmitted, ← tally_cons]
    exact h.admitted

/-- Giving up the guard. -/
theorem Counted.leave {settings : PoolSettings} {s : Pool} {l : Run} {ls : List Run}
    (h : Counted settings s (l :: ls)) (hl : l.entered.isSome) :
    Counted settings { s with inflight := s.inflight - 1 } ({ l with entered := none } :: ls) := by
  have hin := h.inflight
  have had := h.admitted
  rw [tally_cons] at hin had
  have hone : l.counted = 1 := by rw [Run.counted, if_pos hl]
  refine ⟨?_, ?_⟩
  · rw [tally_cons]
    change s.inflight - 1 = 0 + _
    omega
  · rw [tally_cons]
    change 0 + _ ≤ _
    omega

theorem Counted.enter {settings : PoolSettings} {s : Pool} {l : Run} {ls : List Run}
    (h : Counted settings s (l :: ls)) (hl : l.entered = none) :
    Counted settings { s with inflight := s.inflight + 1 }
      ({ l with entered := some s.inflight } :: ls) := by
  have hin := h.inflight
  have had := h.admitted
  have hle := tally_le fun l' (_ : l' ∈ ls) => l'.admitted_le settings.capacity
  have hzero : l.counted = 0 := by rw [Run.counted, hl]; rfl
  rw [tally_cons] at hin had
  refine ⟨?_, ?_⟩
  · rw [tally_cons]
    change s.inflight + 1 = 1 + _
    omega
  · rw [tally_cons]
    by_cases hroom : s.inflight + 1 ≤ settings.capacity
    · have hnew : ({ l with entered := some s.inflight } : Run).admitted settings.capacity = 1 := by
        simp only [Run.admitted, Option.any_some, decide_eq_true_eq, if_pos hroom]
      omega
    · have hnew : ({ l with entered := some s.inflight } : Run).admitted settings.capacity = 0 := by
        simp only [Run.admitted, Option.any_some, decide_eq_true_eq, if_neg hroom]
      omega

theorem Counted.step {pool : LangPool} {β : Type} {op : PoolOp β} {s s' : Pool} {l l' : Run}
    {ls : List Run} {b : β} (h : Counted pool.settings s (l :: ls)) (hA : pool.Asserts _ op l)
    (ha : op.Answers s l b s' l') : Counted pool.settings s' (l' :: ls) := by
  cases op with
  | enter =>
      rcases ha with ⟨_, rfl, rfl⟩
      exact h.enter hA
  | leave =>
      rcases ha with ⟨rfl, rfl⟩
      exact h.leave hA
  | pending => exact ha.elim
  | _ =>
      simp only [PoolOp.Answers] at ha
      exact h.frame (by grind [Pool.Alike]) (by grind)

/-! ## Worker slots -/

/-- Free permits and taken ones are the slots, and every worker is accounted for
    by one: whoever is busy has a permit. -/
structure Slots (settings : PoolSettings) (s : Pool) (ls : List Run) : Prop where
  permits : s.permits + tally Run.slots ls = settings.effectiveMaxWorkers
  bound : s.idle.length + tally Run.busy ls ≤ settings.effectiveMaxWorkers
  permitted : ∀ l ∈ ls, l.busy ≤ l.slots

/-- Whatever takes no permit and no worker. A worker may change hands between
    the run and the idle list, or be discarded. -/
theorem Slots.frame {settings : PoolSettings} {s s' : Pool} {l l' : Run} {ls : List Run}
    (h : Slots settings s (l :: ls)) (hs : s'.permits = s.permits) (hl : l'.permit = l.permit)
    (hbusy : s'.idle.length + l'.busy ≤ s.idle.length + l.busy) (hle : l'.busy ≤ l.slots) :
    Slots settings s' (l' :: ls) := by
  have hslots : l'.slots = l.slots := by rw [Run.slots, hl, Run.slots]
  have hpermits := h.permits
  have hbound := h.bound
  rw [tally_cons] at hpermits hbound
  refine ⟨?_, ?_, ?_⟩
  · rw [tally_cons, hs, hslots]
    exact hpermits
  · rw [tally_cons]
    omega
  · intro x hx
    rcases List.mem_cons.mp hx with rfl | hx
    · rw [hslots]
      exact hle
    · exact h.permitted x (List.mem_cons_of_mem _ hx)

theorem Slots.acquire {settings : PoolSettings} {s : Pool} {l : Run} {ls : List Run}
    (h : Slots settings s (l :: ls)) (hl : l.permit = false) (hs : 0 < s.permits) :
    Slots settings { s with permits := s.permits - 1 } ({ l with permit := true } :: ls) := by
  have hpermits := h.permits
  have hslots : l.slots = 0 := by rw [Run.slots, hl]; rfl
  have hone : ({ l with permit := true } : Run).slots = 1 := rfl
  have hbusy : ({ l with permit := true } : Run).busy = l.busy := rfl
  have hle : l.busy ≤ l.slots := h.permitted l (List.mem_cons_self ..)
  rw [tally_cons] at hpermits
  refine ⟨?_, ?_, ?_⟩
  · rw [tally_cons]
    dsimp only
    omega
  · rw [tally_cons, hbusy, ← tally_cons]
    exact h.bound
  · intro x hx
    rcases List.mem_cons.mp hx with rfl | hx
    · omega
    · exact h.permitted x (List.mem_cons_of_mem _ hx)

/-- Deciding to spawn. The idle list is empty, so all workers there are belong to
    runs, and these have permits. -/
theorem Slots.spawn {settings : PoolSettings} {s : Pool} {l : Run} {ls : List Run}
    (h : Slots settings s (l :: ls)) (hl : l.permit = true) :
    Slots settings { s with idle := [] } ({ l with hold := .spawning none } :: ls) := by
  have hslots : ({ l with hold := .spawning none } : Run).slots = 1 := by
    rw [Run.slots, if_pos hl]
  have hpermitted : ∀ x ∈ ({ l with hold := .spawning none } : Run) :: ls, x.busy ≤ x.slots := by
    intro x hx
    rcases List.mem_cons.mp hx with rfl | hx
    · rw [hslots]
      exact Nat.le_refl 1
    · exact h.permitted x (List.mem_cons_of_mem _ hx)
  have hpermits : s.permits + tally Run.slots (({ l with hold := .spawning none } : Run) :: ls) =
      settings.effectiveMaxWorkers := by
    rw [← h.permits, tally_cons, tally_cons]
    rfl
  refine ⟨hpermits, ?_, hpermitted⟩
  have hle := tally_le hpermitted
  simp only [List.length_nil]
  omega

theorem Slots.step {pool : LangPool} {β : Type} {op : PoolOp β} {s s' : Pool} {l l' : Run}
    {ls : List Run} {b : β} (h : Slots pool.settings s (l :: ls)) (hA : pool.Asserts _ op l)
    (ha : op.Answers s l b s' l') : Slots pool.settings s' (l' :: ls) := by
  have hle : l.busy ≤ l.slots := h.permitted l (List.mem_cons_self ..)
  cases op with
  | acquire =>
      rcases ha with ⟨_, hs, rfl, rfl⟩
      exact h.acquire hA hs
  | takeIdle ttl =>
      rcases hA with ⟨hpermit, hhold, _⟩
      rcases ha with ⟨_, rfl, rfl⟩ | ⟨gone, w, rest, _, hidle, rfl, rfl⟩
      · exact h.spawn hpermit
      · have hslots : l.slots = 1 := by rw [Run.slots, if_pos hpermit]
        have hbusy : ({ l with hold := .worker w.number, assigned := some w.number } : Run).busy =
            1 := rfl
        refine h.frame rfl rfl ?_ (by omega)
        rw [hbusy, hidle, List.length_append, List.length_cons]
        dsimp only
        omega
  | launch spec =>
      have hbusy : l.busy = 1 := by rw [Run.busy, hA.1]; rfl
      rcases ha with ⟨_, rfl, rfl⟩ | ⟨_, rfl, rfl⟩
      · refine h.frame rfl rfl ?_ ?_
        · rw [hbusy]
          exact Nat.le_refl _
        · rw [hbusy] at hle
          exact hle
      · exact h
  | ready child =>
      have hbusy : l.busy = 1 := by rw [Run.busy, hA.1]; rfl
      rcases ha with ⟨rfl, rfl⟩
      refine h.frame rfl rfl ?_ ?_
      · rw [hbusy]
        exact Nat.le_refl _
      · rw [hbusy] at hle
        exact hle
  | dropChild | shutdown =>
      rcases ha with ⟨rfl, rfl⟩
      exact h.frame rfl rfl (Nat.add_le_add_left (Nat.zero_le _) _) (Nat.zero_le _)
  | park w =>
      have hbusy : l.busy = 1 := by rw [Run.busy, hA.1]; rfl
      rcases ha with ⟨rfl, rfl⟩
      refine h.frame rfl rfl ?_ (Nat.zero_le _)
      rw [List.length_cons, hbusy]
      exact Nat.le_refl _
  | write worker buffer =>
      rcases ha with ⟨rfl, ⟨n, _, rfl⟩ | ⟨_, rfl⟩⟩
      · exact h.frame rfl rfl (Nat.le_refl _) hle
      · exact h.frame rfl rfl (Nat.le_refl _) hle
  | nextLine worker deadline =>
      rcases ha with ⟨hs, ⟨bytes, _, rfl⟩ | ⟨_, rfl⟩⟩
      · exact h.frame hs.permits rfl (by rw [hs.idle]; exact Nat.le_refl _) hle
      · exact h.frame hs.permits rfl (by rw [hs.idle]) hle
  | enter | nextJob =>
      rcases ha with ⟨_, rfl, rfl⟩
      exact h.frame rfl rfl (Nat.le_refl _) hle
  | leave =>
      rcases ha with ⟨rfl, rfl⟩
      exact h.frame rfl rfl (Nat.le_refl _) hle
  | pending => exact ha.elim
  | _ =>
      rcases ha with ⟨hs, rfl⟩
      exact h.frame hs.permits rfl (by rw [hs.idle]) hle

/-! ## Ownership -/

/-- Each child is parked or in the hands of one run. The worker handed to a run
    that was not answered is in nobody's hands but the run's, and a run writes to
    no other worker. -/
structure Owned (json : Json) (s : Pool) (ls : List Run) : Prop where
  single : ∀ n, owners s ls n ≤ 1
  fresh : ∀ n, s.fresh ≤ n → owners s ls n = 0
  known : ∀ l ∈ ls, ∀ n ∈ l.assigned, n < s.fresh
  outstanding : ∀ l ∈ ls, ¬ l.Answered json → ∀ n ∈ l.assigned, owners s ls n ≤ l.owns n
  written : ∀ l ∈ ls, ∀ x ∈ l.sent, l.assigned = some x.1

section Owned

variable {json : Json} {s s' : Pool} {l l' : Run} {ls : List Run}

theorem owners_cons (n : Nat) : owners s (l :: ls) n = parked s.idle n + l.owns n +
    tally (Run.owns n) ls := by
  rw [owners, tally_cons, Nat.add_assoc]

/-- Whatever makes no new owner. -/
theorem Owned.frame (h : Owned json s (l :: ls))
    (hown : ∀ n, parked s'.idle n + l'.owns n ≤ parked s.idle n + l.owns n)
    (hfresh : s'.fresh = s.fresh) (hknown : ∀ n ∈ l'.assigned, n < s.fresh)
    (hself : ¬ l'.Answered json → ∀ n ∈ l'.assigned, owners s' (l' :: ls) n ≤ l'.owns n)
    (hwritten : ∀ x ∈ l'.sent, l'.assigned = some x.1) : Owned json s' (l' :: ls) := by
  have hle : ∀ n, owners s' (l' :: ls) n ≤ owners s (l :: ls) n := by
    intro n
    rw [owners_cons, owners_cons]
    exact Nat.add_le_add_right (hown n) _
  refine ⟨fun n => Nat.le_trans (hle n) (h.single n), ?_, ?_, ?_, ?_⟩
  · intro n hn
    exact Nat.eq_zero_of_le_zero (Nat.le_trans (hle n) (Nat.le_of_eq (h.fresh n (hfresh ▸ hn))))
  · intro l'' hl n hn
    rw [hfresh]
    rcases List.mem_cons.mp hl with rfl | hl
    · exact hknown n hn
    · exact h.known l'' (List.mem_cons_of_mem _ hl) n hn
  · intro l'' hl hno n hn
    rcases List.mem_cons.mp hl with rfl | hl
    · exact hself hno n hn
    · exact Nat.le_trans (hle _) (h.outstanding l'' (List.mem_cons_of_mem _ hl) hno n hn)
  · intro l'' hl
    rcases List.mem_cons.mp hl with rfl | hl
    · exact hwritten
    · exact h.written l'' (List.mem_cons_of_mem _ hl)

/-- Whatever writes nothing and parks nothing. -/
theorem Owned.keep (h : Owned json s (l :: ls))
    (hidle : ∀ n, parked s'.idle n ≤ parked s.idle n) (hown : ∀ n, l'.owns n ≤ l.owns n)
    (hfresh : s'.fresh = s.fresh) (hassigned : l'.assigned = l.assigned)
    (hsent : l'.sent = l.sent) (hanswered : l.Answered json → l'.Answered json) :
    Owned json s' (l' :: ls) := by
  refine h.frame (fun n => Nat.add_le_add (hidle n) (hown n)) hfresh ?_ ?_ ?_
  · rw [hassigned]
    exact h.known l (List.mem_cons_self ..)
  · intro hno n hn
    have hout := h.outstanding l (List.mem_cons_self ..) (fun ha => hno (hanswered ha)) n
      (hassigned ▸ hn)
    have hi := hidle n
    rw [owners_cons] at hout ⊢
    omega
  · rw [hsent, hassigned]
    exact h.written l (List.mem_cons_self ..)

/-- A new child. -/
theorem Owned.launch (h : Owned json s (l :: ls)) (hl : l.hold = .spawning none) :
    Owned json { s with fresh := s.fresh + 1 }
      ({ l with hold := .spawning (some s.fresh) } :: ls) := by
  have hold : ∀ n, l.owns n = 0 := fun n => by rw [Run.owns, hl]; rfl
  have hnew : ∀ n, ({ l with hold := .spawning (some s.fresh) } : Run).owns n =
      if s.fresh = n then 1 else 0 := by
    intro n
    simp only [Run.owns, Hold.number, Option.some.injEq]
  have hother : ∀ n, n ≠ s.fresh → owners { s with fresh := s.fresh + 1 }
      ({ l with hold := .spawning (some s.fresh) } :: ls) n = owners s (l :: ls) n := by
    intro n hn
    rw [owners_cons, owners_cons, hnew, hold, if_neg (Ne.symm hn)]
  refine ⟨?_, ?_, ?_, ?_, ?_⟩
  · intro n
    by_cases hn : n = s.fresh
    · have hzero := h.fresh n (Nat.le_of_eq hn.symm)
      rw [owners_cons] at hzero ⊢
      rw [hnew, if_pos hn.symm]
      dsimp only
      omega
    · rw [hother n hn]
      exact h.single n
  · intro n hn
    rw [hother n (Nat.ne_of_gt hn)]
    exact h.fresh n (Nat.le_of_succ_le hn)
  · intro l'' hl'' n hn
    rcases List.mem_cons.mp hl'' with rfl | hl''
    · exact Nat.lt_succ_of_lt (h.known l (List.mem_cons_self ..) n hn)
    · exact Nat.lt_succ_of_lt (h.known l'' (List.mem_cons_of_mem _ hl'') n hn)
  · intro l'' hl'' hno n hn
    rcases List.mem_cons.mp hl'' with rfl | hl''
    · have hlt := h.known l (List.mem_cons_self ..) n hn
      rw [hother _ (Nat.ne_of_lt hlt)]
      have hout := h.outstanding l (List.mem_cons_self ..) hno n hn
      rw [hold] at hout
      exact Nat.le_trans hout (Nat.zero_le _)
    · have hlt := h.known l'' (List.mem_cons_of_mem _ hl'') n hn
      rw [hother _ (Nat.ne_of_lt hlt)]
      exact h.outstanding l'' (List.mem_cons_of_mem _ hl'') hno n hn
  · intro l'' hl''
    rcases List.mem_cons.mp hl'' with rfl | hl''
    · exact h.written l (List.mem_cons_self ..)
    · exact h.written l'' (List.mem_cons_of_mem _ hl'')

/-- A run gets its worker, which had an owner before. -/
theorem Owned.assign (h : Owned json s (l :: ls)) {n : Nat} (hsent : l.sent = [])
    (hfresh : s'.fresh = s.fresh)
    (hown : ∀ m, parked s'.idle m + (if n = m then 1 else 0) ≤ parked s.idle m + l.owns m) :
    Owned json s' ({ l with hold := .worker n, assigned := some n } :: ls) := by
  have howns : ∀ m, ({ l with hold := .worker n, assigned := some n } : Run).owns m =
      if n = m then 1 else 0 := by
    intro m
    simp only [Run.owns, Hold.number, Option.some.injEq]
  have hn := hown n
  have hsingle := h.single n
  rw [if_pos rfl] at hn
  rw [owners_cons] at hsingle
  refine h.frame (fun m => by rw [howns]; exact hown m) hfresh ?_ ?_ ?_
  · intro m hm
    cases hm
    by_contra hge
    have hzero := h.fresh n (Nat.le_of_not_lt hge)
    rw [owners_cons] at hzero
    omega
  · intro _ m hm
    cases hm
    rw [owners_cons, howns, if_pos rfl]
    omega
  · intro x hx
    change x ∈ l.sent at hx
    rw [hsent] at hx
    cases hx

/-- A write to the worker in hand. -/
theorem Owned.write (h : Owned json s (l :: ls)) {worker : Nat} (hl : l.hold = .worker worker)
    (hassigned : l.assigned = some worker) (bytes : List UInt8) :
    Owned json s ({ l with sent := l.sent ++ [(worker, bytes)] } :: ls) := by
  have howns : l.owns worker = 1 := by rw [Run.owns, hl]; exact if_pos rfl
  have hsame : ∀ n, ({ l with sent := l.sent ++ [(worker, bytes)] } : Run).owns n = l.owns n :=
    fun _ => rfl
  refine h.frame (fun _ => Nat.le_refl _) rfl (h.known l (List.mem_cons_self ..)) ?_ ?_
  · intro _ n hn
    rw [Option.mem_unique hn hassigned, owners_cons, hsame, ← owners_cons, howns]
    exact h.single worker
  · intro x hx
    rcases List.mem_append.mp hx with hx | hx
    · exact h.written l (List.mem_cons_self ..) x hx
    · rw [List.mem_singleton.mp hx]
      exact hassigned

theorem Owned.step {pool : LangPool} {β : Type} {op : PoolOp β} {b : β}
    (h : Owned pool.json s (l :: ls)) (hA : pool.Asserts _ op l)
    (ha : op.Answers s l b s' l') : Owned pool.json s' (l' :: ls) := by
  have hkept : ∀ n, parked s.idle n ≤ parked s.idle n := fun _ => Nat.le_refl _
  cases op with
  | takeIdle ttl =>
      rcases hA with ⟨_, hhold, hassigned, hsent⟩
      rcases ha with ⟨_, rfl, rfl⟩ | ⟨gone, w, rest, _, hidle, rfl, rfl⟩
      · have hnone : ∀ p : Nat → Prop, ∀ n ∈ l.assigned, p n := by
          rw [hassigned]
          exact fun _ _ hn => by cases hn
        exact h.frame (fun n => Nat.zero_le _) rfl (hnone _) (fun _ => hnone _)
          (h.written l (List.mem_cons_self ..))
      · refine h.assign hsent rfl fun m => ?_
        rw [hidle, parked_append, parked_cons]
        dsimp only
        omega
  | launch spec =>
      rcases ha with ⟨_, rfl, rfl⟩ | ⟨_, rfl, rfl⟩
      · exact h.launch hA.1
      · exact h
  | ready child =>
      rcases hA with ⟨hhold, _, hsent⟩
      rcases ha with ⟨rfl, rfl⟩
      refine h.assign hsent rfl fun m => ?_
      rw [Run.owns, hhold]
      simp only [Hold.number, Option.some.injEq, Nat.le_refl]
  | dropChild | shutdown =>
      rcases ha with ⟨rfl, rfl⟩
      exact h.keep hkept (fun n => Nat.zero_le _) rfl rfl rfl id
  | park w =>
      rcases ha with ⟨rfl, rfl⟩
      rcases hA with ⟨hhold, _, hanswered⟩
      refine h.frame (fun n => ?_) rfl (h.known l (List.mem_cons_self ..))
        (fun hno => absurd hanswered hno) (h.written l (List.mem_cons_self ..))
      have howns : l.owns n = if w.number = n then 1 else 0 := by
        simp only [Run.owns, hhold, Hold.number, Option.some.injEq]
      rw [parked_cons, howns]
      exact Nat.le_refl _
  | write worker buffer =>
      rcases hA with ⟨hhold, hassigned, _⟩
      rcases ha with ⟨rfl, ⟨n, _, rfl⟩ | ⟨_, rfl⟩⟩
      · exact h.write hhold hassigned _
      · exact h.write hhold hassigned _
  | nextLine worker deadline =>
      rcases ha with ⟨hs, ⟨bytes, _, rfl⟩ | ⟨_, rfl⟩⟩
      · refine h.keep (fun n => by rw [hs.idle]) (fun n => Nat.le_refl _) hs.fresh rfl rfl ?_
        rintro ⟨request, hrequest, x, hx, hto, hreply⟩
        exact ⟨request, hrequest, x, List.mem_append_left _ hx, hto, hreply⟩
      · exact h.keep (fun n => by rw [hs.idle]) (fun n => Nat.le_refl _) hs.fresh rfl rfl id
  | nextJob =>
      rcases hA with ⟨_, hassigned, hsent⟩
      rcases ha with ⟨_, rfl, rfl⟩
      have hnone : ∀ p : Nat → Prop, ∀ n ∈ l.assigned, p n := by
        rw [hassigned]
        exact fun _ _ hn => by cases hn
      exact h.frame (fun _ => Nat.le_refl _) rfl (hnone _) (fun _ => hnone _)
        (h.written l (List.mem_cons_self ..))
  | enter =>
      rcases ha with ⟨_, rfl, rfl⟩
      exact h.keep hkept (fun n => Nat.le_refl _) rfl rfl rfl id
  | acquire =>
      rcases ha with ⟨_, _, rfl, rfl⟩
      exact h.keep hkept (fun n => Nat.le_refl _) rfl rfl rfl id
  | leave =>
      rcases ha with ⟨rfl, rfl⟩
      exact h.keep hkept (fun n => Nat.le_refl _) rfl rfl rfl id
  | pending => exact ha.elim
  | _ =>
      rcases ha with ⟨hs, rfl⟩
      exact h.keep (fun n => by rw [hs.idle]) (fun n => Nat.le_refl _) hs.fresh rfl rfl id

end Owned

/-! ## The whole pool -/

/-- No parked worker has served its budget. -/
def Budgeted (settings : PoolSettings) (s : Pool) : Prop :=
  ∀ w ∈ s.idle, w.shouldRecycle settings.recycleAfterJobs = false

theorem Budgeted.step {pool : LangPool} {β : Type} {op : PoolOp β} {s s' : Pool} {l l' : Run}
    {b : β} (h : Budgeted pool.settings s) (hA : pool.Asserts _ op l)
    (ha : op.Answers s l b s' l') : Budgeted pool.settings s' := by
  cases op with
  | takeIdle ttl =>
      rcases ha with ⟨_, rfl, _⟩ | ⟨gone, w, rest, _, hidle, rfl, _⟩
      · exact fun w hw => by cases hw
      · intro w' hw
        exact h w' (hidle ▸ List.mem_append_right _ (List.mem_cons_of_mem _ hw))
  | park w =>
      rcases ha with ⟨rfl, _⟩
      intro w' hw
      rcases List.mem_cons.mp hw with rfl | hw
      · exact hA.2.1
      · exact h w' hw
  | pending => exact ha.elim
  | _ =>
      have hidle : s'.idle = s.idle := by
        simp only [PoolOp.Answers] at ha
        grind [Pool.Alike]
      intro w hw
      exact h w (hidle ▸ hw)

/-- What holds of a pool and the locals of its runs. -/
structure PoolInvariant (pool : LangPool) (s : Pool) (ls : List Run) : Prop where
  counted : Counted pool.settings s ls
  slots : Slots pool.settings s ls
  owned : Owned pool.json s ls
  budgeted : Budgeted pool.settings s

namespace PoolInvariant

variable {pool : LangPool} {s : Pool} {l : Run} {ls : List Run}

theorem perm {ls' : List Run} (hp : ls.Perm ls') (h : PoolInvariant pool s ls) :
    PoolInvariant pool s ls' := by
  have howners : ∀ n, owners s ls' n = owners s ls n := fun n => by
    rw [owners, owners, tally_perm _ hp]
  refine ⟨⟨?_, ?_⟩, ⟨?_, ?_, ?_⟩, ⟨?_, ?_, ?_, ?_, ?_⟩, h.budgeted⟩
  · rw [← tally_perm _ hp]
    exact h.counted.inflight
  · rw [← tally_perm _ hp]
    exact h.counted.admitted
  · rw [← tally_perm _ hp]
    exact h.slots.permits
  · rw [← tally_perm _ hp]
    exact h.slots.bound
  · exact fun l hl => h.slots.permitted l (hp.mem_iff.mpr hl)
  · exact fun n => howners n ▸ h.owned.single n
  · exact fun n hn => howners n ▸ h.owned.fresh n hn
  · exact fun l hl => h.owned.known l (hp.mem_iff.mpr hl)
  · intro l hl hno x hx
    rw [howners]
    exact h.owned.outstanding l (hp.mem_iff.mpr hl) hno x hx
  · exact fun l hl => h.owned.written l (hp.mem_iff.mpr hl)

/-- A run that has done nothing yet. -/
theorem call (input : Submission) (h : PoolInvariant pool s ls) :
    PoolInvariant pool s (Run.new input :: ls) := by
  have howners : ∀ n, owners s (Run.new input :: ls) n = owners s ls n := by
    intro n
    rw [owners, owners, tally_cons]
    exact congrArg (parked s.idle n + ·) (Nat.zero_add _)
  have hzero : ∀ f : Run → Nat, f (Run.new input) = 0 →
      tally f (Run.new input :: ls) = tally f ls := fun f hf => by rw [tally_cons, hf, Nat.zero_add]
  refine ⟨⟨?_, ?_⟩, ⟨?_, ?_, ?_⟩, ⟨?_, ?_, ?_, ?_, ?_⟩, h.budgeted⟩
  · rw [hzero _ rfl]
    exact h.counted.inflight
  · rw [hzero _ rfl]
    exact h.counted.admitted
  · rw [hzero _ rfl]
    exact h.slots.permits
  · rw [hzero _ rfl]
    exact h.slots.bound
  · intro l hl
    rcases List.mem_cons.mp hl with rfl | hl
    · exact Nat.zero_le _
    · exact h.slots.permitted l hl
  · exact fun n => howners n ▸ h.owned.single n
  · exact fun n hn => howners n ▸ h.owned.fresh n hn
  · intro l hl x hx
    rcases List.mem_cons.mp hl with rfl | hl
    · cases hx
    · exact h.owned.known l hl x hx
  · intro l hl hno x hx
    rw [howners]
    rcases List.mem_cons.mp hl with rfl | hl
    · cases hx
    · exact h.owned.outstanding l hl hno x hx
  · intro l hl x hx
    rcases List.mem_cons.mp hl with rfl | hl
    · cases hx
    · exact h.owned.written l hl x hx

/-- One effect of a run. -/
theorem step {β : Type} {op : PoolOp β} {s' : Pool} {l' : Run} {b : β}
    (h : PoolInvariant pool s (l :: ls)) (hA : pool.Asserts β op l)
    (ha : op.Answers s l b s' l') : PoolInvariant pool s' (l' :: ls) :=
  ⟨h.counted.step hA ha, h.slots.step hA ha, h.owned.step hA ha, h.budgeted.step hA ha⟩

/-- A run that ends keeps its locals. -/
theorem ended (result : Option (Except Error ExecResponse)) (h : PoolInvariant pool s (l :: ls)) :
    PoolInvariant pool s ({ l with result := result } :: ls) where
  counted := h.counted.frame rfl rfl
  slots := h.slots.frame rfl rfl (Nat.le_refl _) (h.slots.permitted l (List.mem_cons_self ..))
  owned := h.owned.keep (fun _ => Nat.le_refl _) (fun _ => Nat.le_refl _) rfl rfl rfl id
  budgeted := h.budgeted

/-- Dropping what it holds, its permit, or its in-flight guard. -/
theorem release {s' : Pool} {l' : Run} (h : PoolInvariant pool s (l :: ls))
    (hr : Run.release (s, l) = some (s', l')) : PoolInvariant pool s' (l' :: ls) := by
  have hle : l.busy ≤ l.slots := h.slots.permitted l (List.mem_cons_self ..)
  have hkept : ∀ n, parked s.idle n ≤ parked s.idle n := fun _ => Nat.le_refl _
  simp only [Run.release] at hr
  split at hr
  · cases hr
    exact ⟨h.counted.frame rfl rfl,
      h.slots.frame rfl rfl (Nat.add_le_add_left (Nat.zero_le _) _) (Nat.zero_le _),
      h.owned.keep hkept (fun _ => Nat.zero_le _) rfl rfl rfl id, h.budgeted⟩
  · rename_i hhold
    split at hr
    · rename_i hpermit
      cases hr
      have hfree : l.busy = 0 := by
        rw [Run.busy, if_pos (by simpa only [ne_eq, not_not] using hhold)]
      have hslots : l.slots = 1 := by rw [Run.slots, if_pos hpermit]
      have hpermits := h.slots.permits
      have hbound := h.slots.bound
      rw [tally_cons] at hpermits hbound
      refine ⟨h.counted.frame rfl rfl, ⟨?_, ?_, ?_⟩,
        h.owned.keep hkept (fun _ => Nat.le_refl _) rfl rfl rfl id, h.budgeted⟩
      · rw [tally_cons]
        change s.permits + 1 + (0 + _) = _
        omega
      · rw [tally_cons]
        exact hbound
      · intro x hx
        rcases List.mem_cons.mp hx with rfl | hx
        · exact Nat.le_trans (Nat.le_of_eq hfree) (Nat.zero_le _)
        · exact h.slots.permitted x (List.mem_cons_of_mem _ hx)
    · split at hr
      · rename_i hentered
        cases hr
        exact ⟨h.counted.leave hentered, h.slots.frame rfl rfl (Nat.le_refl _) hle,
          h.owned.keep hkept (fun _ => Nat.le_refl _) rfl rfl rfl id, h.budgeted⟩
      · cases hr

/-- A pass of the reaper only takes workers off the idle list. -/
theorem reaped {c : PoolChoice} {s' : Pool} (h : PoolInvariant pool s ls)
    (hr : pool.reaped s c = some s') : PoolInvariant pool s' ls := by
  simp only [LangPool.reaped] at hr
  split at hr
  · rcases Option.map_eq_some_iff.mp hr with ⟨kept, hkept, rfl⟩
    have hsub := reap_sublist hkept
    have hle : ∀ n, owners { s with idle := kept } ls n ≤ owners s ls n := fun n =>
      Nat.add_le_add_right hsub.countP_le _
    refine ⟨⟨h.counted.inflight, h.counted.admitted⟩, ⟨h.slots.permits, ?_, h.slots.permitted⟩,
      ⟨?_, ?_, h.owned.known, ?_, h.owned.written⟩, fun w hw => h.budgeted w (hsub.subset hw)⟩
    · exact Nat.le_trans (Nat.add_le_add_right hsub.length_le _) h.slots.bound
    · exact fun n => Nat.le_trans (hle n) (h.owned.single n)
    · exact fun n hn => Nat.eq_zero_of_le_zero
        (Nat.le_trans (hle n) (Nat.le_of_eq (h.owned.fresh n hn)))
    · exact fun l hl hno x hx => Nat.le_trans (hle _) (h.owned.outstanding l hl hno x hx)
  · cases hr

theorem start (hs : pool.start = some s) : PoolInvariant pool s [] := by
  unfold LangPool.start at hs
  split at hs
  · cases hs
    refine ⟨⟨rfl, Nat.zero_le _⟩, ⟨rfl, Nat.zero_le _, fun _ hl => by cases hl⟩,
      ⟨fun _ => Nat.zero_le _, fun _ _ => rfl, fun _ hl => (by cases hl),
        fun _ hl => (by cases hl), fun _ hl => by cases hl⟩, fun _ hw => by cases hw⟩
  · cases hs

end PoolInvariant

theorem pool_joint (pool : LangPool) :
    Concurrent.Joint pool.calls .none
      (fun p l => p.wp pool.calls.localised pool.Asserts LangPool.Returns l)
      (PoolInvariant pool) := by
  refine Concurrent.Joint.of_wp (fun input _ _ _ => LangPool.run_conduct pool input)
    ?_ ?_ ?_ ?_ ?_ ?_ ?_
  · exact fun s ls ls' hp h => h.perm hp
  · exact fun s ls input _ h => h.call input
  · intro β op s l ls c b s' l' _ hA h hr
    exact h.step hA (PoolOp.answers_of_respond hr)
  · exact fun a s l ls _ h => h.ended (some a)
  · exact fun _ _ s l ls _ _ _ h => ⟨fun _ ho => absurd ho List.not_mem_nil, h.ended none⟩
  · exact fun s l ls s' l' h hr => h.release hr
  · exact fun s ls c s' h hr => h.reaped hr

/-- Counted, but turned away. -/
def Run.refused (capacity : Nat) (l : Run) : Nat :=
  if l.entered.any (· + 1 ≤ capacity) then 0 else l.counted

theorem tally_counted (capacity : Nat) (ls : List Run) :
    tally Run.counted ls = tally (Run.admitted capacity) ls + tally (Run.refused capacity) ls := by
  induction ls with
  | nil => rfl
  | cons l ls ih =>
      have hl : l.counted = l.admitted capacity + l.refused capacity := by
        unfold Run.admitted Run.refused Run.counted
        cases l.entered with
        | none => rfl
        | some old =>
            simp only [Option.isSome_some, ↓reduceIte]
            split <;> rfl
      rw [tally_cons, tally_cons, tally_cons]
      omega

/-- **The pool bound.** In every reachable state of a pool:

    Parked workers, workers in the hands of runs and workers being spawned are at
    most the effective number of workers. The admitted runs are at most these and
    the queue depth together. The in-flight counter is the admitted runs and the
    submissions being turned away, and zero when there are none. A parked worker
    has answered every run that wrote to it, and has jobs of its budget left. -/
theorem pool_bounded (pool : LangPool) {g : LangPool.State}
    (h : Transition.Reachable pool.system g) :
    g.shared.idle.length + tally Run.busy g.locals ≤ pool.settings.effectiveMaxWorkers ∧
    tally (Run.admitted pool.settings.capacity) g.locals ≤
      pool.settings.effectiveMaxWorkers + pool.settings.effectiveMaxQueueDepth ∧
    g.shared.inflight = tally (Run.admitted pool.settings.capacity) g.locals +
      tally (Run.refused pool.settings.capacity) g.locals ∧
    ((∀ l ∈ g.locals, l.entered = none) → g.shared.inflight = 0) ∧
    (∀ w ∈ g.shared.idle, ∀ l ∈ g.locals, (∃ x ∈ l.sent, x.1 = w.number) →
      l.Answered pool.json) ∧
    ∀ w ∈ g.shared.idle, 0 < pool.settings.recycleAfterJobs →
      w.jobsDone < pool.settings.recycleAfterJobs := by
  have hinv := ((pool_joint pool).reachable (fun s hs => PoolInvariant.start hs) h).2
  refine ⟨hinv.slots.bound, ?_, ?_, ?_, ?_, ?_⟩
  · exact Nat.le_trans hinv.counted.admitted pool.settings.capacity_le
  · rw [hinv.counted.inflight]
    exact tally_counted _ _
  · intro hnone
    have hle : tally Run.counted g.locals ≤ tally (fun _ => 0) g.locals :=
      tally_le fun l hl => by rw [Run.counted, hnone l hl]; exact Nat.le_refl 0
    have hzero : ∀ ls : List Run, tally (fun _ => 0) ls = 0 := by
      intro ls
      induction ls with
      | nil => rfl
      | cons l ls ih => rw [tally_cons, ih]
    rw [hinv.counted.inflight]
    exact Nat.eq_zero_of_le_zero (hzero g.locals ▸ hle)
  · rintro w hw l hl ⟨x, hx, hxw⟩
    by_contra hno
    -- The worker would be parked and in nobody's hands but the run's.
    have hout := hinv.owned.outstanding l hl hno x.1 (hinv.owned.written l hl x hx)
    have hpos : 0 < parked g.shared.idle x.1 :=
      List.countP_pos_iff.mpr ⟨w, hw, by rw [hxw]; exact decide_eq_true rfl⟩
    have hown : l.owns x.1 ≤ tally (Run.owns x.1) g.locals := le_tally hl
    rw [owners] at hout
    omega
  · intro w hw hpos
    have hbudget := hinv.budgeted w hw
    simp only [Worker.shouldRecycle, Bool.and_eq_false_iff, decide_eq_false_iff_not] at hbudget
    omega

/-! ## A run -/

/-- A codec for texts of printable characters without quotes. -/
def printableJson : Json where
  string s := 34 :: (s.toList.map fun c => c.val.toUInt8).filter (32 ≤ ·) ++ [34]
  number n := ((toString n).toList.map fun c => c.val.toUInt8).filter (32 ≤ ·)
  refused _ := none
  decodeResponse _ :=
    some { id := some "0", ok := true, stdout := "", stderr := "", exitCode := some 0
           timedOut := false, elapsedMs := 0, error := none }
  decodeHandshake _ :=
    .ok { ready := true, protocol := some 1, language := none, error := none, token := some "t" }
  string_escaped s b hb := by
    simp only [List.cons_append, List.mem_cons, List.mem_append, List.mem_filter,
      decide_eq_true_eq, List.not_mem_nil, or_false] at hb
    rcases hb with rfl | ⟨_, hb⟩ | rfl
    · decide
    · exact hb
    · decide
  number_plain n b hb := by
    simp only [List.mem_filter, decide_eq_true_eq] at hb
    exact hb.2

def smallPool : LangPool :=
  { launch :=
      { language := Language.new "python", binary := "python3", args := [], env := []
        protocolVersion := 1, handshakeTimeout := 30 * SECOND, spawner := none }
    settings :=
      { enabled := true, maxWorkers := 1, idleTtlSecs := 0, recycleAfterJobs := 2
        maxQueueDepth := 0 }
    runtimeVersion := "3.12"
    json := printableJson }

open Concurrent.Step PoolChoice in
/-- A run up to the point where it has a worker. -/
def spawnRun (i : Nat) : List (Concurrent.Step Submission PoolChoice) :=
  [call { code := "1", cwd := none, timeout := none, lines := 1 },
    perform i pass, perform i (time 0), perform i pass, perform i (time 0), perform i pass,
    perform i (time 0), perform i (checks []),
    -- The spawn and its handshake.
    perform i pass, perform i pass, perform i (text "127.0.0.1:1"), perform i (text "t"),
    perform i pass, perform i pass, perform i (line []), perform i (time 0), perform i pass]

open Concurrent.Step PoolChoice in
/-- Its job written and answered, and the worker parked. -/
def answeredJob (i : Nat) : List (Concurrent.Step Submission PoolChoice) :=
  [perform i (accepted 22), perform i pass, perform i (line []), perform i (time 0),
    perform i (time 0), perform i pass, perform i pass, finish i, release i, release i]

/-- After one job the worker is parked and owes nothing. -/
theorem pool_bounded_parked : ∃ g : LangPool.State,
    g.shared.idle = [{ number := 0, jobsDone := 1, lastUsed := 0 }] ∧ g.shared.inflight = 0 ∧
      ∀ l ∈ g.locals, l.Answered printableJson := by
  have hrun : (Transition.play smallPool.calls.move { shared := Pool.new 1, calls := [] }
      (spawnRun 0 ++ answeredJob 0)).map
        (fun g => (g.shared.idle, g.locals.map fun l => (l.entered, l.sent.map Prod.fst))) =
      some ([{ number := 0, jobsDone := 1, lastUsed := 0 }], [(none, [0])]) := by rfl
  rcases Option.map_eq_some_iff.mp hrun with ⟨g, hg, hfacts⟩
  simp only [Prod.mk.injEq] at hfacts
  rcases hfacts with ⟨hidle, hlocals⟩
  have hreach : Transition.Reachable smallPool.system g :=
    Concurrent.reachable_play rfl hg
  have hlocal : ∀ l ∈ g.locals, (l.entered, l.sent.map Prod.fst) = (none, [0]) := by
    intro l hl
    have hmem := @List.mem_map_of_mem _ _ _ _ (fun l : Run => (l.entered, l.sent.map Prod.fst)) hl
    rw [hlocals] at hmem
    exact List.mem_singleton.mp hmem
  rcases pool_bounded smallPool hreach with ⟨_, _, _, hzero, hanswered, _⟩
  refine ⟨g, hidle, hzero fun l hl => congrArg Prod.fst (hlocal l hl), fun l hl => ?_⟩
  refine hanswered _ (hidle ▸ List.mem_singleton_self _) l hl ?_
  have hsent : l.sent.map Prod.fst = [0] := congrArg Prod.snd (hlocal l hl)
  rcases List.map_eq_singleton_iff.mp hsent with ⟨x, hx, hzero⟩
  exact ⟨x, hx ▸ List.mem_singleton_self _, hzero⟩

end TinyRuntime
