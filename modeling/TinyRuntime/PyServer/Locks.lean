import TinyRuntime.PyServer.Conduct

/-!
# Who Holds What

The part of the invariant about locks. At most one call holds the slot's lock, at
most one the lock of a server, and only the call that holds a server's lock can
see that it has no child or have one of its children in its hands.

An effect of one call leaves alone what another call holds (`Leaves`): a server
changes in no field that matters unless its lock is held, and neither do its
children. This is proved once and frames every invariant about the others.

A server that has never been in the cache is known to the ensure call that builds
it and to nobody else.

## Main definitions

* `Leaves`: What one call leaves to the others.
* `Slot.Sound`, `Caller.Owned`, `Caller.Apart`: The invariant in its parts.
* `Locks`: The invariant.

## Theorems

* `leaves_of_answers`: What an effect leaves alone.
* `locks_answers`, `locks_release`, `locks_call`, `locks_ended`: The invariant is kept.
-/

namespace TinyRuntime.PyServer

variable {V T : Type} {codec : ServerCodec V} {s s' : Slot} {l l' m : Caller}

/-! ## Changing one server or one child -/

section Updates

variable {i j k : Nat} {f : Server → Server} {g : Child → Child} {part : List UInt8}

@[simp] theorem setServer_servers :
    (s.setServer i f).servers j = if j = i then f (s.servers i) else s.servers j :=
  Function.update_apply _ _ _ _

@[simp] theorem setServer_children : (s.setServer i f).children = s.children := rfl
@[simp] theorem setServer_built : (s.setServer i f).built = s.built := rfl
@[simp] theorem setServer_spawned : (s.setServer i f).spawned = s.spawned := rfl
@[simp] theorem setServer_cache : (s.setServer i f).cache = s.cache := rfl
@[simp] theorem setServer_locked : (s.setServer i f).locked = s.locked := rfl

@[simp] theorem setChild_children :
    (s.setChild k g).children j = if j = k then g (s.children k) else s.children j :=
  Function.update_apply _ _ _ _

@[simp] theorem setChild_servers : (s.setChild k g).servers = s.servers := rfl
@[simp] theorem setChild_built : (s.setChild k g).built = s.built := rfl
@[simp] theorem setChild_spawned : (s.setChild k g).spawned = s.spawned := rfl
@[simp] theorem setChild_cache : (s.setChild k g).cache = s.cache := rfl
@[simp] theorem setChild_locked : (s.setChild k g).locked = s.locked := rfl

@[simp] theorem addServer_servers {v : Server} :
    (s.addServer v).servers j = if j = s.built then v else s.servers j :=
  Function.update_apply _ _ _ _

@[simp] theorem addServer_built {v : Server} : (s.addServer v).built = s.built + 1 := rfl

@[simp] theorem addChild_children {c : Child} :
    (s.addChild c).children k = if k = s.spawned then c else s.children k :=
  Function.update_apply _ _ _ _

@[simp] theorem addChild_spawned {c : Child} : (s.addChild c).spawned = s.spawned + 1 := rfl

/-- Whether a child is left with an unfinished frame when a server's lock is let go. -/
def cuts (s : Slot) (i : Nat) (part : List UInt8) (k : Nat) : Prop :=
  part ≠ [] ∧ ∃ x, (s.servers i).inner = some x ∧ x.child = k

/-- Letting go of a server's lock leaves a child cut, or it leaves none. -/
theorem leave_cases :
    (∀ k, ¬ cuts s i part k) ∧ s.leave i part = s.setServer i (fun v => { v with locked := false }) ∨
      ∃ x, (∀ k, cuts s i part k ↔ k = x) ∧ s.leave i part =
        (s.setServer i fun v => { v with locked := false }).setChild x
          fun c => { c with cut := true } := by
  cases hinner : (s.servers i).inner with
  | none =>
      refine .inl ⟨?_, by simp only [Slot.leave, hinner]⟩
      rintro k ⟨_, x, hx, _⟩
      rw [hinner] at hx
      cases hx
  | some x =>
      by_cases hpart : part = []
      · exact .inl ⟨fun k hk => hk.1 hpart, by simp only [Slot.leave, hinner, if_pos hpart]⟩
      · refine .inr ⟨x.child, fun k => ⟨?_, ?_⟩, by simp only [Slot.leave, hinner, if_neg hpart]⟩
        · rintro ⟨_, y, hy, rfl⟩
          rw [hinner] at hy
          cases hy
          rfl
        · rintro rfl
          exact ⟨hpart, x, hinner, rfl⟩

@[simp] theorem leave_servers :
    (s.leave i part).servers j =
      if j = i then { s.servers i with locked := false } else s.servers j := by
  rcases @leave_cases s i part with ⟨_, h⟩ | ⟨x, _, h⟩
  · rw [h, setServer_servers]
  · rw [h, setChild_servers, setServer_servers]

@[simp] theorem leave_built : (s.leave i part).built = s.built := by
  rcases @leave_cases s i part with ⟨_, h⟩ | ⟨x, _, h⟩ <;> rw [h] <;> rfl

@[simp] theorem leave_spawned : (s.leave i part).spawned = s.spawned := by
  rcases @leave_cases s i part with ⟨_, h⟩ | ⟨x, _, h⟩ <;> rw [h] <;> rfl

@[simp] theorem leave_cache : (s.leave i part).cache = s.cache := by
  rcases @leave_cases s i part with ⟨_, h⟩ | ⟨x, _, h⟩ <;> rw [h] <;> rfl

@[simp] theorem leave_locked : (s.leave i part).locked = s.locked := by
  rcases @leave_cases s i part with ⟨_, h⟩ | ⟨x, _, h⟩ <;> rw [h] <;> rfl

/-- Only whether it is cut changes of a child. -/
theorem leave_children (k : Nat) :
    ∃ cut, (s.leave i part).children k = { s.children k with cut := cut } ∧
      (cuts s i part k → cut = true) ∧ (¬ cuts s i part k → cut = (s.children k).cut) := by
  rcases @leave_cases s i part with ⟨hnone, h⟩ | ⟨x, hx, h⟩
  · exact ⟨(s.children k).cut, by rw [h]; rfl, fun hk => absurd hk (hnone k), fun _ => rfl⟩
  · rw [h, setChild_children]
    split
    · rename_i hk
      exact ⟨true, by rw [hk]; rfl, fun _ => rfl, fun hn => absurd ((hx k).mpr hk) hn⟩
    · rename_i hk
      exact ⟨(s.children k).cut, rfl, fun hc => absurd ((hx k).mp hc) hk, fun _ => rfl⟩

end Updates

/-! ## What a call leaves alone -/

/-- What the shared state keeps for the calls other than `l`. -/
structure Leaves (s s' : Slot) (l : Caller) : Prop where
  built : s.built ≤ s'.built
  spawned : s.spawned ≤ s'.spawned
  slot : l.slot = false → (s.locked = true → s'.locked = true) ∧ s'.cache = s.cache ∧
    ∀ i < s.built, (s'.servers i).published = (s.servers i).published
  published : ∀ i < s.built, (s.servers i).published = true → (s'.servers i).published = true
  server : ∀ i < s.built, l.server ≠ some i → (s'.servers i).inner = (s.servers i).inner ∧
    (s'.servers i).discarded = (s.servers i).discarded ∧
    ((s.servers i).locked = true → (s'.servers i).locked = true)
  child : ∀ k < s.spawned, (s'.children k).server = (s.children k).server ∧
    ((s'.children k).alive = true → (s.children k).alive = true)
  stdin : ∀ k < s.spawned, l.server ≠ some (s.children k).server →
    (s'.children k).stdin = (s.children k).stdin ∧ (s'.children k).cut = (s.children k).cut ∧
    (s'.children k).reading = (s.children k).reading

/-- What is in the shared state belongs where it is. -/
structure Slot.Sound (s : Slot) : Prop where
  cache : ∀ i, s.cache.server = some i → i < s.built ∧ (s.servers i).published = true
  inner : ∀ i < s.built, ∀ x, (s.servers i).inner = some x →
    x.child < s.spawned ∧ (s.children x.child).server = i

section Leaves

variable {i k : Nat} {f : Server → Server} {g : Child → Child} {part : List UInt8}

theorem leaves_refl (s : Slot) (l : Caller) : Leaves s s l :=
  { built := Nat.le_refl _, spawned := Nat.le_refl _, slot := fun _ => ⟨id, rfl, fun _ _ => rfl⟩
    published := fun _ _ h => h, server := fun _ _ _ => ⟨rfl, rfl, id⟩
    child := fun _ _ => ⟨rfl, id⟩, stdin := fun _ _ _ => ⟨rfl, rfl, rfl⟩ }

theorem leaves_seen (s : Slot) (l : Caller) (t : Nat) : Leaves s { s with seen := t } l :=
  { (leaves_refl s l) with }

/-- A server may change in every way while its lock is held. -/
theorem leaves_setServer (hpub : ∀ v, (f v).published = v.published)
    (hf : l.server = some i ∨ ((f (s.servers i)).inner = (s.servers i).inner ∧
      (f (s.servers i)).discarded = (s.servers i).discarded ∧
      ((s.servers i).locked = true → (f (s.servers i)).locked = true))) :
    Leaves s (s.setServer i f) l := by
  have hsame : ∀ j, ((s.setServer i f).servers j).published = (s.servers j).published := by
    intro j
    rw [setServer_servers]
    split
    · rename_i hj
      rw [hpub, hj]
    · rfl
  refine { (leaves_refl s l) with
    slot := fun _ => ⟨id, rfl, fun j _ => hsame j⟩
    published := fun j _ h => (hsame j).trans h
    server := fun j _ hj => ?_ }
  rw [setServer_servers]
  split
  · rename_i hij
    subst hij
    exact hf.resolve_left hj
  · exact ⟨rfl, rfl, id⟩

/-- So may its children. -/
theorem leaves_setChild (hserver : ∀ c, (g c).server = c.server)
    (halive : ∀ c, (g c).alive = true → c.alive = true)
    (hg : l.server = some (s.children k).server ∨ ((g (s.children k)).stdin = (s.children k).stdin ∧
      (g (s.children k)).cut = (s.children k).cut ∧
      (g (s.children k)).reading = (s.children k).reading)) :
    Leaves s (s.setChild k g) l := by
  refine { (leaves_refl s l) with child := fun j _ => ?_, stdin := fun j _ hj => ?_ }
  · rw [setChild_children]
    split
    · rename_i hjk
      subst hjk
      exact ⟨hserver _, halive _⟩
    · exact ⟨rfl, id⟩
  · rw [setChild_children]
    split
    · rename_i hjk
      subst hjk
      exact hg.resolve_left hj
    · exact ⟨rfl, rfl, rfl⟩

theorem leaves_kill : Leaves s (s.kill k) l :=
  leaves_setChild (fun _ => rfl) (fun _ h => by cases h) (.inr ⟨rfl, rfl, rfl⟩)

/-- One change after another by the same call. -/
theorem Leaves.trans {s'' : Slot} (h : Leaves s s' l) (h' : Leaves s' s'' l) : Leaves s s'' l := by
  have hb : ∀ {i}, i < s.built → i < s'.built := fun hi => Nat.lt_of_lt_of_le hi h.built
  have hs : ∀ {k}, k < s.spawned → k < s'.spawned := fun hk => Nat.lt_of_lt_of_le hk h.spawned
  refine
    { built := Nat.le_trans h.built h'.built
      spawned := Nat.le_trans h.spawned h'.spawned
      slot := fun hl => ?_
      published := fun i hi hp => h'.published i (hb hi) (h.published i hi hp)
      server := fun i hi hl => ?_
      child := fun k hk => ?_
      stdin := fun k hk hl => ?_ }
  · rcases h.slot hl with ⟨h₁, h₂, h₃⟩
    rcases h'.slot hl with ⟨h₁', h₂', h₃'⟩
    exact ⟨fun hlock => h₁' (h₁ hlock), h₂'.trans h₂, fun i hi => (h₃' i (hb hi)).trans (h₃ i hi)⟩
  · rcases h.server i hi hl with ⟨h₁, h₂, h₃⟩
    rcases h'.server i (hb hi) hl with ⟨h₁', h₂', h₃'⟩
    exact ⟨h₁'.trans h₁, h₂'.trans h₂, fun hlock => h₃' (h₃ hlock)⟩
  · rcases h.child k hk with ⟨h₁, h₂⟩
    rcases h'.child k (hs hk) with ⟨h₁', h₂'⟩
    exact ⟨h₁'.trans h₁, fun ha => h₂ (h₂' ha)⟩
  · rcases h.stdin k hk hl with ⟨h₁, h₂, h₃⟩
    rcases h'.stdin k (hs hk) ((h.child k hk).1 ▸ hl) with ⟨h₁', h₂', h₃'⟩
    exact ⟨h₁'.trans h₁, h₂'.trans h₂, h₃'.trans h₃⟩

theorem leaves_leave (hs : s.Sound) (hi : i < s.built) (hl : l.server = some i) :
    Leaves s (s.leave i part) l := by
  have hserver : Leaves s (s.setServer i fun v => { v with locked := false }) l :=
    leaves_setServer (fun _ => rfl) (.inl hl)
  rcases @leave_cases s i part with ⟨_, h⟩ | ⟨x, hx, h⟩
  · rw [h]
    exact hserver
  · rw [h]
    refine hserver.trans (leaves_setChild (fun _ => rfl) (fun _ ha => ha) (.inl ?_))
    rcases (hx x).mpr rfl with ⟨_, y, hy, rfl⟩
    rw [hl, setServer_children, (hs.inner i hi y hy).2]

theorem leaves_of_answers {β : Type} {op : ServerOp β} {b : β} (hs : s.Sound)
    (hbuilt : ∀ i, l.server = some i → i < s.built) (hA : Asserts codec β op l)
    (h : op.Answers s l b s' l') : Leaves s s' l := by
  cases op with
  | lockSlot =>
      rcases h with ⟨hfree, rfl, rfl⟩
      exact { (leaves_refl s l) with slot := fun _ => ⟨fun _ => rfl, rfl, fun _ _ => rfl⟩ }
  | unlockSlot =>
      rcases h with ⟨rfl, rfl⟩
      exact { (leaves_refl s l) with slot := fun hl => by rw [hA.2.2.1] at hl; cases hl }
  | cache =>
      rcases h with ⟨rfl, rfl⟩
      exact leaves_refl _ l
  | setCache value =>
      rcases h with ⟨i, _, rfl, rfl⟩ | ⟨_, rfl, rfl⟩
      · refine { (leaves_refl s l) with
          slot := fun hl => by rw [hA.2.2.1] at hl; cases hl
          published := fun j _ hj => ?_
          server := fun j _ _ => ?_ }
        · rw [setServer_servers]
          split
          · rfl
          · exact hj
        · rw [setServer_servers]
          split
          · rename_i hj
            subst hj
            exact ⟨rfl, rfl, id⟩
          · exact ⟨rfl, rfl, id⟩
      · exact { (leaves_refl s l) with slot := fun hl => by rw [hA.2.2.1] at hl; cases hl }
  | newServer description t =>
      rcases h with ⟨rfl, rfl⟩
      have hold : ∀ j < s.built,
          (s.addServer (Server.new description t)).servers j = s.servers j :=
        fun j hj => by rw [addServer_servers, if_neg (Nat.ne_of_lt hj)]
      exact { (leaves_refl s l) with
        built := Nat.le_succ _
        slot := fun _ => ⟨id, rfl, fun j hj => by rw [hold j hj]⟩
        published := fun j hj hp => by rw [hold j hj]; exact hp
        server := fun j hj _ => by rw [hold j hj]; exact ⟨rfl, rfl, id⟩ }
  | lockInner i =>
      rcases h with ⟨_, _, rfl, rfl⟩
      exact leaves_setServer (fun _ => rfl) (.inr ⟨rfl, rfl, fun _ => rfl⟩)
  | unlockInner =>
      rcases h with ⟨i, hi, rfl, rfl⟩
      exact (leaves_leave hs (hbuilt i hi) hi).trans (leaves_setServer (fun _ => rfl) (.inl hi))
  | inner =>
      rcases h with ⟨i, hi, rfl, rfl⟩
      exact leaves_refl _ l
  | setInner value =>
      rcases h with ⟨i, hi, rfl, rfl⟩
      exact leaves_setServer (fun _ => rfl) (.inl hi)
  | take =>
      rcases h with ⟨i, hi, rfl, rfl⟩
      exact leaves_setServer (fun _ => rfl) (.inl hi)
  | spawn spec =>
      rcases h with ⟨i, hi, ⟨rfl, rfl⟩ | ⟨rfl, rfl⟩⟩
      · have hold : ∀ j < s.spawned, (s.addChild (Child.new i)).children j = s.children j :=
          fun j hj => by rw [addChild_children, if_neg (Nat.ne_of_lt hj)]
        exact { (leaves_refl s l) with
          spawned := Nat.le_succ _
          child := fun j hj => by rw [hold j hj]; exact ⟨rfl, id⟩
          stdin := fun j hj _ => by rw [hold j hj]; exact ⟨rfl, rfl, rfl⟩ }
      · exact leaves_refl _ _
  | dropChild | startKill =>
      rcases h with ⟨k, _, rfl, rfl⟩
      exact leaves_kill
  | nextId =>
      rcases h with ⟨i, x, n, hi, _, rfl, rfl⟩
      exact leaves_setServer (fun _ => rfl) (.inl hi)
  | write buffer =>
      rcases h with ⟨i, x, hi, hx, ⟨n, _, _, rfl, rfl⟩ | ⟨rfl, rfl⟩⟩
      · refine leaves_setChild (fun _ => rfl) (fun _ ha => ha) (.inl ?_)
        rw [hi, (hs.inner i (hbuilt i hi) x hx).2]
      · exact leaves_refl _ _
  | markUsed i t =>
      rcases h with ⟨rfl, rfl⟩
      exact leaves_setServer (fun _ => rfl) (.inr ⟨rfl, rfl, id⟩)
  | pending => exact h.elim
  | _ =>
      rcases h with ⟨⟨t, rfl⟩, rfl⟩
      exact leaves_seen _ _ t

end Leaves

/-! ## The invariant -/

/-- What the shared state says of what one call holds. -/
structure Caller.Owned (s : Slot) (l : Caller) : Prop where
  slot : l.slot = true → s.locked = true
  subject : l.slot = true → ∀ i, l.subject = some i →
    i < s.built ∧ (s.cache.server = some i ∨ (s.servers i).published = false)
  target : ∀ i, l.target = some i → i < s.built ∧ (s.servers i).published = true
  handed : ∀ i, l.handed = some i → i < s.built ∧ (s.servers i).published = true
  server : ∀ i, l.server = some i → i < s.built ∧ (s.servers i).locked = true ∧
    ((s.servers i).published = true ∨ l.slot = true ∧ l.subject = some i)
  vacant : ∀ i, l.server = some i → l.vacant = true → (s.servers i).inner = none
  child : ∀ k, l.child = some k → ∃ i, l.server = some i ∧ (s.servers i).inner = none ∧
    (s.children k).server = i ∧ k < s.spawned

/-- Two calls do not hold the same lock. -/
structure Caller.Apart (l m : Caller) : Prop where
  slot : l.slot = true → m.slot = false
  server : ∀ i, l.server = some i → m.server ≠ some i

theorem Caller.Apart.symm (h : l.Apart m) : m.Apart l where
  slot hm := by
    cases hl : l.slot with
    | false => rfl
    | true =>
        rw [h.slot hl] at hm
        cases hm
  server i hm hl := h.server i hl hm

/-- Every lock has at most one holder, and what a call holds is as it knows. -/
structure Locks (s : Slot) (ls : List Caller) : Prop where
  sound : s.Sound
  owned : ∀ l ∈ ls, l.Owned s
  apart : ls.Pairwise Caller.Apart

theorem Locks.perm {ls ls' : List Caller} (hp : ls.Perm ls') (h : Locks s ls) : Locks s ls' :=
  ⟨h.sound, fun l hl => h.owned l (hp.mem_iff.mpr hl),
    (hp.pairwise_iff fun h => h.symm).mp h.apart⟩

/-- What a call holds is left alone by the others. -/
theorem Caller.Owned.leave (hm : m.Owned s) (hleaves : Leaves s s' l) (happart : l.Apart m) :
    m.Owned s' := by
  have hpub : ∀ i, i < s.built ∧ (s.servers i).published = true →
      i < s'.built ∧ (s'.servers i).published = true := fun i h =>
    ⟨Nat.lt_of_lt_of_le h.1 hleaves.built, hleaves.published i h.1 h.2⟩
  refine
    { slot := fun h => ?_
      subject := fun h i hi => ?_
      target := fun i hi => hpub i (hm.target i hi)
      handed := fun i hi => hpub i (hm.handed i hi)
      server := fun i hi => ?_
      vacant := fun i hi hv => ?_
      child := fun k hk => ?_ }
  · exact (hleaves.slot (happart.symm.slot h)).1 (hm.slot h)
  · rcases hm.subject h i hi with ⟨hlt, hc⟩
    rcases hleaves.slot (happart.symm.slot h) with ⟨_, hcache, hsame⟩
    rw [hcache, hsame i hlt]
    exact ⟨Nat.lt_of_lt_of_le hlt hleaves.built, hc⟩
  · rcases hm.server i hi with ⟨hlt, hlock, hright⟩
    rcases hleaves.server i hlt (happart.symm.server i hi) with ⟨_, _, hkeep⟩
    exact ⟨Nat.lt_of_lt_of_le hlt hleaves.built, hkeep hlock,
      hright.imp_left (hleaves.published i hlt)⟩
  · rw [(hleaves.server i (hm.server i hi).1 (happart.symm.server i hi)).1]
    exact hm.vacant i hi hv
  · rcases hm.child k hk with ⟨i, hi, hinner, hserver, hlt⟩
    refine ⟨i, hi, ?_, ?_, Nat.lt_of_lt_of_le hlt hleaves.spawned⟩
    · rw [(hleaves.server i (hm.server i hi).1 (happart.symm.server i hi)).1, hinner]
    · rw [(hleaves.child k hlt).1, hserver]

/-- Nothing about the locks has changed, and of the call only what it knows of the
    server it holds. -/
theorem Caller.Owned.change (hl : l.Owned s) (s' : Slot) (v : Bool) (c : Option Nat)
    (part : List UInt8) (hbuilt : s'.built = s.built) (hlocked : s'.locked = s.locked)
    (hcache : s'.cache = s.cache)
    (hservers : ∀ j, (s'.servers j).published = (s.servers j).published ∧
      (s'.servers j).locked = (s.servers j).locked)
    (hvacant : ∀ i, l.server = some i → v = true → (s'.servers i).inner = none)
    (hchild : ∀ k, c = some k → ∃ i, l.server = some i ∧ (s'.servers i).inner = none ∧
      (s'.children k).server = i ∧ k < s'.spawned) :
    Caller.Owned s' { l with vacant := v, child := c, part := part } where
  slot h := hlocked.trans (hl.slot h)
  subject h i hi := by
    rw [hbuilt, hcache, (hservers i).1]
    exact hl.subject h i hi
  target i hi := by
    rw [hbuilt, (hservers i).1]
    exact hl.target i hi
  handed i hi := by
    rw [hbuilt, (hservers i).1]
    exact hl.handed i hi
  server i hi := by
    rw [hbuilt, (hservers i).1, (hservers i).2]
    exact hl.server i hi
  vacant := hvacant
  child := hchild

/-- A change of one server that is not about its lock. -/
theorem setServer_keeps {i : Nat} {f : Server → Server}
    (hf : ∀ v, (f v).published = v.published ∧ (f v).locked = v.locked) (j : Nat) :
    ((s.setServer i f).servers j).published = (s.servers j).published ∧
      ((s.setServer i f).servers j).locked = (s.servers j).locked := by
  rw [setServer_servers]
  split
  · rename_i hj
    rw [hj]
    exact hf _
  · exact ⟨rfl, rfl⟩

section Answers

variable {β : Type} {op : ServerOp β} {b : β}

/-- What a call holds after one of its own effects. -/
theorem owned_answers (hs : s.Sound) (hl : l.Owned s) (hA : Asserts codec β op l)
    (h : op.Answers s l b s' l') : l'.Owned s' := by
  have hidle : ∀ {m : Caller} {t : Slot}, m.server = none → m.child = none →
      (m.slot = true → t.locked = true) →
      (m.slot = true → ∀ i, m.subject = some i →
        i < t.built ∧ (t.cache.server = some i ∨ (t.servers i).published = false)) →
      (∀ i, m.target = some i → i < t.built ∧ (t.servers i).published = true) →
      (∀ i, m.handed = some i → i < t.built ∧ (t.servers i).published = true) → m.Owned t := by
    intro m t hserver hchild hslot hsubject htarget hhanded
    refine ⟨hslot, hsubject, htarget, hhanded, ?_, ?_, ?_⟩
    · intro i hi
      rw [hserver] at hi
      cases hi
    · intro i hi
      rw [hserver] at hi
      cases hi
    · intro k hk
      rw [hchild] at hk
      cases hk
  cases op with
  | lockSlot =>
      rcases h with ⟨_, rfl, rfl⟩
      have hfree := hA.2.2.2
      exact hidle hfree.server hfree.child (fun _ => rfl)
        (fun _ i hi => ⟨(hs.cache i hi).1, .inl hi⟩) hs.cache hl.handed
  | unlockSlot =>
      rcases h with ⟨rfl, rfl⟩
      have hfree := hA.2.2.2.2.1
      exact hidle hfree.server hfree.child (fun hslot => by cases hslot)
        (fun hslot => by cases hslot) hl.target hl.handed
  | cache =>
      rcases h with ⟨rfl, rfl⟩
      have hfree := hA.2.2.2.2.1
      exact hidle hfree.server hfree.child hl.slot
        (fun _ i hi => ⟨(hs.cache i hi).1, .inl hi⟩) hs.cache hl.handed
  | setCache value =>
      rcases hA with ⟨_, _, hslot, hfree, hsubject, _⟩
      rcases h with ⟨i, hi, rfl, rfl⟩ | ⟨hnone, rfl, rfl⟩
      · have hbuilt : i < s.built := (hl.subject hslot i (hsubject.trans hi)).1
        have hpub : ∀ j, j < s.built ∧ (s.servers j).published = true → j < s.built ∧
            ((Slot.setServer { s with cache := value } i
              fun v => { v with published := true }).servers j).published = true := by
          rintro j ⟨hlt, hj⟩
          rw [setServer_servers]
          split
          · exact ⟨hlt, rfl⟩
          · exact ⟨hlt, hj⟩
        refine hidle hfree.server hfree.child hl.slot ?_ ?_ fun j hj => hpub j (hl.handed j hj)
        · rintro _ j hj
          cases hj
          exact ⟨hbuilt, .inl hi⟩
        · rintro j hj
          cases hj
          rw [setServer_servers, if_pos rfl]
          exact ⟨hbuilt, rfl⟩
      · exact hidle hfree.server hfree.child hl.slot (fun _ j hj => by cases hj) hl.target hl.handed
  | newServer description t =>
      rcases hA with ⟨_, _, _, _, _, hfree⟩
      rcases h with ⟨rfl, rfl⟩
      have hold : ∀ j, j < s.built ∧ (s.servers j).published = true →
          j < s.built + 1 ∧
            ((s.addServer (Server.new description t)).servers j).published = true := by
        rintro j ⟨hlt, hj⟩
        rw [addServer_servers, if_neg (Nat.ne_of_lt hlt)]
        exact ⟨Nat.lt_succ_of_lt hlt, hj⟩
      refine hidle hfree.server hfree.child hl.slot ?_ (fun j hj => hold j (hl.target j hj))
        fun j hj => hold j (hl.handed j hj)
      rintro _ j hj
      cases hj
      rw [addServer_servers, if_pos rfl]
      exact ⟨Nat.lt_succ_self _, .inr rfl⟩
  | lockInner i =>
      rcases hA with ⟨_, _, hfree⟩
      rcases h with ⟨hbuilt, hopen, rfl, rfl⟩
      have hsame : ∀ j, ((s.setServer i fun v => { v with locked := true }).servers j).published =
          (s.servers j).published := by
        intro j
        rw [setServer_servers]
        split
        · rename_i hj
          rw [hj]
        · rfl
      refine ⟨hl.slot, fun hslot j hj => ?_, fun j hj => ?_, fun j hj => ?_, ?_, ?_, ?_⟩
      · rw [hsame j]
        exact hl.subject hslot j hj
      · rw [hsame j]
        exact hl.target j hj
      · rw [hsame j]
        exact hl.handed j hj
      · intro j hj
        cases hj
        rw [hsame i, setServer_servers, if_pos rfl]
        refine ⟨hbuilt, rfl, ?_⟩
        by_cases hkind : l.kind = .ensure
        · exact .inr (hfree.ensure hkind)
        · exact .inl (hl.target i (hfree.others hkind).2).2
      · intro j _ hv
        cases hv
      · intro k hk
        have hchild : l.child = some k := hk
        rw [hfree.child] at hchild
        cases hchild
  | unlockInner =>
      rcases hA with ⟨_, _, i', hholds, hchild⟩
      rcases h with ⟨i, hi, rfl, rfl⟩
      have hsame : ∀ j, (((s.leave i l.part).setServer i fun v =>
          { v with discarded := v.discarded || l.givesUp }).servers j).published =
          (s.servers j).published := by
        intro j
        rw [setServer_servers]
        split
        · rename_i hj
          rw [leave_servers, if_pos rfl, hj]
        · rename_i hj
          rw [leave_servers, if_neg hj]
      refine hidle rfl hchild (fun hslot => ?_) (fun hslot j hj => ?_) (fun j hj => ?_)
        fun j hj => ?_
      · rw [setServer_locked, leave_locked]
        exact hl.slot hslot
      · have hj' : l.subject = some j := by
          simp only [Caller.unlocked] at hj
          split at hj
          · cases hj
          · exact hj
        rw [hsame j, setServer_built, leave_built, setServer_cache, leave_cache]
        exact hl.subject hslot j hj'
      · rw [hsame j, setServer_built, leave_built]
        exact hl.target j hj
      · rw [hsame j, setServer_built, leave_built]
        exact hl.handed j hj
  | inner =>
      rcases h with ⟨i, hi, rfl, rfl⟩
      refine hl.change s' _ l.child l.part rfl rfl rfl (fun _ => ⟨rfl, rfl⟩) (fun j hj hv => ?_)
        hl.child
      rw [hi] at hj
      cases hj
      exact Option.isNone_iff_eq_none.mp hv
  | setInner value =>
      rcases h with ⟨i, hi, rfl, rfl⟩
      exact hl.change (s.setServer i _) false none l.part rfl rfl rfl
        (setServer_keeps fun _ => ⟨rfl, rfl⟩) (fun _ _ hv => by cases hv) fun _ hk => by cases hk
  | take =>
      rcases h with ⟨i, hi, rfl, rfl⟩
      have hnone : ((s.setServer i fun v => { v with inner := none }).servers i).inner = none := by
        rw [setServer_servers, if_pos rfl]
      refine hl.change (s.setServer i _) _ _ l.part rfl rfl rfl
        (setServer_keeps fun _ => ⟨rfl, rfl⟩) (fun j hj _ => ?_) fun k hk => ?_
      · rw [hi] at hj
        cases hj
        exact hnone
      · rcases Option.map_eq_some_iff.mp hk with ⟨x, hx, rfl⟩
        rcases hs.inner i (hl.server i hi).1 x hx with ⟨hlt, hserver⟩
        exact ⟨i, hi, hnone, hserver, hlt⟩
  | spawn spec =>
      rcases hA with ⟨_, _, i', hholds, _, _, hvacant, _⟩
      rcases h with ⟨i, hi, ⟨rfl, rfl⟩ | ⟨rfl, rfl⟩⟩
      · refine hl.change (s.addChild (Child.new i)) l.vacant (some s.spawned) l.part rfl rfl rfl
          (fun _ => ⟨rfl, rfl⟩) hl.vacant fun k hk => ?_
        cases hk
        refine ⟨i, hi, hl.vacant i hi hvacant, ?_, Nat.lt_succ_self _⟩
        rw [addChild_children, if_pos rfl]
        rfl
      · exact hl
  | dropChild =>
      rcases h with ⟨k, _, rfl, rfl⟩
      exact hl.change (s.kill k) l.vacant none l.part rfl rfl rfl (fun _ => ⟨rfl, rfl⟩) hl.vacant
        nofun
  | startKill =>
      rcases h with ⟨k, hk, rfl, rfl⟩
      refine hl.change (s.kill k) true none l.part rfl rfl rfl (fun _ => ⟨rfl, rfl⟩)
        (fun i hi _ => ?_) nofun
      rcases hl.child k hk with ⟨j, hj, hnone, _⟩
      rw [hi] at hj
      cases hj
      exact hnone
  | nextId =>
      rcases hA with ⟨_, _, i', hholds, hchild, hvacant⟩
      rcases h with ⟨i, x, n, hi, hx, rfl, rfl⟩
      refine hl.change (s.setServer i _) l'.vacant l'.child l'.part rfl rfl rfl
        (setServer_keeps fun _ => ⟨rfl, rfl⟩) (fun _ _ hv => ?_) fun _ hk => ?_
      · rw [hvacant] at hv
        cases hv
      · rw [hchild] at hk
        cases hk
  | write buffer =>
      rcases hA with ⟨_, _, i', hholds, hchild, _⟩
      rcases h with ⟨i, x, hi, hx, ⟨n, _, _, rfl, rfl⟩ | ⟨rfl, rfl⟩⟩
      · refine hl.change (s.setChild x.child _) l.vacant l.child _ rfl rfl rfl
          (fun _ => ⟨rfl, rfl⟩) hl.vacant fun k hk => ?_
        rw [hchild] at hk
        cases hk
      · exact hl
  | markUsed i t =>
      rcases h with ⟨rfl, rfl⟩
      have hinner : ∀ j, ((s.setServer i fun v => { v with lastUsed := t }).servers j).inner =
          (s.servers j).inner := by
        intro j
        rw [setServer_servers]
        split
        · rename_i hj
          rw [hj]
        · rfl
      refine hl.change (s.setServer i _) l'.vacant l'.child l'.part rfl rfl rfl
        (setServer_keeps fun _ => ⟨rfl, rfl⟩) (fun j hj hv => ?_) fun k hk => ?_
      · rw [hinner j]
        exact hl.vacant j hj hv
      · rcases hl.child k hk with ⟨j, hj, hnone, hrest⟩
        exact ⟨j, hj, (hinner j).trans hnone, hrest⟩
  | pending => exact h.elim
  | _ =>
      rcases h with ⟨⟨t, rfl⟩, rfl⟩
      exact hl.change { s with seen := t } l'.vacant l'.child l'.part rfl rfl rfl
        (fun _ => ⟨rfl, rfl⟩) hl.vacant hl.child

/-- The cache is only written as such. -/
theorem cache_answers (h : op.Answers s l b s' l') : s'.cache = s.cache ∨
    ∃ value, (⟨β, op⟩ : Sigma ServerOp) = ⟨_, .setCache value⟩ := by
  cases op with
  | setCache value => exact .inr ⟨value, rfl⟩
  | lockSlot => exact .inl (by rw [h.2.1])
  | unlockSlot | cache | newServer | markUsed =>
      rcases h with ⟨rfl, _⟩
      exact .inl rfl
  | lockInner i =>
      rcases h with ⟨_, _, rfl, _⟩
      exact .inl rfl
  | unlockInner =>
      rcases h with ⟨i, _, rfl, _⟩
      exact .inl (by rw [setServer_cache, leave_cache])
  | inner | setInner | take | dropChild | startKill =>
      rcases h with ⟨i, _, rfl, _⟩
      exact .inl rfl
  | spawn spec =>
      rcases h with ⟨i, _, ⟨rfl, _⟩ | ⟨rfl, _⟩⟩ <;> exact .inl rfl
  | nextId =>
      rcases h with ⟨i, x, n, _, _, rfl, _⟩
      exact .inl rfl
  | write buffer =>
      rcases h with ⟨i, x, _, _, ⟨n, _, _, rfl, _⟩ | ⟨rfl, _⟩⟩ <;> exact .inl rfl
  | pending => exact h.elim
  | _ =>
      rcases h with ⟨⟨t, rfl⟩, _⟩
      exact .inl rfl

/-- What is in the shared state belongs there after any effect. -/
theorem sound_answers (hs : s.Sound) (hl : l.Owned s) (hA : Asserts codec β op l)
    (h : op.Answers s l b s' l') : s'.Sound := by
  have hleaves := leaves_of_answers hs (fun i hi => (hl.server i hi).1) hA h
  -- A running worker is an old one, or the child in the hands of this call.
  have hinner : ∀ i < s'.built, ∀ x, (s'.servers i).inner = some x →
      i < s.built ∧ ((∃ y, (s.servers i).inner = some y ∧ y.child = x.child) ∨
        l.server = some i ∧ l.child = some x.child) := by
    intro i hi x hx
    cases op with
    | newServer description t =>
        rcases h with ⟨rfl, rfl⟩
        rw [addServer_servers] at hx
        split at hx
        · cases hx
        · rename_i hne
          exact ⟨by rw [addServer_built] at hi; omega, .inl ⟨x, hx, rfl⟩⟩
    | unlockInner =>
        rcases h with ⟨j, hj, rfl, rfl⟩
        rw [setServer_built, leave_built] at hi
        rw [setServer_servers] at hx
        refine ⟨hi, .inl ⟨x, ?_, rfl⟩⟩
        split at hx
        · rename_i hij
          rw [leave_servers, if_pos rfl] at hx
          rw [hij]
          exact hx
        · rename_i hij
          rw [leave_servers, if_neg hij] at hx
          exact hx
    | setInner value =>
        rcases hA with ⟨_, _, j', hholds, hchild, _⟩
        rcases h with ⟨j, hj, rfl, rfl⟩
        rw [setServer_servers] at hx
        split at hx
        · rename_i hij
          cases hx
          exact ⟨hi, .inr ⟨hij ▸ hj, hchild⟩⟩
        · exact ⟨hi, .inl ⟨x, hx, rfl⟩⟩
    | take =>
        rcases h with ⟨j, hj, rfl, rfl⟩
        rw [setServer_servers] at hx
        split at hx
        · cases hx
        · exact ⟨hi, .inl ⟨x, hx, rfl⟩⟩
    | nextId =>
        rcases h with ⟨j, y, n, hj, hy, rfl, rfl⟩
        rw [setServer_servers] at hx
        split at hx
        · rename_i hij
          cases hx
          exact ⟨hi, .inl ⟨y, hij ▸ hy, rfl⟩⟩
        · exact ⟨hi, .inl ⟨x, hx, rfl⟩⟩
    | setCache value =>
        rcases h with ⟨j, _, rfl, rfl⟩ | ⟨_, rfl, rfl⟩
        · rw [setServer_servers] at hx
          split at hx
          · rename_i hij
            exact ⟨hi, .inl ⟨x, hij ▸ hx, rfl⟩⟩
          · exact ⟨hi, .inl ⟨x, hx, rfl⟩⟩
        · exact ⟨hi, .inl ⟨x, hx, rfl⟩⟩
    | lockInner j =>
        rcases h with ⟨_, _, rfl, rfl⟩
        rw [setServer_servers] at hx
        split at hx
        · rename_i hij
          exact ⟨hi, .inl ⟨x, hij ▸ hx, rfl⟩⟩
        · exact ⟨hi, .inl ⟨x, hx, rfl⟩⟩
    | markUsed j t =>
        rcases h with ⟨rfl, rfl⟩
        rw [setServer_servers] at hx
        split at hx
        · rename_i hij
          exact ⟨hi, .inl ⟨x, hij ▸ hx, rfl⟩⟩
        · exact ⟨hi, .inl ⟨x, hx, rfl⟩⟩
    | lockSlot =>
        rcases h with ⟨_, rfl, rfl⟩
        exact ⟨hi, .inl ⟨x, hx, rfl⟩⟩
    | unlockSlot | cache =>
        rcases h with ⟨rfl, rfl⟩
        exact ⟨hi, .inl ⟨x, hx, rfl⟩⟩
    | inner | dropChild | startKill =>
        rcases h with ⟨j, _, rfl, rfl⟩
        exact ⟨hi, .inl ⟨x, hx, rfl⟩⟩
    | spawn spec =>
        rcases h with ⟨j, _, ⟨rfl, rfl⟩ | ⟨rfl, rfl⟩⟩ <;> exact ⟨hi, .inl ⟨x, hx, rfl⟩⟩
    | write buffer =>
        rcases h with ⟨j, y, _, _, ⟨n, _, _, rfl, rfl⟩ | ⟨rfl, rfl⟩⟩ <;>
          exact ⟨hi, .inl ⟨x, hx, rfl⟩⟩
    | pending => exact h.elim
    | _ =>
        rcases h with ⟨⟨t, rfl⟩, rfl⟩
        exact ⟨hi, .inl ⟨x, hx, rfl⟩⟩
  have hold : ∀ i, i < s.built ∧ (s.servers i).published = true →
      i < s'.built ∧ (s'.servers i).published = true := fun i hi =>
    ⟨Nat.lt_of_lt_of_le hi.1 hleaves.built, hleaves.published i hi.1 hi.2⟩
  refine ⟨fun i hi => ?_, fun i hi x hx => ?_⟩
  · rcases cache_answers h with hsame | ⟨value, heq⟩
    · rw [hsame] at hi
      exact hold i (hs.cache i hi)
    · cases heq
      rcases hA with ⟨_, _, hslot, _, hsubject, _⟩
      rcases h with ⟨j, hj, rfl, rfl⟩ | ⟨hnone, rfl, rfl⟩
      · have hij : i = j := Option.some.inj (hi.symm.trans hj)
        subst hij
        refine ⟨(hl.subject hslot i (hsubject.trans hj)).1, ?_⟩
        rw [setServer_servers, if_pos rfl]
      · rw [show value.server = some i from hi] at hnone
        cases hnone
  · rcases hinner i hi x hx with ⟨hlt, ⟨y, hy, hxy⟩ | ⟨hserver, hchild⟩⟩
    · rcases hs.inner i hlt y hy with ⟨hk, hserver⟩
      rw [← hxy]
      exact ⟨Nat.lt_of_lt_of_le hk hleaves.spawned, (hleaves.child _ hk).1.trans hserver⟩
    · rcases hl.child _ hchild with ⟨j, hj, _, hserver', hk⟩
      rw [hserver] at hj
      cases hj
      exact ⟨Nat.lt_of_lt_of_le hk hleaves.spawned, (hleaves.child _ hk).1.trans hserver'⟩

/-- A lock is only taken when it is free. -/
theorem held_answers (h : op.Answers s l b s' l') :
    (l'.slot = true → l.slot = true ∨ s.locked = false) ∧
      ∀ i, l'.server = some i → l.server = some i ∨ (s.servers i).locked = false := by
  cases op with
  | lockSlot =>
      rcases h with ⟨hfree, _, rfl⟩
      exact ⟨fun _ => .inr hfree, fun _ hi => .inl hi⟩
  | unlockSlot =>
      rcases h with ⟨_, rfl⟩
      exact ⟨fun hl => (by cases hl), fun _ hi => .inl hi⟩
  | cache | newServer | markUsed =>
      rcases h with ⟨_, rfl⟩
      exact ⟨fun hl => .inl hl, fun _ hi => .inl hi⟩
  | setCache value =>
      rcases h with ⟨_, _, _, rfl⟩ | ⟨_, _, rfl⟩ <;>
        exact ⟨fun hl => .inl hl, fun _ hi => .inl hi⟩
  | lockInner i =>
      rcases h with ⟨_, hfree, _, rfl⟩
      refine ⟨fun hl => .inl hl, fun j hj => ?_⟩
      cases hj
      exact .inr hfree
  | unlockInner =>
      rcases h with ⟨_, _, _, rfl⟩
      exact ⟨fun hl => .inl hl, fun _ hi => by cases hi⟩
  | inner | setInner | take | dropChild | startKill =>
      rcases h with ⟨_, _, _, rfl⟩
      exact ⟨fun hl => .inl hl, fun _ hi => .inl hi⟩
  | spawn spec =>
      rcases h with ⟨_, _, ⟨_, rfl⟩ | ⟨_, rfl⟩⟩ <;>
        exact ⟨fun hl => .inl hl, fun _ hi => .inl hi⟩
  | nextId =>
      rcases h with ⟨_, _, _, _, _, _, rfl⟩
      exact ⟨fun hl => .inl hl, fun _ hi => .inl hi⟩
  | write buffer =>
      rcases h with ⟨_, _, _, _, ⟨_, _, _, _, rfl⟩ | ⟨_, rfl⟩⟩ <;>
        exact ⟨fun hl => .inl hl, fun _ hi => .inl hi⟩
  | pending => exact h.elim
  | _ =>
      rcases h with ⟨_, rfl⟩
      exact ⟨fun hl => .inl hl, fun _ hi => .inl hi⟩

theorem locks_answers {ls : List Caller} (h : Locks s (l :: ls)) (hA : Asserts codec β op l)
    (hans : op.Answers s l b s' l') : Locks s' (l' :: ls) := by
  have hl := h.owned l (List.mem_cons_self ..)
  have happart := List.pairwise_cons.mp h.apart
  have hleaves := leaves_of_answers h.sound (fun i hi => (hl.server i hi).1) hA hans
  have hheld := held_answers hans
  refine ⟨sound_answers h.sound hl hA hans, fun m hm => ?_, List.pairwise_cons.mpr
    ⟨fun m hm => ⟨fun hslot => ?_, fun i hi hmi => ?_⟩, happart.2⟩⟩
  · rcases List.mem_cons.mp hm with rfl | hm
    · exact owned_answers h.sound hl hA hans
    · exact (h.owned m (List.mem_cons_of_mem _ hm)).leave hleaves (happart.1 m hm)
  · rcases hheld.1 hslot with hl' | hfree
    · exact (happart.1 m hm).slot hl'
    · cases hms : m.slot with
      | false => rfl
      | true =>
          rw [(h.owned m (List.mem_cons_of_mem _ hm)).slot hms] at hfree
          cases hfree
  · rcases hheld.2 i hi with hl' | hfree
    · exact (happart.1 m hm).server i hl' hmi
    · rw [((h.owned m (List.mem_cons_of_mem _ hm)).server i hmi).2.1] at hfree
      cases hfree

end Answers

/-! ## The other steps -/

/-- A call made on servers that have been in the cache. -/
theorem locks_call {ls : List Caller} (h : Locks s ls) (call : Call V T)
    (hserver : ∀ i, call.server = some i → i < s.built ∧ (s.servers i).published = true) :
    Locks s (call.fresh :: ls) := by
  have hfresh := fresh_fresh call
  have hhanded : call.fresh.handed = none := by
    cases call <;> rfl
  refine ⟨h.sound, fun m hm => ?_, List.pairwise_cons.mpr ⟨fun m _ => ⟨?_, ?_⟩, h.apart⟩⟩
  · rcases List.mem_cons.mp hm with rfl | hm
    · refine ⟨?_, ?_, hserver, ?_, ?_, ?_, ?_⟩
      · rw [hfresh.slot]
        nofun
      · rw [hfresh.slot]
        nofun
      · rw [hhanded]
        nofun
      · rw [hfresh.server]
        nofun
      · rw [hfresh.server]
        nofun
      · rw [hfresh.child]
        nofun
    · exact h.owned m hm
  · rw [hfresh.slot]
    nofun
  · rw [hfresh.server]
    nofun

/-- A call that ends keeps what it holds, and may have been handed a server. -/
theorem locks_ended {ls : List Caller} (h : Locks s (l :: ls)) (handed : Option Nat)
    (hhanded : ∀ i, handed = some i → l.target = some i) :
    Locks s ({ l with finished := true, handed := handed } :: ls) := by
  have hl := h.owned l (List.mem_cons_self ..)
  have happart := List.pairwise_cons.mp h.apart
  refine ⟨h.sound, fun m hm => ?_, List.pairwise_cons.mpr ⟨fun m hm => ?_, happart.2⟩⟩
  · rcases List.mem_cons.mp hm with rfl | hm
    · exact { hl with handed := fun i hi => hl.target i (hhanded i hi) }
    · exact h.owned m (List.mem_cons_of_mem _ hm)
  · exact ⟨(happart.1 m hm).slot, (happart.1 m hm).server⟩

/-- A child changes on its own. -/
theorem locks_setChild {ls : List Caller} {k : Nat} {g : Child → Child}
    (hg : ∀ c, (g c).server = c.server) (h : Locks s ls) : Locks (s.setChild k g) ls := by
  have hserver : ∀ j, ((s.setChild k g).children j).server = (s.children j).server := by
    intro j
    rw [setChild_children]
    split
    · rename_i hj
      rw [hg, hj]
    · rfl
  refine ⟨⟨h.sound.cache, fun i hi x hx => ?_⟩, fun m hm => ?_, h.apart⟩
  · rcases h.sound.inner i hi x hx with ⟨hlt, hx'⟩
    exact ⟨hlt, (hserver _).trans hx'⟩
  · refine { (h.owned m hm) with child := fun j hj => ?_ }
    rcases (h.owned m hm).child j hj with ⟨i, hi, hinner, hj', hlt⟩
    exact ⟨i, hi, hinner, (hserver _).trans hj', hlt⟩

/-- Dropping a server that was being built, and its child if it has one. -/
theorem dropServer_cases {i : Nat} :
    (s.servers i).inner = none ∧
        s.dropServer i = s.setServer i (fun v => { v with inner := none, discarded := true }) ∨
      ∃ x, (s.servers i).inner = some x ∧ s.dropServer i =
        (s.setServer i fun v => { v with inner := none, discarded := true }).kill x.child := by
  cases hinner : (s.servers i).inner with
  | none => exact .inl ⟨rfl, by simp only [Slot.dropServer, hinner]⟩
  | some x => exact .inr ⟨x, rfl, by simp only [Slot.dropServer, hinner]⟩

@[simp] theorem dropServer_servers {i j : Nat} :
    (s.dropServer i).servers j =
      if j = i then { s.servers i with inner := none, discarded := true } else s.servers j := by
  rcases dropServer_cases (s := s) (i := i) with ⟨_, heq⟩ | ⟨x, _, heq⟩
  · rw [heq]
    exact setServer_servers
  · rw [heq, Slot.kill, setChild_servers]
    exact setServer_servers

@[simp] theorem dropServer_built {i : Nat} : (s.dropServer i).built = s.built := by
  rcases dropServer_cases (s := s) (i := i) with ⟨_, heq⟩ | ⟨x, _, heq⟩ <;> rw [heq] <;> rfl

@[simp] theorem dropServer_spawned {i : Nat} : (s.dropServer i).spawned = s.spawned := by
  rcases dropServer_cases (s := s) (i := i) with ⟨_, heq⟩ | ⟨x, _, heq⟩ <;> rw [heq] <;> rfl

@[simp] theorem dropServer_cache {i : Nat} : (s.dropServer i).cache = s.cache := by
  rcases dropServer_cases (s := s) (i := i) with ⟨_, heq⟩ | ⟨x, _, heq⟩ <;> rw [heq] <;> rfl

/-- A child survives if it is not that of the server. -/
theorem dropServer_children {i k : Nat} :
    ∃ alive, (s.dropServer i).children k = { s.children k with alive := alive } ∧
      (alive = true → (s.children k).alive = true ∧
        ∀ x, (s.servers i).inner = some x → x.child ≠ k) := by
  rcases dropServer_cases (s := s) (i := i) with ⟨hnone, heq⟩ | ⟨x, hx, heq⟩
  · rw [heq, hnone]
    exact ⟨(s.children k).alive, rfl, fun ha => ⟨ha, nofun⟩⟩
  · rw [heq, Slot.kill, setChild_children]
    split
    · rename_i hk
      exact ⟨false, by rw [hk]; rfl, nofun⟩
    · rename_i hk
      refine ⟨(s.children k).alive, rfl, fun ha => ⟨ha, fun y hy hyk => hk ?_⟩⟩
      rw [hx] at hy
      cases hy
      exact hyk.symm

theorem locks_dropServer {ls : List Caller} {i : Nat} (h : Locks s ls) :
    Locks (s.dropServer i) ls := by
  have hnone : ∀ j, ((s.setServer i fun v => { v with inner := none, discarded := true }).servers
      j).inner = none ∨ ((s.setServer i fun v => { v with inner := none, discarded := true }).servers
      j).inner = (s.servers j).inner := by
    intro j
    rw [setServer_servers]
    split
    · exact .inl rfl
    · exact .inr rfl
  have hkept := setServer_keeps (s := s) (i := i)
    (f := fun v => { v with inner := none, discarded := true }) fun _ => ⟨rfl, rfl⟩
  have hset : Locks (s.setServer i fun v => { v with inner := none, discarded := true }) ls := by
    refine ⟨⟨fun j hj => ?_, fun j hj x hx => ?_⟩, fun m hm => ?_, h.apart⟩
    · rw [(hkept j).1]
      exact h.sound.cache j hj
    · rcases hnone j with hn | hn
      · rw [hn] at hx
        cases hx
      · exact h.sound.inner j hj x (hn ▸ hx)
    · have hm := h.owned m hm
      refine hm.change _ m.vacant m.child m.part rfl rfl rfl hkept (fun j hj hv => ?_) fun k hk => ?_
      · exact (hnone j).elim id fun hn => hn.trans (hm.vacant j hj hv)
      · rcases hm.child k hk with ⟨j, hj, hvacant, hrest⟩
        exact ⟨j, hj, (hnone j).elim id fun hn => hn.trans hvacant, hrest⟩
  rcases dropServer_cases (s := s) (i := i) with ⟨_, heq⟩ | ⟨x, _, heq⟩
  · rw [heq]
    exact hset
  · rw [heq]
    exact locks_setChild (fun _ => rfl) hset

/-- A call lets go of something. -/
theorem Locks.lose {ls : List Caller} (h : Locks s (l :: ls)) (hleaves : Leaves s s' l)
    (hs : s'.Sound) (hl' : l'.Owned s') (hslot : l'.slot = true → l.slot = true)
    (hserver : ∀ i, l'.server = some i → l.server = some i) : Locks s' (l' :: ls) := by
  have happart := List.pairwise_cons.mp h.apart
  refine ⟨hs, fun m hm => ?_, List.pairwise_cons.mpr ⟨fun m hm =>
    ⟨fun hs' => (happart.1 m hm).slot (hslot hs'),
      fun i hi => (happart.1 m hm).server i (hserver i hi)⟩, happart.2⟩⟩
  rcases List.mem_cons.mp hm with rfl | hm
  · exact hl'
  · exact (h.owned m (List.mem_cons_of_mem _ hm)).leave hleaves (happart.1 m hm)

theorem locks_leave {ls : List Caller} {i : Nat} (h : Locks s (l :: ls)) (hchild : l.child = none)
    (hi : l.server = some i) :
    Locks (s.leave i l.part) ({ l with server := none, vacant := false, part := [] } :: ls) := by
  have hl := h.owned l (List.mem_cons_self ..)
  have hbuilt := (hl.server i hi).1
  have hleaves := @leaves_leave s l i l.part h.sound hbuilt hi
  refine h.lose hleaves ⟨fun j hj => ?_, fun j hj x hx => ?_⟩ ?_ id nofun
  · rw [leave_cache] at hj
    exact ⟨by rw [leave_built]; exact (h.sound.cache j hj).1,
      hleaves.published j (h.sound.cache j hj).1 (h.sound.cache j hj).2⟩
  · rw [leave_built] at hj
    have hx' : (s.servers j).inner = some x := by
      rw [leave_servers] at hx
      split at hx
      · rename_i hji
        rw [hji]
        exact hx
      · exact hx
    rcases h.sound.inner j hj x hx' with ⟨hlt, hserver⟩
    exact ⟨by rw [leave_spawned]; exact hlt, (hleaves.child _ hlt).1.trans hserver⟩
  · have hpub : ∀ j, j < s.built ∧ (s.servers j).published = true →
        j < (s.leave i l.part).built ∧ ((s.leave i l.part).servers j).published = true :=
      fun j hj => ⟨by rw [leave_built]; exact hj.1, hleaves.published j hj.1 hj.2⟩
    refine ⟨fun hslot => ?_, fun hslot j hj => ?_, fun j hj => hpub j (hl.target j hj),
      fun j hj => hpub j (hl.handed j hj), nofun, nofun, fun k hk => ?_⟩
    · rw [leave_locked]
      exact hl.slot hslot
    · rw [leave_built, leave_cache, leave_servers]
      split
      · rename_i hji
        subst hji
        exact hl.subject hslot _ hj
      · exact hl.subject hslot _ hj
    · have hk' : l.child = some k := hk
      rw [hchild] at hk'
      cases hk'

theorem locks_release {ls : List Caller} (h : Locks s (l :: ls))
    (hr : Caller.release (s, l) = some (s', l')) : Locks s' (l' :: ls) := by
  have hl := h.owned l (List.mem_cons_self ..)
  rcases (Caller.release_cases hr).2 with ⟨k, hchild, rfl, rfl⟩ | ⟨hchild, i, hi, rfl, rfl⟩ |
    ⟨hchild, hserver, hslot, rfl, hcases⟩
  · have hkill : Locks (s.kill k) (l :: ls) := locks_setChild (fun _ => rfl) h
    refine h.lose leaves_kill hkill.sound ?_ id fun _ => id
    exact { (hkill.owned l (List.mem_cons_self ..)) with child := nofun }
  · exact locks_leave h hchild hi
  · have hnone : ∀ i, l.server ≠ some i := by
      rw [hserver]
      nofun
    have hunlock :
        Locks { s with locked := false } ({ l with slot := false, subject := none } :: ls) := by
      refine h.lose { (leaves_refl s l) with slot := fun hl => by rw [hslot] at hl; cases hl }
        ⟨h.sound.cache, h.sound.inner⟩ ?_ nofun fun _ => id
      exact { hl with
        slot := nofun
        subject := nofun
        server := fun i hi => absurd hi (hnone i) }
    rcases hcases with ⟨_, rfl⟩ | ⟨i, _, _, rfl⟩
    · exact hunlock
    · exact locks_dropServer hunlock

/-- Nobody has heard of a server that is not in the cache, but the call that has it
    in hand. -/
theorem Locks.unknown {ls : List Caller} (h : Locks s (l :: ls)) (hslot : l.slot = true) {i : Nat}
    (hserver : l.server = none) (hi : l.subject = some i) (hne : s.cache.server ≠ some i) :
    ∀ m ∈ l :: ls, m.server ≠ some i := by
  intro m hm hmi
  rcases List.mem_cons.mp hm with rfl | hrest
  · rw [hserver] at hmi
    cases hmi
  · have hpub := ((h.owned l (List.mem_cons_self ..)).subject hslot i hi).2.resolve_left hne
    rcases ((h.owned m hm).server i hmi).2.2 with hp | hp
    · rw [hpub] at hp
      cases hp
    · rw [((List.pairwise_cons.mp h.apart).1 m hrest).slot hslot] at hp
      cases hp.1

theorem locks_env {ls : List Caller} {c : ServerChoice} (h : Locks s ls) (hs : s.env c = some s') :
    Locks s' ls := by
  cases c with
  | exited k | closed k =>
      cases hs
      exact locks_setChild (fun _ => rfl) h
  | _ => cases hs

end TinyRuntime.PyServer
