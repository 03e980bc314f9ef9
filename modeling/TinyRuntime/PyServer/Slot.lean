import TinyRuntime.PyServer.Locks

/-!
# One Worker for One Slot

A slot is meant to keep exactly one warm worker for its process. It hands out
shared handles, and a handle outlives the moment the slot discards its server: a
start or a request on it finds no child and spawns one, beside the worker of the
server that took its place (`two_workers`).

Where no start or request locks a server that was discarded, there is at most one
live child, and it belongs to the cached server or to the one the holder of the
slot's lock is building (`one_worker`).

The invariant says which server may have a child at all. A server that was not
discarded is in the cache or in the hands of the holder of the slot's lock, so
there is at most one. A live child is behind its server's lock or in the hands of
the call that holds this lock, and its server was not discarded.

## Main definitions

* `stayWithCached`: The histories without stale handles at work.
* `Single`: The invariant.

## Theorems

* `single_answers`: One effect keeps it.
* `one_worker`: At most one live child.
* `two_workers`: A stale handle makes a second one.
-/

namespace TinyRuntime.PyServer

variable {V T : Type} {codec : ServerCodec V} {s s' : Slot} {l l' m : Caller} {ls : List Caller}

/-- What is known of one call beside its locks. -/
structure Caller.Steady (s : Slot) (l : Caller) : Prop where
  cache : l.slot = true → ∀ i, s.cache.server = some i →
    l.subject = some i ∨ l.gaveUp = true ∧ (s.servers i).discarded = true
  subject : l.slot = true → ∀ i, l.subject = some i → (s.servers i).discarded = false ∧
    (s.cache.server = some i ∨ s.cache.server = none)
  spawns : l.kind ≠ .other → ∀ i, l.server = some i → (s.servers i).discarded = false
  child : l.child ≠ none → ∀ i, l.server = some i → (s.servers i).discarded = false
  finished : l.finished = true → l.gaveUp = false

/-- Which servers may have a child, and where the live ones are. -/
structure Single (s : Slot) (ls : List Caller) : Prop where
  discarded : ∀ i < s.built, (s.servers i).discarded = true → (s.servers i).inner = none
  kept : ∀ i < s.built, (s.servers i).discarded = false →
    s.cache.server = some i ∨ ∃ l ∈ ls, l.slot = true ∧ l.subject = some i
  cached : ∀ i, s.cache.server = some i →
    (s.servers i).discarded = false ∨ ∃ l ∈ ls, l.slot = true ∧ l.gaveUp = true
  alive : ∀ k < s.spawned, (s.children k).alive = true →
    (∃ i < s.built, ∃ x, (s.servers i).inner = some x ∧ x.child = k) ∨ ∃ l ∈ ls, l.child = some k
  steady : ∀ l ∈ ls, l.Steady s

theorem Single.perm {ls' : List Caller} (hp : ls.Perm ls') (h : Single s ls) : Single s ls' where
  discarded := h.discarded
  kept i hi hd := (h.kept i hi hd).imp_right fun ⟨l, hl, hrest⟩ => ⟨l, hp.mem_iff.mp hl, hrest⟩
  cached i hi := (h.cached i hi).imp_right fun ⟨l, hl, hrest⟩ => ⟨l, hp.mem_iff.mp hl, hrest⟩
  alive k hk ha := (h.alive k hk ha).imp_right fun ⟨l, hl, hrest⟩ => ⟨l, hp.mem_iff.mp hl, hrest⟩
  steady l hl := h.steady l (hp.mem_iff.mpr hl)

/-- The call that moves, or another one. -/
theorem exists_head {P Q : Caller → Prop} (hl : P l → Q l') (hls : ∀ m, P m → Q m)
    (h : ∃ m ∈ l :: ls, P m) : ∃ m ∈ l' :: ls, Q m := by
  rcases h with ⟨m, hm, hp⟩
  rcases List.mem_cons.mp hm with rfl | hm
  · exact ⟨l', List.mem_cons_self .., hl hp⟩
  · exact ⟨m, List.mem_cons_of_mem _ hm, hls m hp⟩

/-- The holder of the slot's lock is the only one. -/
theorem Locks.holder (h : Locks s (l :: ls)) (hslot : l.slot = true) {P : Caller → Prop}
    (hex : ∃ m ∈ l :: ls, m.slot = true ∧ P m) : P l := by
  rcases hex with ⟨m, hm, hms, hp⟩
  rcases List.mem_cons.mp hm with rfl | hm
  · exact hp
  · rw [((List.pairwise_cons.mp h.apart).1 m hm).slot hslot] at hms
    cases hms

/-- Nobody holds a free lock. -/
theorem Locks.nobody (h : Locks s ls) (hfree : s.locked = false) {P : Caller → Prop} :
    ¬ ∃ m ∈ ls, m.slot = true ∧ P m := by
  rintro ⟨m, hm, hms, _⟩
  rw [(h.owned m hm).slot hms] at hfree
  cases hfree

/-- A call that holds no server's lock. -/
theorem steady_idle (hserver : l.server = none)
    (hcache : l.slot = true → ∀ i, s.cache.server = some i →
      l.subject = some i ∨ l.gaveUp = true ∧ (s.servers i).discarded = true)
    (hsubject : l.slot = true → ∀ i, l.subject = some i → (s.servers i).discarded = false ∧
      (s.cache.server = some i ∨ s.cache.server = none))
    (hover : l.finished = true → l.gaveUp = false) : l.Steady s := by
  have hno : ∀ i, l.server ≠ some i := by
    rw [hserver]
    nofun
  exact ⟨hcache, hsubject, fun _ i hi => absurd hi (hno i), fun _ i hi => absurd hi (hno i), hover⟩

section Answers

variable {β : Type} {op : ServerOp β} {b : β}

/-- Only an ensure call discards a server, one whose lock it holds. -/
theorem discarded_answers (hA : Asserts codec β op l) (h : op.Answers s l b s' l') {i : Nat}
    (hi : i < s.built) : (s'.servers i).discarded = (s.servers i).discarded ∨
      l.slot = true ∧ l.server = some i := by
  have hset : ∀ {j : Nat} {f : Server → Server}, (∀ v, (f v).discarded = v.discarded) →
      ((s.setServer j f).servers i).discarded = (s.servers i).discarded := by
    intro j f hf
    rw [setServer_servers]
    split
    · rename_i hij
      rw [hf, hij]
    · rfl
  cases op with
  | newServer description t =>
      rcases h with ⟨rfl, _⟩
      rw [addServer_servers, if_neg (Nat.ne_of_lt hi)]
      exact .inl rfl
  | unlockInner =>
      rcases hA with ⟨_, _, j', hholds, _⟩
      rcases h with ⟨j, hj, rfl, _⟩
      by_cases hlost : l.givesUp = true ∧ i = j
      · rcases hlost with ⟨hlost, rfl⟩
        have hkind : l.kind = .ensure := of_decide_eq_true (Bool.and_eq_true_iff.mp hlost).1
        exact .inr ⟨(hholds.ensure hkind).1, hj⟩
      · refine .inl ?_
        rw [setServer_servers]
        split
        · rename_i hij
          have hno : l.givesUp = false := by
            cases hg : l.givesUp with
            | false => rfl
            | true => exact absurd ⟨hg, hij⟩ hlost
          rw [leave_servers, if_pos rfl, hno, hij]
          exact Bool.or_false _
        · rename_i hij
          rw [leave_servers, if_neg hij]
  | setCache value =>
      rcases h with ⟨j, _, rfl, _⟩ | ⟨_, rfl, _⟩
      · rw [setServer_servers]
        split
        · rename_i hij
          subst hij
          exact .inl rfl
        · exact .inl rfl
      · exact .inl rfl
  | lockSlot =>
      rcases h with ⟨_, rfl, _⟩
      exact .inl rfl
  | unlockSlot | cache =>
      rcases h with ⟨rfl, _⟩
      exact .inl rfl
  | lockInner j =>
      rcases h with ⟨_, _, rfl, _⟩
      exact .inl (hset fun _ => rfl)
  | setInner | take =>
      rcases h with ⟨j, _, rfl, _⟩
      exact .inl (hset fun _ => rfl)
  | inner | dropChild | startKill =>
      rcases h with ⟨j, _, rfl, _⟩
      exact .inl rfl
  | spawn spec =>
      rcases h with ⟨j, _, ⟨rfl, _⟩ | ⟨rfl, _⟩⟩ <;> exact .inl rfl
  | nextId =>
      rcases h with ⟨j, x, n, _, _, rfl, _⟩
      exact .inl (hset fun _ => rfl)
  | write buffer =>
      rcases h with ⟨j, x, _, _, ⟨n, _, _, rfl, _⟩ | ⟨rfl, _⟩⟩ <;> exact .inl rfl
  | markUsed j t =>
      rcases h with ⟨rfl, _⟩
      exact .inl (hset fun _ => rfl)
  | pending => exact h.elim
  | _ =>
      rcases h with ⟨⟨t, rfl⟩, _⟩
      exact .inl rfl

/-- What is known of another call stays so. -/
theorem Caller.Steady.leave (hm : m.Steady s) (hown : m.Owned s) (hleaves : Leaves s s' l)
    (happart : l.Apart m) (hsound : s.Sound)
    (hdisc : ∀ i < s.built, (s'.servers i).discarded = (s.servers i).discarded ∨
      l.slot = true ∧ l.server = some i) : m.Steady s' := by
  have hslot : m.slot = true → ∀ i < s.built,
      (s'.servers i).discarded = (s.servers i).discarded := by
    intro h i hi
    rcases hdisc i hi with hd | ⟨hl, _⟩
    · exact hd
    · rw [happart.slot hl] at h
      cases h
  have hserver : ∀ i, m.server = some i → (s'.servers i).discarded = (s.servers i).discarded :=
    fun i hi => (hleaves.server i (hown.server i hi).1 (happart.symm.server i hi)).2.1
  refine ⟨fun h i hi => ?_, fun h i hi => ?_, fun hk i hi => ?_, fun hc i hi => ?_, hm.finished⟩
  · rw [(hleaves.slot (happart.symm.slot h)).2.1] at hi
    rw [hslot h i (hsound.cache i hi).1]
    exact hm.cache h i hi
  · rw [(hleaves.slot (happart.symm.slot h)).2.1, hslot h i (hown.subject h i hi).1]
    exact hm.subject h i hi
  · rw [hserver i hi]
    exact hm.spawns hk i hi
  · rw [hserver i hi]
    exact hm.child hc i hi

/-- Nothing the invariant speaks about has changed, but that a lock may be let go. -/
structure Calm (s : Slot) (l : Caller) (s' : Slot) (l' : Caller) : Prop where
  built : s'.built = s.built
  spawned : s'.spawned = s.spawned
  cache : s'.cache = s.cache
  discarded : ∀ i, (s'.servers i).discarded = (s.servers i).discarded
  inner : ∀ i, (s'.servers i).inner.map Inner.child = (s.servers i).inner.map Inner.child
  alive : ∀ k, (s'.children k).alive = (s.children k).alive
  slot : l'.slot = l.slot
  subject : l'.subject = l.subject
  gaveUp : l'.gaveUp = l.gaveUp
  kind : l'.kind = l.kind
  server : ∀ i, l'.server = some i → l.server = some i
  child : l'.child = l.child
  finished : l'.finished = l.finished

theorem Single.calm (h : Single s (l :: ls)) (hothers : ∀ m ∈ ls, m.Steady s')
    (hc : Calm s l s' l') : Single s' (l' :: ls) := by
  have hl := h.steady l (List.mem_cons_self ..)
  refine ⟨fun i hi hd => ?_, fun i hi hd => ?_, fun i hi => ?_, fun k hk ha => ?_, fun m hm => ?_⟩
  · rw [hc.built] at hi
    rw [hc.discarded] at hd
    have hnone := hc.inner i
    rw [h.discarded i hi hd] at hnone
    exact Option.map_eq_none_iff.mp hnone
  · rw [hc.built] at hi
    rw [hc.discarded] at hd
    rw [hc.cache]
    exact (h.kept i hi hd).imp_right (exists_head (by rw [hc.slot, hc.subject]; exact id) fun _ => id)
  · rw [hc.cache] at hi
    rw [hc.discarded]
    exact (h.cached i hi).imp_right (exists_head (by rw [hc.slot, hc.gaveUp]; exact id) fun _ => id)
  · rw [hc.spawned] at hk
    rw [hc.alive] at ha
    rcases h.alive k hk ha with ⟨i, hi, x, hx, hxk⟩ | hheld
    · have hsome := hc.inner i
      rw [hx, Option.map_some, Option.map_eq_some_iff] at hsome
      rcases hsome with ⟨y, hy, hyx⟩
      exact .inl ⟨i, by rw [hc.built]; exact hi, y, hy, hyx.trans hxk⟩
    · exact .inr (exists_head (by rw [hc.child]; exact id) (fun _ => id) hheld)
  · rcases List.mem_cons.mp hm with rfl | hm
    · refine ⟨?_, ?_, ?_, ?_, ?_⟩
      · intro hslot i hi
        rw [hc.cache] at hi
        rw [hc.subject, hc.gaveUp, hc.discarded]
        exact hl.cache (hc.slot ▸ hslot) i hi
      · intro hslot i hi
        rw [hc.subject] at hi
        rw [hc.cache, hc.discarded]
        exact hl.subject (hc.slot ▸ hslot) i hi
      · intro hk i hi
        rw [hc.kind] at hk
        rw [hc.discarded]
        exact hl.spawns hk i (hc.server i hi)
      · intro hk i hi
        rw [hc.child] at hk
        rw [hc.discarded]
        exact hl.child hk i (hc.server i hi)
      · intro ho
        rw [hc.finished] at ho
        rw [hc.gaveUp]
        exact hl.finished ho
    · exact hothers m hm

/-- What the holder of the slot's lock does with the cache. -/
theorem single_slot (hlocks : Locks s (l :: ls)) (h : Single s (l :: ls))
    (hA : Asserts codec β op l) (hans : op.Answers s l b s' l')
    (hop : op matches .lockSlot | .unlockSlot | .cache | .setCache _ | .newServer _ _)
    (hothers : ∀ m ∈ ls, m.Steady s') : Single s' (l' :: ls) := by
  have hl := h.steady l (List.mem_cons_self ..)
  have hown := hlocks.owned l (List.mem_cons_self ..)
  have hall : l'.Steady s' → ∀ m ∈ l' :: ls, m.Steady s' := by
    intro hl' m hm
    rcases List.mem_cons.mp hm with rfl | hm
    · exact hl'
    · exact hothers m hm
  have hchild : l'.child = l.child → ∀ k, (∃ m ∈ l :: ls, m.child = some k) →
      ∃ m ∈ l' :: ls, m.child = some k := fun heq k =>
    exists_head (by rw [heq]; exact id) fun _ => id
  cases op with
  | lockSlot =>
      rcases hans with ⟨hfree, rfl, rfl⟩
      rcases hA with ⟨hrun, _, _, hidle⟩
      have hcached : ∀ i, s.cache.server = some i → (s.servers i).discarded = false :=
        fun i hi => (h.cached i hi).resolve_right (hlocks.nobody hfree)
      refine ⟨h.discarded, fun i hi hd => .inl ((h.kept i hi hd).resolve_right
        (hlocks.nobody hfree)), fun i hi => .inl (hcached i hi), fun k hk ha =>
        (h.alive k hk ha).imp_right (hchild rfl k), hall ?_⟩
      exact steady_idle hidle.server (fun _ i hi => .inl hi)
        (fun _ i hi => ⟨hcached i hi, .inl hi⟩) hl.finished
  | unlockSlot =>
      rcases hans with ⟨rfl, rfl⟩
      rcases hA with ⟨hrun, _, hslot, hkept, hidle, htarget⟩
      refine ⟨h.discarded, fun i hi hd => .inl ?_, fun i hi => .inl ?_, fun k hk ha =>
        (h.alive k hk ha).imp_right (hchild rfl k), hall ?_⟩
      · rcases h.kept i hi hd with hc | hex
        · exact hc
        · have hsub := hlocks.holder hslot hex
          rcases (hown.subject hslot i hsub).2 with hc | hpub
          · exact hc
          · rw [(hown.target i (htarget i hsub)).2] at hpub
            cases hpub
      · rcases h.cached i hi with hd | hex
        · exact hd
        · rw [hlocks.holder hslot hex] at hkept
          cases hkept
      · exact steady_idle hidle.server nofun nofun hl.finished
  | cache =>
      rcases hans with ⟨rfl, rfl⟩
      rcases hA with ⟨hrun, _, hslot, hkept, hidle, htarget⟩
      have hcached : ∀ i, s'.cache.server = some i → (s'.servers i).discarded = false := by
        intro i hi
        rcases h.cached i hi with hd | hex
        · exact hd
        · rw [hlocks.holder hslot hex] at hkept
          cases hkept
      refine ⟨h.discarded, fun i hi hd => .inl ?_, fun i hi => .inl (hcached i hi), fun k hk ha =>
        (h.alive k hk ha).imp_right (hchild rfl k), hall ?_⟩
      · rcases h.kept i hi hd with hc | hex
        · exact hc
        · have hsub := hlocks.holder hslot hex
          rcases (hown.subject hslot i hsub).2 with hc | hpub
          · exact hc
          · rw [(hown.target i (htarget i hsub)).2] at hpub
            cases hpub
      · exact steady_idle hidle.server (fun _ i hi => .inl hi)
          (fun _ i hi => ⟨hcached i hi, .inl hi⟩) hl.finished
  | setCache value =>
      rcases hA with ⟨hrun, _, hslot, hidle, hsubject, hkept⟩
      have hover : l.finished = true → false = false := fun _ => rfl
      rcases hans with ⟨i, hi, rfl, rfl⟩ | ⟨hnone, rfl, rfl⟩
      · have hsub : l.subject = some i := hsubject.trans hi
        have hgave : l.gaveUp = false := hkept (by rw [hi]; nofun)
        have hserver : ∀ j, ((Slot.setServer { s with cache := value } i
            fun v => { v with published := true }).servers j).discarded =
            (s.servers j).discarded ∧ ((Slot.setServer { s with cache := value } i
            fun v => { v with published := true }).servers j).inner = (s.servers j).inner := by
          intro j
          rw [setServer_servers]
          split
          · rename_i hj
            subst hj
            exact ⟨rfl, rfl⟩
          · exact ⟨rfl, rfl⟩
        have hfresh := (hl.subject hslot i hsub).1
        refine ⟨fun j hj hd => ?_, fun j hj hd => .inl ?_, fun j hj => .inl ?_, fun k hk ha => ?_,
          hall ?_⟩
        · rw [(hserver j).1] at hd
          rw [(hserver j).2]
          exact h.discarded j hj hd
        · rw [(hserver j).1] at hd
          have hj' : l.subject = some j := by
            rcases h.kept j hj hd with hc | hex
            · rcases hl.cache hslot j hc with hsame | ⟨hg, _⟩
              · exact hsame
              · rw [hgave] at hg
                cases hg
            · exact hlocks.holder hslot hex
          exact hi.trans (hsub.symm.trans hj')
        · rw [(hserver j).1]
          have hij : i = j := Option.some.inj (hi.symm.trans hj)
          exact hij ▸ hfresh
        · rcases h.alive k hk ha with ⟨j, hj, x, hx, hxk⟩ | hheld
          · exact .inl ⟨j, hj, x, (hserver j).2.trans hx, hxk⟩
          · exact .inr (hchild rfl k hheld)
        · refine steady_idle hidle.server (fun _ j hj => .inl ?_) (fun _ j hj => ?_) hover
          · exact hi.symm.trans hj
          · cases hj
            rw [(hserver i).1]
            exact ⟨hfresh, .inl hi⟩
      · have hsub : l.subject = none := hsubject.trans hnone
        have hgone : ∀ j, value.server ≠ some j := by
          rw [hnone]
          nofun
        refine ⟨h.discarded, fun j hj hd => ?_, fun j hj => absurd hj (hgone j), fun k hk ha =>
          (h.alive k hk ha).imp_right (hchild rfl k), hall ?_⟩
        · rcases h.kept j hj hd with hc | hex
          · rcases hl.cache hslot j hc with hsame | ⟨_, hd'⟩
            · rw [hsub] at hsame
              cases hsame
            · rw [hd] at hd'
              cases hd'
          · rw [hlocks.holder hslot hex] at hsub
            cases hsub
        · exact steady_idle hidle.server (fun _ j hj => absurd hj (hgone j)) nofun hover
  | newServer description t =>
      rcases hA with ⟨hrun, _, hslot, hkept, hsub, hidle⟩
      rcases hans with ⟨rfl, rfl⟩
      have hnothing : ∀ i, s.cache.server ≠ some i := by
        intro i hi
        rcases hl.cache hslot i hi with hsame | ⟨hg, _⟩
        · rw [hsub] at hsame
          cases hsame
        · rw [hkept] at hg
          cases hg
      have hold : ∀ j < s.built, (s.addServer (Server.new description t)).servers j = s.servers j :=
        fun j hj => by rw [addServer_servers, if_neg (Nat.ne_of_lt hj)]
      have hnew : (s.addServer (Server.new description t)).servers s.built =
          Server.new description t := by
        rw [addServer_servers, if_pos rfl]
      refine ⟨fun j hj hd => ?_, fun j hj hd => .inr ?_, fun j hj => absurd hj (hnothing j),
        fun k hk ha => ?_, hall ?_⟩
      · rcases Nat.lt_succ_iff_lt_or_eq.mp hj with hlt | rfl
        · rw [hold j hlt] at hd ⊢
          exact h.discarded j hlt hd
        · rw [hnew]
          rfl
      · rcases Nat.lt_succ_iff_lt_or_eq.mp hj with hlt | rfl
        · rw [hold j hlt] at hd
          rcases h.kept j hlt hd with hc | hex
          · exact absurd hc (hnothing j)
          · rw [hlocks.holder hslot hex] at hsub
            cases hsub
        · exact ⟨_, List.mem_cons_self .., hslot, rfl⟩
      · rcases h.alive k hk ha with ⟨j, hj, x, hx, hxk⟩ | hheld
        · exact .inl ⟨j, Nat.lt_succ_of_lt hj, x, by rw [hold j hj]; exact hx, hxk⟩
        · exact .inr (hchild rfl k hheld)
      · refine steady_idle hidle.server (fun _ j hj => absurd hj (hnothing j)) (fun _ j hj => ?_)
          hl.finished
        cases hj
        rw [hnew]
        refine ⟨rfl, .inr ?_⟩
        cases hc : s.cache.server with
        | none => exact hc
        | some j => exact absurd hc (hnothing j)
  | _ => simp at hop

/-- Letting go of a server's lock, whatever becomes of its frame. -/
theorem calm_leave {i : Nat} :
    Calm s l (s.leave i l.part) { l with server := none, vacant := false, part := [] } where
  built := leave_built
  spawned := leave_spawned
  cache := leave_cache
  discarded j := by
    rw [leave_servers]
    split
    · rename_i hj
      rw [hj]
    · rfl
  inner j := by
    rw [leave_servers]
    split
    · rename_i hj
      rw [hj]
    · rfl
  alive k := by
    rcases @leave_children s i l.part k with ⟨cut, hcut, _⟩
    rw [hcut]
  slot := rfl
  subject := rfl
  gaveUp := rfl
  kind := rfl
  server := nofun
  child := rfl
  finished := rfl

/-- The holder of the slot's lock gives up the server it has in hand, which has no
    child. -/
theorem single_discard (hlocks : Locks s (l :: ls)) (h : Single s (l :: ls)) {i : Nat}
    (hslot : l.slot = true) (hsubject : l.subject = some i) (hserver : l.server = none)
    (hrun : l.finished = false) (hinner : (s.servers i).inner = none)
    (hothers : ∀ m ∈ ls, m.Steady (s.setServer i fun v => { v with discarded := true })) :
    Single (s.setServer i fun v => { v with discarded := true })
      ({ l with gaveUp := true, subject := none } :: ls) := by
  have hl := h.steady l (List.mem_cons_self ..)
  have hcached : ∀ j, s.cache.server = some j → j = i := by
    intro j hj
    rcases (hl.subject hslot i hsubject).2 with hc | hc
    · exact Option.some.inj (hj.symm.trans hc)
    · rw [hj] at hc
      cases hc
  have hgone : ((s.setServer i fun v => { v with discarded := true }).servers i).discarded =
      true := by
    rw [setServer_servers, if_pos rfl]
  have hsame : ∀ j, ((s.setServer i fun v => { v with discarded := true }).servers j).inner =
      (s.servers j).inner := by
    intro j
    rw [setServer_servers]
    split
    · rename_i hj
      rw [hj]
    · rfl
  refine ⟨fun j hj hd => ?_, fun j hj hd => ?_, fun j hj => .inr ?_, fun k hk ha => ?_, ?_⟩
  · rw [hsame]
    by_cases hji : j = i
    · rw [hji, hinner]
    · rw [setServer_servers, if_neg hji] at hd
      exact h.discarded j hj hd
  · have hji : j ≠ i := by
      rintro rfl
      rw [hgone] at hd
      cases hd
    rw [setServer_servers, if_neg hji] at hd
    rcases h.kept j hj hd with hc | hex
    · exact absurd (hcached j hc) hji
    · have hsub := hlocks.holder hslot hex
      rw [hsubject] at hsub
      exact absurd (Option.some.inj hsub).symm hji
  · exact ⟨_, List.mem_cons_self .., hslot, rfl⟩
  · rcases h.alive k hk ha with ⟨j, hj, x, hx, hxk⟩ | hheld
    · exact .inl ⟨j, hj, x, (hsame j).trans hx, hxk⟩
    · exact .inr (exists_head id (fun _ => id) hheld)
  · intro m hm
    rcases List.mem_cons.mp hm with rfl | hm
    · refine steady_idle hserver (fun _ j hj => .inr ⟨rfl, ?_⟩) nofun ?_
      · rw [hcached j hj]
        exact hgone
      · rw [hrun]
        nofun
    · exact hothers m hm

/-- What a call does with the child of the server whose lock it holds. -/
theorem single_child (hlocks : Locks s (l :: ls)) (h : Single s (l :: ls))
    (hA : Asserts codec β op l) (hans : op.Answers s l b s' l')
    (hop : op matches .setInner _ | .take | .spawn _ | .dropChild | .startKill)
    (hothers : ∀ m ∈ ls, m.Steady s') : Single s' (l' :: ls) := by
  have hl := h.steady l (List.mem_cons_self ..)
  have hown := hlocks.owned l (List.mem_cons_self ..)
  have hall : l'.Steady s' → ∀ m ∈ l' :: ls, m.Steady s' := by
    intro hl' m hm
    rcases List.mem_cons.mp hm with rfl | hm
    · exact hl'
    · exact hothers m hm
  have hsubject : l'.slot = l.slot → l'.subject = l.subject → ∀ i,
      (∃ m ∈ l :: ls, m.slot = true ∧ m.subject = some i) →
      ∃ m ∈ l' :: ls, m.slot = true ∧ m.subject = some i := fun hslot hsub i =>
    exists_head (by rw [hslot, hsub]; exact id) fun _ => id
  have hgave : l'.slot = l.slot → l'.gaveUp = l.gaveUp →
      (∃ m ∈ l :: ls, m.slot = true ∧ m.gaveUp = true) →
      ∃ m ∈ l' :: ls, m.slot = true ∧ m.gaveUp = true := fun hslot hg =>
    exists_head (by rw [hslot, hg]; exact id) fun _ => id
  have hset : ∀ {i : Nat} {f : Server → Server}, (∀ v, (f v).discarded = v.discarded) → ∀ j,
      ((s.setServer i f).servers j).discarded = (s.servers j).discarded := by
    intro i f hf j
    rw [setServer_servers]
    split
    · rename_i hj
      rw [hf, hj]
    · rfl
  cases op with
  | setInner value =>
      rcases hA with ⟨hrun, _, i', hholds, hchild, _, _, hkind⟩
      rcases hans with ⟨i, hi, rfl, rfl⟩
      have hdisc := @hset i (fun v => { v with inner := some value }) fun _ => rfl
      have hfresh := hl.spawns hkind i hi
      have hmine : ((s.setServer i fun v => { v with inner := some value }).servers i).inner =
          some value := by
        rw [setServer_servers, if_pos rfl]
      refine ⟨fun j hj hd => ?_, fun j hj hd => ?_, fun j hj => ?_, fun k hk ha => ?_, hall ?_⟩
      · rw [hdisc] at hd
        have hji : j ≠ i := by
          rintro rfl
          rw [hfresh] at hd
          cases hd
        rw [setServer_servers, if_neg hji]
        exact h.discarded j hj hd
      · rw [hdisc] at hd
        exact (h.kept j hj hd).imp_right (hsubject rfl rfl j)
      · rw [hdisc]
        exact (h.cached j hj).imp_right (hgave rfl rfl)
      · rcases h.alive k hk ha with ⟨j, hj, x, hx, hxk⟩ | ⟨m, hm, hmk⟩
        · have hji : j ≠ i := by
            rintro rfl
            rcases hown.child _ hchild with ⟨j', hj', hnone, _⟩
            rw [hi] at hj'
            cases hj'
            rw [hnone] at hx
            cases hx
          exact .inl ⟨j, hj, x, by rw [setServer_servers, if_neg hji]; exact hx, hxk⟩
        · rcases List.mem_cons.mp hm with rfl | hm
          · rw [hchild] at hmk
            exact .inl ⟨i, (hown.server i hi).1, value, hmine, Option.some.inj hmk⟩
          · exact .inr ⟨m, List.mem_cons_of_mem _ hm, hmk⟩
      · refine ⟨fun hslot j hj => ?_, fun hslot j hj => ?_, fun hk j hj => ?_,
          fun hc => absurd rfl hc, hl.finished⟩
        · rw [hdisc]
          exact hl.cache hslot j hj
        · rw [hdisc]
          exact hl.subject hslot j hj
        · rw [hdisc]
          exact hl.spawns hk j hj
  | take =>
      rcases hA with ⟨hrun, _, i', hholds, hchild, _⟩
      rcases hans with ⟨i, hi, rfl, rfl⟩
      have hdisc := @hset i (fun v => { v with inner := none }) fun _ => rfl
      refine ⟨fun j hj hd => ?_, fun j hj hd => ?_, fun j hj => ?_, fun k hk ha => ?_, hall ?_⟩
      · rw [hdisc] at hd
        rw [setServer_servers]
        split
        · rfl
        · exact h.discarded j hj hd
      · rw [hdisc] at hd
        exact (h.kept j hj hd).imp_right (hsubject rfl rfl j)
      · rw [hdisc]
        exact (h.cached j hj).imp_right (hgave rfl rfl)
      · rcases h.alive k hk ha with ⟨j, hj, x, hx, hxk⟩ | ⟨m, hm, hmk⟩
        · by_cases hji : j = i
          · subst hji
            exact .inr ⟨_, List.mem_cons_self .., by rw [hx, ← hxk]; rfl⟩
          · exact .inl ⟨j, hj, x, by rw [setServer_servers, if_neg hji]; exact hx, hxk⟩
        · rcases List.mem_cons.mp hm with rfl | hm
          · rw [hchild] at hmk
            cases hmk
          · exact .inr ⟨m, List.mem_cons_of_mem _ hm, hmk⟩
      · refine ⟨fun hslot j hj => ?_, fun hslot j hj => ?_, fun hk j hj => ?_, fun hc j hj => ?_,
          hl.finished⟩
        · rw [hdisc]
          exact hl.cache hslot j hj
        · rw [hdisc]
          exact hl.subject hslot j hj
        · rw [hdisc]
          exact hl.spawns hk j hj
        · have hij : j = i := Option.some.inj (Eq.symm (hi.symm.trans hj))
          subst hij
          rw [hdisc]
          cases hd : (s.servers j).discarded with
          | false => rfl
          | true =>
              refine absurd ?_ hc
              rw [h.discarded j (hown.server j hi).1 hd]
              rfl
  | spawn spec =>
      rcases hA with ⟨hrun, _, i', hholds, hchild, _, hvacant, hkind⟩
      rcases hans with ⟨i, hi, ⟨rfl, rfl⟩ | ⟨rfl, rfl⟩⟩
      · refine ⟨h.discarded, fun j hj hd => (h.kept j hj hd).imp_right (hsubject rfl rfl j),
          fun j hj => (h.cached j hj).imp_right (hgave rfl rfl), fun k hk ha => ?_, hall ?_⟩
        · by_cases hks : k = s.spawned
          · exact .inr ⟨_, List.mem_cons_self .., by rw [hks]⟩
          · rw [addChild_spawned] at hk
            rw [addChild_children, if_neg hks] at ha
            rcases h.alive k (by omega) ha with hin | ⟨m, hm, hmk⟩
            · exact .inl hin
            · rcases List.mem_cons.mp hm with rfl | hm
              · rw [hchild] at hmk
                cases hmk
              · exact .inr ⟨m, List.mem_cons_of_mem _ hm, hmk⟩
        · exact { hl with child := fun _ j hj => hl.spawns hkind j hj }
      · exact h
  | dropChild | startKill =>
      rcases hans with ⟨k, hk, rfl, rfl⟩
      refine ⟨h.discarded, fun j hj hd => (h.kept j hj hd).imp_right (hsubject rfl rfl j),
        fun j hj => (h.cached j hj).imp_right (hgave rfl rfl), fun k' hk' ha => ?_, hall ?_⟩
      · have hne : k' ≠ k := by
          rintro rfl
          rw [Slot.kill, setChild_children, if_pos rfl] at ha
          cases ha
        rw [Slot.kill, setChild_children, if_neg hne] at ha
        rcases h.alive k' hk' ha with hin | ⟨m, hm, hmk⟩
        · exact .inl hin
        · rcases List.mem_cons.mp hm with rfl | hm
          · rw [hk] at hmk
            exact absurd (Option.some.inj hmk).symm hne
          · exact .inr ⟨m, List.mem_cons_of_mem _ hm, hmk⟩
      · exact { hl with child := fun hc => absurd rfl hc }
  | _ => simp at hop

/-- Taking the lock of a server. A start or a request does not take that of a
    discarded one. -/
theorem single_lockInner {i : Nat} (h : Single s (l :: ls)) (hfree : l.Free i)
    (hlim : l.kind = .start ∨ l.kind = .request → (s.servers i).discarded = false)
    (hothers : ∀ m ∈ ls, m.Steady (s.setServer i fun v => { v with locked := true })) :
    Single (s.setServer i fun v => { v with locked := true })
      ({ l with server := some i, vacant := false } :: ls) := by
  have hl := h.steady l (List.mem_cons_self ..)
  have hsame : ∀ j, ((s.setServer i fun v => { v with locked := true }).servers j).discarded =
        (s.servers j).discarded ∧
      ((s.setServer i fun v => { v with locked := true }).servers j).inner =
        (s.servers j).inner := by
    intro j
    rw [setServer_servers]
    split
    · rename_i hj
      rw [hj]
      exact ⟨rfl, rfl⟩
    · exact ⟨rfl, rfl⟩
  refine ⟨fun j hj hd => ?_, fun j hj hd => ?_, fun j hj => ?_, fun k hk ha => ?_, fun m hm => ?_⟩
  · rw [(hsame j).1] at hd
    exact (hsame j).2.trans (h.discarded j hj hd)
  · rw [(hsame j).1] at hd
    exact (h.kept j hj hd).imp_right (exists_head id fun _ => id)
  · rw [(hsame j).1]
    exact (h.cached j hj).imp_right (exists_head id fun _ => id)
  · rcases h.alive k hk ha with ⟨j, hj, x, hx, hxk⟩ | hheld
    · exact .inl ⟨j, hj, x, (hsame j).2.trans hx, hxk⟩
    · exact .inr (exists_head id (fun _ => id) hheld)
  · rcases List.mem_cons.mp hm with rfl | hm
    · refine ⟨fun hslot j hj => ?_, fun hslot j hj => ?_, fun hkind j hj => ?_,
        fun hc => absurd hfree.child hc, hl.finished⟩
      · rw [(hsame j).1]
        exact hl.cache hslot j hj
      · rw [(hsame j).1]
        exact hl.subject hslot j hj
      · cases hj
        rw [(hsame i).1]
        cases hk : l.kind with
        | ensure =>
            rcases hfree.ensure hk with ⟨hslot, hsub⟩
            exact (hl.subject hslot i hsub).1
        | start => exact hlim (.inl hk)
        | request => exact hlim (.inr hk)
        | other => exact absurd hk hkind
    · exact hothers m hm

/-- Letting go of it. -/
theorem single_unlockInner (hlocks : Locks s (l :: ls)) (h : Single s (l :: ls))
    (hA : Asserts codec _ .unlockInner l) (hans : ServerOp.unlockInner.Answers s l () s' l')
    (hothers : ∀ m ∈ ls, m.Steady s') : Single s' (l' :: ls) := by
  have hown := hlocks.owned l (List.mem_cons_self ..)
  rcases hA with ⟨hrun, _, i', hholds, hchild⟩
  rcases hans with ⟨i, hi, rfl, rfl⟩
  have hii : i' = i := Option.some.inj (hholds.server.symm.trans hi)
  subst hii
  -- The lock goes first, the server after it.
  have hleaves := @leaves_leave s l i' l.part hlocks.sound (hown.server i' hi).1 hi
  have hothers' : ∀ m ∈ ls, m.Steady (s.leave i' l.part) := fun m hm =>
    (h.steady m (List.mem_cons_of_mem _ hm)).leave (hlocks.owned m (List.mem_cons_of_mem _ hm))
      hleaves ((List.pairwise_cons.mp hlocks.apart).1 m hm) hlocks.sound
      fun j _ => .inl (calm_leave (l := l).discarded j)
  have hleft := h.calm hothers' calm_leave
  have hset : ∀ (t : Slot) (f g : Server → Server), (∀ v, f v = g v) →
      t.setServer i' f = t.setServer i' g := fun t f g hfg => by rw [funext hfg]
  cases hg : l.givesUp with
  | false =>
      have hl' : l.unlocked = { l with server := none, vacant := false, part := [] } := by
        rw [Caller.unlocked, hg, Bool.or_false]
        rfl
      have hs' : ((s.leave i' l.part).setServer i' fun v =>
          { v with discarded := v.discarded || false }) = s.leave i' l.part := by
        rw [hset _ _ id fun v => by rw [Bool.or_false]; rfl, Slot.setServer]
        simp only [id, Function.update_eq_self]
      rw [hl', hs']
      exact hleft
  | true =>
      have hkind : l.kind = .ensure := of_decide_eq_true (Bool.and_eq_true_iff.mp hg).1
      have hvacant : l.vacant = true := (Bool.and_eq_true_iff.mp hg).2
      rcases hholds.ensure hkind with ⟨hslot, hsubject⟩
      have hl' : l.unlocked =
          { l with server := none, vacant := false, part := [], gaveUp := true
                   subject := none } := by
        rw [Caller.unlocked, hg, Bool.or_true]
        rfl
      have hs' : ((s.leave i' l.part).setServer i' fun v =>
          { v with discarded := v.discarded || true }) =
          (s.leave i' l.part).setServer i' fun v => { v with discarded := true } :=
        hset _ _ _ fun v => by rw [Bool.or_true]
      rw [hg, hs'] at hothers
      rw [hl', hs']
      have hlocks' := locks_leave hlocks hchild hi
      refine single_discard hlocks' hleft hslot hsubject rfl hrun ?_ hothers
      rw [leave_servers, if_pos rfl]
      exact hown.vacant i' hi hvacant

/-- Calls are made on servers that were handed out. -/
def handedOut : Concurrent.Limits ServerOp Slot Caller (Call V T) ServerChoice where
  calls _ ls call := ∀ i, call.server = some i → ∃ l ∈ ls, l.handed = some i
  drops _ _ _ _ := True
  performs _ _ _ _ _ := True

/-- In addition, no start or request takes the lock of a server that was
    discarded. -/
def stayWithCached : Concurrent.Limits ServerOp Slot Caller (Call V T) ServerChoice :=
  { (handedOut : Concurrent.Limits ServerOp Slot Caller (Call V T) ServerChoice) with
    performs := fun _ op s l _ =>
      match op with
      | .lockInner i => l.kind = .start ∨ l.kind = .request → (s.servers i).discarded = false
      | _ => True }

theorem single_answers {c : ServerChoice} (hlocks : Locks s (l :: ls)) (h : Single s (l :: ls))
    (hlim : (stayWithCached (V := V) (T := T)).performs β op s l c) (hA : Asserts codec β op l)
    (hans : op.Answers s l b s' l') : Single s' (l' :: ls) := by
  have hown := hlocks.owned l (List.mem_cons_self ..)
  have hleaves := leaves_of_answers hlocks.sound (fun i hi => (hown.server i hi).1) hA hans
  have hothers : ∀ m ∈ ls, m.Steady s' := fun m hm =>
    (h.steady m (List.mem_cons_of_mem _ hm)).leave (hlocks.owned m (List.mem_cons_of_mem _ hm))
      hleaves ((List.pairwise_cons.mp hlocks.apart).1 m hm) hlocks.sound
      fun i hi => discarded_answers hA hans hi
  have hserver : ∀ {i : Nat} {f : Server → Server}, (∀ v, (f v).discarded = v.discarded) →
      ((f (s.servers i)).inner.map Inner.child = (s.servers i).inner.map Inner.child) →
      Calm s l (s.setServer i f) l := by
    intro i f hf hinner
    refine ⟨rfl, rfl, rfl, fun j => ?_, fun j => ?_, fun _ => rfl, rfl, rfl, rfl, rfl,
      fun _ => id, rfl, rfl⟩
    · rw [setServer_servers]
      split
      · rename_i hj
        rw [hf, hj]
      · rfl
    · rw [setServer_servers]
      split
      · rename_i hj
        rw [hinner, hj]
      · rfl
  cases op with
  | lockSlot | unlockSlot | cache | setCache | newServer =>
      exact single_slot hlocks h hA hans rfl hothers
  | setInner | take | spawn | dropChild | startKill =>
      exact single_child hlocks h hA hans rfl hothers
  | lockInner i =>
      rcases hans with ⟨_, _, rfl, rfl⟩
      exact single_lockInner h hA.2.2 hlim hothers
  | unlockInner => exact single_unlockInner hlocks h hA hans hothers
  | inner =>
      rcases hans with ⟨i, hi, rfl, rfl⟩
      exact h.calm hothers ⟨rfl, rfl, rfl, fun _ => rfl, fun _ => rfl, fun _ => rfl, rfl, rfl, rfl,
        rfl, fun _ => id, rfl, rfl⟩
  | nextId =>
      rcases hans with ⟨i, x, n, hi, hx, rfl, rfl⟩
      exact h.calm hothers (hserver (fun _ => rfl) (by rw [hx]; rfl))
  | write buffer =>
      rcases hans with ⟨i, x, hi, hx, ⟨n, _, _, rfl, rfl⟩ | ⟨rfl, rfl⟩⟩
      · refine h.calm hothers ⟨rfl, rfl, rfl, fun _ => rfl, fun _ => rfl, fun k => ?_, rfl, rfl, rfl,
          rfl, fun _ => id, rfl, rfl⟩
        rw [setChild_children]
        split
        · rename_i hk
          rw [hk]
        · rfl
      · exact h
  | markUsed i t =>
      rcases hans with ⟨rfl, rfl⟩
      exact h.calm hothers (hserver (fun _ => rfl) rfl)
  | pending => exact hans.elim
  | _ =>
      rcases hans with ⟨⟨t, rfl⟩, rfl⟩
      exact h.calm hothers ⟨rfl, rfl, rfl, fun _ => rfl, fun _ => rfl, fun _ => rfl, rfl, rfl, rfl,
        rfl, fun _ => id, rfl, rfl⟩

end Answers

/-! ## The other steps -/

theorem single_call (h : Single s ls) (call : Call V T) : Single s (call.fresh :: ls) := by
  have hfresh := fresh_fresh call
  refine ⟨h.discarded,
    fun i hi hd => (h.kept i hi hd).imp_right fun ⟨m, hm, hp⟩ => ⟨m, List.mem_cons_of_mem _ hm, hp⟩,
    fun i hi => (h.cached i hi).imp_right fun ⟨m, hm, hp⟩ => ⟨m, List.mem_cons_of_mem _ hm, hp⟩,
    fun k hk ha => (h.alive k hk ha).imp_right fun ⟨m, hm, hp⟩ => ⟨m, List.mem_cons_of_mem _ hm, hp⟩,
    fun m hm => ?_⟩
  rcases List.mem_cons.mp hm with rfl | hm
  · refine steady_idle hfresh.server ?_ ?_ fun _ => hfresh.kept
    · rw [hfresh.slot]
      nofun
    · rw [hfresh.slot]
      nofun
  · exact h.steady m hm

/-- A call ends where it has not just given up a server. -/
theorem single_ended (h : Single s (l :: ls)) (hkept : l.gaveUp = false) (handed : Option Nat) :
    Single s ({ l with finished := true, handed := handed } :: ls) := by
  refine ⟨h.discarded, fun i hi hd => (h.kept i hi hd).imp_right (exists_head id fun _ => id),
    fun i hi => (h.cached i hi).imp_right (exists_head id fun _ => id),
    fun k hk ha => (h.alive k hk ha).imp_right (exists_head id fun _ => id), fun m hm => ?_⟩
  rcases List.mem_cons.mp hm with rfl | hm
  · exact { (h.steady l (List.mem_cons_self ..)) with finished := fun _ => hkept }
  · exact h.steady m (List.mem_cons_of_mem _ hm)

theorem single_release (hlocks : Locks s (l :: ls)) (h : Single s (l :: ls))
    (hr : Caller.release (s, l) = some (s', l')) : Single s' (l' :: ls) := by
  have hl := h.steady l (List.mem_cons_self ..)
  have hown := hlocks.owned l (List.mem_cons_self ..)
  have happart := (List.pairwise_cons.mp hlocks.apart).1
  rcases Caller.release_cases hr with ⟨hover, ⟨k, hchild, rfl, rfl⟩ | ⟨hchild, i, hi, rfl, rfl⟩ |
    ⟨hchild, hserver, hslot, rfl, hcases⟩⟩
  · refine ⟨h.discarded, fun j hj hd => (h.kept j hj hd).imp_right (exists_head id fun _ => id),
      fun j hj => (h.cached j hj).imp_right (exists_head id fun _ => id), fun k' hk' ha => ?_,
      fun m hm => ?_⟩
    · have hne : k' ≠ k := by
        rintro rfl
        rw [Slot.kill, setChild_children, if_pos rfl] at ha
        cases ha
      rw [Slot.kill, setChild_children, if_neg hne] at ha
      rcases h.alive k' hk' ha with hin | ⟨m, hm, hmk⟩
      · exact .inl hin
      · rcases List.mem_cons.mp hm with rfl | hm
        · rw [hchild] at hmk
          exact absurd (Option.some.inj hmk).symm hne
        · exact .inr ⟨m, List.mem_cons_of_mem _ hm, hmk⟩
    · rcases List.mem_cons.mp hm with rfl | hm
      · exact { hl with child := fun hc => absurd rfl hc }
      · exact { (h.steady m (List.mem_cons_of_mem _ hm)) with }
  · have hleaves := @leaves_leave s l i l.part hlocks.sound (hown.server i hi).1 hi
    refine h.calm (fun m hm => ?_) calm_leave
    exact (h.steady m (List.mem_cons_of_mem _ hm)).leave
      (hlocks.owned m (List.mem_cons_of_mem _ hm)) hleaves (happart m hm) hlocks.sound
      fun j _ => .inl (calm_leave (l := l).discarded j)
  · have hkept := hl.finished hover
    have hcached : ∀ i, s.cache.server = some i → (s.servers i).discarded = false := by
      intro i hi
      rcases h.cached i hi with hd | hex
      · exact hd
      · rw [hlocks.holder hslot hex] at hkept
        cases hkept
    rcases hcases with ⟨hsubject, rfl⟩ | ⟨i, hi, hne, rfl⟩
    · refine ⟨h.discarded, fun j hj hd => .inl ?_, fun j hj => .inl (hcached j hj),
        fun k hk ha => (h.alive k hk ha).imp_right (exists_head id fun _ => id), fun m hm => ?_⟩
      · rcases h.kept j hj hd with hc | hex
        · exact hc
        · exact hsubject j (hlocks.holder hslot hex)
      · rcases List.mem_cons.mp hm with rfl | hm
        · exact steady_idle hserver (fun hs => by cases hs) (fun hs => by cases hs)
            fun _ => hkept
        · exact { (h.steady m (List.mem_cons_of_mem _ hm)) with }
    · have hold : ∀ j, j ≠ i →
          (Slot.dropServer { s with locked := false } i).servers j = s.servers j :=
        fun j hj => by rw [dropServer_servers, if_neg hj]
      have hgone : ((Slot.dropServer { s with locked := false } i).servers i).inner = none ∧
          ((Slot.dropServer { s with locked := false } i).servers i).discarded = true := by
        rw [dropServer_servers, if_pos rfl]
        exact ⟨rfl, rfl⟩
      have hunknown := hlocks.unknown hslot hserver hi hne
      refine ⟨fun j hj hd => ?_, fun j hj hd => .inl ?_, fun j hj => .inl ?_, fun k hk ha => ?_,
        fun m hm => ?_⟩
      · by_cases hji : j = i
        · rw [hji]
          exact hgone.1
        · rw [hold j hji] at hd ⊢
          exact h.discarded j (by rw [dropServer_built] at hj; exact hj) hd
      · have hji : j ≠ i := by
          rintro rfl
          rw [hgone.2] at hd
          cases hd
        rw [hold j hji] at hd
        rw [dropServer_cache]
        rcases h.kept j (by rw [dropServer_built] at hj; exact hj) hd with hc | hex
        · exact hc
        · exact absurd (Option.some.inj (hi.symm.trans (hlocks.holder hslot hex))).symm hji
      · rw [dropServer_cache] at hj
        rw [hold j fun hji => hne (hji ▸ hj)]
        exact hcached j hj
      · rcases @dropServer_children { s with locked := false } i k with ⟨alive, heq, halive⟩
        rw [heq] at ha
        rcases halive ha with ⟨ha', hother⟩
        rcases h.alive k (by rw [dropServer_spawned] at hk; exact hk) ha' with
          ⟨j, hj, x, hx, hxk⟩ | hheld
        · have hji : j ≠ i := fun hji => hother x (hji ▸ hx) hxk
          exact .inl ⟨j, by rw [dropServer_built]; exact hj, x, by rw [hold j hji]; exact hx, hxk⟩
        · exact .inr (exists_head id (fun _ => id) hheld)
      · rcases List.mem_cons.mp hm with rfl | hm
        · exact steady_idle hserver (fun hs => by cases hs) (fun hs => by cases hs)
            fun _ => hkept
        · have hms := h.steady m (List.mem_cons_of_mem _ hm)
          have hslot' : m.slot ≠ true := by
            rw [(happart m hm).slot hslot]
            exact fun hf => by cases hf
          have hother : ∀ j, m.server = some j → j ≠ i := fun j hj hji =>
            hunknown m (List.mem_cons_of_mem _ hm) (hji ▸ hj)
          refine ⟨fun hs => absurd hs hslot', fun hs => absurd hs hslot', fun hk j hj => ?_,
            fun hc j hj => ?_, hms.finished⟩
          · rw [hold j (hother j hj)]
            exact hms.spawns hk j hj
          · rw [hold j (hother j hj)]
            exact hms.child hc j hj

theorem single_env {c : ServerChoice} (h : Single s ls) (hs : s.env c = some s') :
    Single s' ls := by
  have hset : ∀ {k : Nat} {g : Child → Child}, (∀ c, (g c).alive = true → c.alive = true) →
      Single (s.setChild k g) ls := by
    intro k g hg
    refine ⟨h.discarded, h.kept, h.cached, fun j hj ha => h.alive j hj ?_, fun m hm =>
      { (h.steady m hm) with }⟩
    rw [setChild_children] at ha
    split at ha
    · rename_i hjk
      rw [hjk]
      exact hg _ ha
    · exact ha
  cases c with
  | exited k =>
      cases hs
      exact hset fun _ ha => by cases ha
  | closed k =>
      cases hs
      exact hset fun _ ha => ha
  | _ => cases hs

/-! ## The result -/

/-- The server of a live child has not been discarded. -/
theorem alive_kept (hlocks : Locks s ls) (h : Single s ls) {k : Nat} (hk : k < s.spawned)
    (ha : (s.children k).alive = true) : (s.children k).server < s.built ∧
      (s.servers (s.children k).server).discarded = false := by
  rcases h.alive k hk ha with ⟨i, hi, x, hx, rfl⟩ | ⟨m, hm, hmk⟩
  · rw [(hlocks.sound.inner i hi x hx).2]
    refine ⟨hi, ?_⟩
    cases hd : (s.servers i).discarded with
    | false => rfl
    | true =>
        rw [h.discarded i hi hd] at hx
        cases hx
  · rcases (hlocks.owned m hm).child k hmk with ⟨i, hi, _, hserver, _⟩
    rw [hserver]
    refine ⟨((hlocks.owned m hm).server i hi).1, (h.steady m hm).child ?_ i hi⟩
    rw [hmk]
    nofun

/-- Two live children of one server are the same. -/
theorem alive_unique (hlocks : Locks s ls) (h : Single s ls) {j k : Nat} (hj : j < s.spawned)
    (hk : k < s.spawned) (haj : (s.children j).alive = true) (hak : (s.children k).alive = true)
    (hserver : (s.children j).server = (s.children k).server) : j = k := by
  have hmixed : ∀ {i k : Nat} {x : Inner}, i < s.built → (s.servers i).inner = some x →
      (∃ m ∈ ls, m.child = some k) → (s.children x.child).server = (s.children k).server → False := by
    rintro i k x hi hx ⟨m, hm, hmk⟩ hsame
    rcases (hlocks.owned m hm).child k hmk with ⟨i', hi', hnone, hserver', _⟩
    rw [(hlocks.sound.inner i hi x hx).2, hserver'] at hsame
    rw [hsame, hnone] at hx
    cases hx
  rcases h.alive j hj haj with ⟨i, hi, x, hx, rfl⟩ | hej <;>
    rcases h.alive k hk hak with ⟨i', hi', x', hx', rfl⟩ | hek
  · rw [(hlocks.sound.inner i hi x hx).2, (hlocks.sound.inner i' hi' x' hx').2] at hserver
    rw [hserver, hx'] at hx
    rw [Option.some.inj hx]
  · exact (hmixed hi hx hek hserver).elim
  · exact (hmixed hi' hx' hej hserver.symm).elim
  · rcases hej with ⟨m, hm, hmj⟩
    rcases hek with ⟨m', hm', hmk⟩
    rcases (hlocks.owned m hm).child j hmj with ⟨i, hi, _, hsj, _⟩
    rcases (hlocks.owned m' hm').child k hmk with ⟨i', hi', _, hsk, _⟩
    rw [hsj, hsk] at hserver
    subst hserver
    have hlocks' : Locks s (m :: ls.erase m) := hlocks.perm (List.perm_cons_erase hm)
    rcases List.mem_cons.mp ((List.perm_cons_erase hm).mem_iff.mp hm') with rfl | hrest
    · exact Option.some.inj (hmj.symm.trans hmk)
    · exact absurd hi' (((List.pairwise_cons.mp hlocks'.apart).1 m' hrest).server i hi)

/-- At most one server has not been discarded. -/
theorem kept_unique (hlocks : Locks s ls) (h : Single s ls) {i j : Nat} (hi : i < s.built)
    (hj : j < s.built) (hdi : (s.servers i).discarded = false)
    (hdj : (s.servers j).discarded = false) : i = j := by
  have hmixed : ∀ {i j : Nat}, s.cache.server = some i →
      (∃ l ∈ ls, l.slot = true ∧ l.subject = some j) → i = j := by
    rintro i j hc ⟨l, hl, hslot, hsub⟩
    rcases ((h.steady l hl).subject hslot j hsub).2 with hc' | hc'
    · exact Option.some.inj (hc.symm.trans hc')
    · rw [hc] at hc'
      cases hc'
  rcases h.kept i hi hdi with hci | hei <;> rcases h.kept j hj hdj with hcj | hej
  · exact Option.some.inj (hci.symm.trans hcj)
  · exact hmixed hci hej
  · exact (hmixed hcj hei).symm
  · rcases hei with ⟨l, hl, hslot, hsub⟩
    have hlocks' : Locks s (l :: ls.erase l) := hlocks.perm (List.perm_cons_erase hl)
    have hsub' := hlocks'.holder hslot (P := fun m => m.subject = some j) (by
      rcases hej with ⟨m, hm, hmj⟩
      exact ⟨m, (List.perm_cons_erase hl).mem_iff.mp hm, hmj⟩)
    exact Option.some.inj (hsub.symm.trans hsub')

theorem joint_single (codec : ServerCodec V) :
    Concurrent.Joint (calls (T := T) codec) stayWithCached
      (fun p l => p.wp (calls (T := T) codec).localised (Asserts codec) Done l)
      (fun s ls => Locks s ls ∧ Single s ls) := by
  refine Concurrent.Joint.of_wp ?_ ?_ ?_ ?_ ?_ ?_ ?_ ?_
  · exact fun call _ _ _ => main_spec codec call
  · exact fun s ls ls' hp h => ⟨h.1.perm hp, h.2.perm hp⟩
  · refine fun s ls call hcall h => ⟨locks_call h.1 call fun i hi => ?_, single_call h.2 call⟩
    rcases hcall i hi with ⟨l, hl, hhanded⟩
    exact (h.1.owned l hl).handed i hhanded
  · intro β op s l ls c b s' l' hlim hA h hr
    have hans := ServerOp.answers_of_respond hr
    exact ⟨locks_answers h.1 hA hans, single_answers h.1 h.2 hlim hA hans⟩
  · rintro r s l ls ⟨hfresh, hhanded⟩ h
    exact ⟨locks_ended h.1 _ hhanded, single_ended h.2 hfresh.kept _⟩
  · intro β op k s l ls hsuspends _ hwp h
    exact ⟨nofun, locks_ended h.1 none nofun,
      single_ended h.2 (hwp.1.2.1 hsuspends) none⟩
  · exact fun s l ls s' l' h hr => ⟨locks_release h.1 hr, single_release h.1 h.2 hr⟩
  · exact fun s ls c s' h hs => ⟨locks_env h.1 hs, single_env h.2 hs⟩

/-- The state of the slot and of the calls on it. -/
abbrev SlotState (T : Type) :=
  Concurrent.Config ServerOp Slot Caller (Reply T)

/-- At most one child is alive. It belongs to the cached server, or to the server
    the holder of the slot's lock is building, and then there is none in the cache. -/
theorem one_worker (codec : ServerCodec V) {g : SlotState T}
    (h : Transition.Reachable
      ((calls (V := V) codec).system stayWithCached fun s => s = Slot.new) g) :
    (∀ j < g.shared.spawned, ∀ k < g.shared.spawned, (g.shared.children j).alive = true →
      (g.shared.children k).alive = true → j = k) ∧
    ∀ k < g.shared.spawned, (g.shared.children k).alive = true →
      g.shared.cache = .ready (g.shared.children k).server ∨
      g.shared.cache.server = none ∧ ∃ l ∈ g.locals, l.slot = true ∧
        l.subject = some (g.shared.children k).server := by
  have hinit : ∀ s, s = Slot.new → Locks s [] ∧ Single s [] := by
    rintro _ rfl
    exact ⟨⟨⟨nofun, nofun⟩, nofun, .nil⟩, ⟨nofun, nofun, nofun, nofun, nofun⟩⟩
  rcases ((joint_single codec).reachable hinit h).2 with ⟨hlocks, hsingle⟩
  refine ⟨fun j hj k hk haj hak => ?_, fun k hk ha => ?_⟩
  · rcases alive_kept hlocks hsingle hj haj with ⟨hbj, hdj⟩
    rcases alive_kept hlocks hsingle hk hak with ⟨hbk, hdk⟩
    exact alive_unique hlocks hsingle hj hk haj hak (kept_unique hlocks hsingle hbj hbk hdj hdk)
  · rcases alive_kept hlocks hsingle hk ha with ⟨hb, hd⟩
    have hready : ∀ {c : Cache} {i : Nat}, c.server = some i → c = .ready i := by
      rintro c i hc
      cases c with
      | ready j => exact congrArg _ (Option.some.inj hc)
      | empty | failed => cases hc
    rcases hsingle.kept _ hb hd with hc | ⟨l, hl, hslot, hsub⟩
    · exact .inl (hready hc)
    · rcases ((hsingle.steady l hl).subject hslot _ hsub).2 with hc | hc
      · exact .inl (hready hc)
      · exact .inr ⟨hc, l, hl, hslot, hsub⟩

/-! ### Two runs -/

/-- A codec whose every first line is a good ready line. -/
def readyCodec : ServerCodec Unit where
  encode _ := .ok [1]
  decodeResponse _ := none
  decodeReady _ := .ok { ready := true, protocol := some PROTOCOL_VERSION, backends := []
                         error := none }
  null := ()

/-- A launch for some backends. -/
def launchOf (backends : List String) : ServerLaunch :=
  { pythonBin := "python3", scriptPath := "server.py", backends := backends, env := []
    handshakeTimeout := 1, requestTimeout := 1, spawner := none }

open Concurrent.Step ServerChoice in
/-- A call on a locked server without a child, up to the spawned child. -/
def spawning (i : Nat) : List (Concurrent.Step (Call Unit Unit) ServerChoice) :=
  [perform i pass, perform i pass, perform i pass, perform i pass]

open Concurrent.Step ServerChoice in
/-- The end of an ensure call that builds a server. -/
def building (i : Nat) (backends : List String) :
    List (Concurrent.Step (Call Unit Unit) ServerChoice) :=
  [perform i pass, perform i (prepared (.ok (launchOf backends))), perform i (time 0),
    perform i pass] ++ spawning i ++
  [perform i pass, perform i pass, perform i (line ""), perform i pass, perform i pass,
    perform i pass, perform i pass, finish i]

open Concurrent.Step ServerChoice in
/-- The first server built. -/
def firstRun : List (Concurrent.Step (Call Unit Unit) ServerChoice) :=
  call (.ensure ["a"] none) :: perform 0 .pass :: perform 0 .pass :: building 0 ["a"]

open Concurrent.Step ServerChoice in
/-- It is discarded for another, and then started through its old handle. -/
def staleRun : List (Concurrent.Step (Call Unit Unit) ServerChoice) :=
  firstRun ++
  [call (.ensure ["b"] none), perform 1 .pass, perform 1 .pass, perform 1 .pass, perform 1 .pass,
    perform 1 .pass, perform 1 .pass, perform 1 .pass, perform 1 .pass] ++ building 1 ["b"] ++
  call (.start 0) :: spawning 2

/-- A history that keeps to the limits, one step after the other. -/
theorem firstRun_allowed : (calls (T := Unit) readyCodec).allowed stayWithCached
    { shared := Slot.new, calls := [] } firstRun := by
  refine And.intro nofun fun g hg => ?_
  cases hg
  iterate 6
    refine And.intro trivial fun g hg => ?_
    cases hg
  refine And.intro nofun fun g hg => ?_
  cases hg
  iterate 11
    refine And.intro trivial fun g hg => ?_
    cases hg
  trivial

/-- The first server has the only child. -/
theorem one_worker_built : ∃ g : SlotState Unit, g.shared.spawned = 1 ∧
    (g.shared.children 0).alive = true ∧
    (g.shared.cache = .ready (g.shared.children 0).server ∨
      g.shared.cache.server = none ∧ ∃ l ∈ g.locals, l.slot = true ∧
        l.subject = some (g.shared.children 0).server) := by
  have hrun : (Transition.play (calls (T := Unit) readyCodec).move
      { shared := Slot.new, calls := [] } firstRun).map
        (fun g => (g.shared.spawned, (g.shared.children 0).alive)) = some (1, true) := by rfl
  rcases Option.map_eq_some_iff.mp hrun with ⟨g, hg, hfacts⟩
  simp only [Prod.mk.injEq] at hfacts
  rcases hfacts with ⟨hspawned, halive⟩
  refine ⟨g, hspawned, halive, ?_⟩
  exact (one_worker readyCodec (Concurrent.reachable_allowed rfl hg firstRun_allowed)).2 0
    (by rw [hspawned]; exact Nat.one_pos) halive

theorem staleRun_allowed : (calls (T := Unit) readyCodec).allowed handedOut
    { shared := Slot.new, calls := [] } staleRun := by
  refine And.intro nofun fun g hg => ?_
  cases hg
  iterate 18
    refine And.intro trivial fun g hg => ?_
    cases hg
  refine And.intro nofun fun g hg => ?_
  cases hg
  iterate 24
    refine And.intro trivial fun g hg => ?_
    cases hg
  refine And.intro (fun i hi => ?_) fun g hg => ?_
  · cases hi
    exact ⟨_, List.mem_cons_self .., rfl⟩
  cases hg
  iterate 4
    refine And.intro trivial fun g hg => ?_
    cases hg
  trivial

/-- A server that was discarded is started through its old handle, and two servers
    that were handed out have a live child each. -/
theorem two_workers : ¬ ∀ (codec : ServerCodec Unit) (g : SlotState Unit),
    Transition.Reachable
      ((calls (V := Unit) codec).system handedOut fun s => s = Slot.new) g →
    ∀ i j, (∃ l ∈ g.locals, l.handed = some i) → (∃ l ∈ g.locals, l.handed = some j) →
      (∃ k < g.shared.spawned, (g.shared.children k).server = i ∧
        (g.shared.children k).alive = true) →
      (∃ k < g.shared.spawned, (g.shared.children k).server = j ∧
        (g.shared.children k).alive = true) → i = j := by
  intro h
  obtain ⟨g, hg, hspawned, hlocals, hfirst, hsecond⟩ : ∃ g : SlotState Unit,
      Transition.play (calls (T := Unit) readyCodec).move { shared := Slot.new, calls := [] }
        staleRun = some g ∧ g.shared.spawned = 3 ∧
        g.locals.map Caller.handed = [some 0, some 1, none] ∧
        ((g.shared.children 2).server = 0 ∧ (g.shared.children 2).alive = true) ∧
        ((g.shared.children 1).server = 1 ∧ (g.shared.children 1).alive = true) :=
    ⟨_, rfl, rfl, rfl, ⟨rfl, rfl⟩, rfl, rfl⟩
  have hhanded : ∀ i, some i ∈ g.locals.map Caller.handed → ∃ l ∈ g.locals, l.handed = some i :=
    fun i hi => by simpa only [List.mem_map] using hi
  have hsame := h readyCodec g (Concurrent.reachable_allowed rfl hg staleRun_allowed) 0 1
    (hhanded 0 (by rw [hlocals]; decide)) (hhanded 1 (by rw [hlocals]; decide))
    ⟨2, by rw [hspawned]; decide, hfirst⟩ ⟨1, by rw [hspawned]; decide, hsecond⟩
  exact absurd hsame (by decide)

end TinyRuntime.PyServer
