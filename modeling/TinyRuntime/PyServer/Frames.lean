import TinyRuntime.PyServer.Slot

/-!
# Whole Frames

A request writes its frame byte by byte behind its server's lock, and may be
dropped between any two of them. The lock is let go then, and the child stays: the
next request writes its own frame behind the part that is already there
(`frame_torn`).

Where no request takes the lock of a server whose child was left with an unfinished
frame, as long as this child still reads, what a child has read is made of whole
frames and at most one unfinished one at the end, and nothing follows an unfinished
frame once the call that was writing it is gone (`frames_whole`).

The invariant is about one child at a time. Its stdin is whole, or it is cut and
ends in a part, or one call is in the middle of a frame to it and holds its
server's lock.

## Main definitions

* `Whole`, `Begun`: What was written.
* `resetBetween`: The histories where a cut child is replaced before the next request.
* `Framed`: The invariant.
* `Abandoned`: What is known of a child left with an unfinished frame.

## Theorems

* `framed_answers`, `abandoned_answers`: One effect keeps them.
* `frames_whole`: What was written to a child.
* `frame_torn`: A dropped request tears the next frame.
-/

namespace TinyRuntime.PyServer

variable {V T : Type} {codec : ServerCodec V} {s s' : Slot} {l l' m : Caller} {ls : List Caller}

/-- Made of whole frames. -/
def Whole (codec : ServerCodec V) (bytes : List UInt8) : Prop :=
  ∃ lines : List (List UInt8), bytes = lines.flatten ∧ ∀ line ∈ lines, Frame codec line

/-- Whole frames end in a newline. -/
theorem Whole.last {bytes : List UInt8} (h : Whole codec bytes) (hne : bytes ≠ []) :
    bytes.getLast? = some NEWLINE := by
  rcases h with ⟨lines, rfl, hlines⟩
  induction lines using List.reverseRecOn with
  | nil => exact absurd rfl hne
  | append_singleton lines line =>
      rcases hlines line (List.mem_append_right _ (List.mem_singleton_self _)) with
        ⟨_, text, _, rfl⟩
      rw [List.flatten_append, List.flatten_singleton, ← List.append_assoc,
        List.getLast?_append, List.getLast?_singleton, Option.some_or]

/-- The beginning of a frame, but not all of it. -/
def Begun (codec : ServerCodec V) (part : List UInt8) : Prop :=
  ∃ rest, rest ≠ [] ∧ Frame codec (part ++ rest)

theorem whole_nil : Whole codec [] :=
  ⟨[], rfl, nofun⟩

theorem Whole.append {bytes line : List UInt8} (h : Whole codec bytes) (hl : Frame codec line) :
    Whole codec (bytes ++ line) := by
  rcases h with ⟨lines, rfl, hlines⟩
  refine ⟨lines ++ [line], by simp only [List.flatten_append, List.flatten_singleton], ?_⟩
  intro x hx
  rcases List.mem_append.mp hx with hx | hx
  · exact hlines x hx
  · cases List.mem_singleton.mp hx
    exact hl

/-- A call is in the middle of a frame to a child. -/
def Caller.Midway (s : Slot) (l : Caller) (k : Nat) : Prop :=
  l.part ≠ [] ∧ ∃ i x, l.server = some i ∧ (s.servers i).inner = some x ∧ x.child = k

/-- What is known of what one call writes. -/
structure Caller.Writes (codec : ServerCodec V) (s : Slot) (l : Caller) : Prop where
  part : ∀ k, l.Midway s k → (s.children k).cut = false ∧ Begun codec l.part ∧
    ∃ whole, Whole codec whole ∧ (s.children k).stdin = whole ++ l.part
  placed : l.part ≠ [] → ∃ k, l.Midway s k
  uncut : l.kind = .request → ∀ i x, l.server = some i → (s.servers i).inner = some x →
    (s.children x.child).reading = true → (s.children x.child).cut = false
  new : l.vacant = true → ∀ k, l.child = some k → (s.children k).cut = false

/-- What was written to each child. -/
structure Framed (codec : ServerCodec V) (s : Slot) (ls : List Caller) : Prop where
  child : ∀ k < s.spawned, ((s.children k).cut = false ∧ Whole codec (s.children k).stdin) ∨
    ((s.children k).cut = true ∧ ∃ whole part, Whole codec whole ∧ part ≠ [] ∧
      Begun codec part ∧ (s.children k).stdin = whole ++ part) ∨
    ∃ l ∈ ls, l.Midway s k
  writes : ∀ l ∈ ls, l.Writes codec s

/-- Calls are made on servers that are known outside. -/
def onKnown : Concurrent.Limits ServerOp Slot Caller (Call V T) ServerChoice where
  calls s _ call := ∀ i, call.server = some i → i < s.built ∧ (s.servers i).published = true
  drops _ _ _ _ := True
  performs _ _ _ _ _ := True

/-- In addition, a request does not take the lock of a server whose child was left
    with an unfinished frame, unless that child reads no more. -/
def resetBetween : Concurrent.Limits ServerOp Slot Caller (Call V T) ServerChoice :=
  { (onKnown : Concurrent.Limits ServerOp Slot Caller (Call V T) ServerChoice) with
    performs := fun _ op s l _ =>
      match op with
      | .lockInner i => l.kind = .request → ∀ x, (s.servers i).inner = some x →
          (s.children x.child).reading = true → (s.children x.child).cut = false
      | _ => True }

theorem Framed.perm {ls' : List Caller} (hp : ls.Perm ls') (h : Framed codec s ls) :
    Framed codec s ls' where
  child k hk := (h.child k hk).imp_right fun hc => hc.imp_right fun ⟨l, hl, hm⟩ =>
    ⟨l, hp.mem_iff.mp hl, hm⟩
  writes l hl := h.writes l (hp.mem_iff.mpr hl)

/-- What another call writes is left alone. -/
theorem Caller.Writes.leave (hm : m.Writes codec s) (hown : m.Owned s) (hsound : s.Sound)
    (hleaves : Leaves s s' l) (happart : l.Apart m) :
    m.Writes codec s' ∧ ∀ k, m.Midway s k → m.Midway s' k := by
  have hinner : ∀ i, m.server = some i → (s'.servers i).inner = (s.servers i).inner := fun i hi =>
    (hleaves.server i (hown.server i hi).1 (happart.symm.server i hi)).1
  have hchild : ∀ i x, m.server = some i → (s.servers i).inner = some x →
      (s'.children x.child).stdin = (s.children x.child).stdin ∧
        (s'.children x.child).cut = (s.children x.child).cut ∧
        (s'.children x.child).reading = (s.children x.child).reading := by
    intro i x hi hx
    rcases hsound.inner i (hown.server i hi).1 x hx with ⟨hlt, hserver⟩
    exact hleaves.stdin _ hlt (hserver ▸ happart.symm.server i hi)
  have hback : ∀ k, m.Midway s' k → m.Midway s k := by
    rintro k ⟨hpart, i, x, hi, hx, hk⟩
    exact ⟨hpart, i, x, hi, (hinner i hi) ▸ hx, hk⟩
  have hforth : ∀ k, m.Midway s k → m.Midway s' k := by
    rintro k ⟨hpart, i, x, hi, hx, hk⟩
    exact ⟨hpart, i, x, hi, (hinner i hi).trans hx, hk⟩
  refine ⟨⟨fun k hk => ?_, fun hpart => ?_, fun hkind i x hi hx hr => ?_, fun hv k hk => ?_⟩,
    hforth⟩
  · rcases hback k hk with ⟨hpart, i, x, hi, hx, rfl⟩
    rcases hchild i x hi hx with ⟨hstdin, hcut, _⟩
    rw [hstdin, hcut]
    exact hm.part _ (hback _ hk)
  · rcases hm.placed hpart with ⟨k, hk⟩
    exact ⟨k, hforth k hk⟩
  · rw [hinner i hi] at hx
    rcases hchild i x hi hx with ⟨_, hcut, hreading⟩
    rw [hcut]
    rw [hreading] at hr
    exact hm.uncut hkind i x hi hx hr
  · rcases hown.child k hk with ⟨i, hi, _, hserver, hlt⟩
    rw [(hleaves.stdin k hlt (hserver ▸ happart.symm.server i hi)).2.1]
    exact hm.new hv k hk

section Answers

variable {β : Type} {op : ServerOp β} {b : β}

/-- Who is in the middle of a frame, after one call has moved. -/
theorem midway_head {k : Nat} (hl : l.Midway s k → l'.Midway s' k)
    (hothers : ∀ m ∈ ls, ∀ k, m.Midway s k → m.Midway s' k) (h : ∃ m ∈ l :: ls, m.Midway s k) :
    ∃ m ∈ l' :: ls, m.Midway s' k := by
  rcases h with ⟨m, hm, hk⟩
  rcases List.mem_cons.mp hm with rfl | hm
  · exact ⟨l', List.mem_cons_self .., hl hk⟩
  · exact ⟨m, List.mem_cons_of_mem _ hm, hothers m hm k hk⟩

/-- Nothing is written, and the call that moves keeps its server and its part. -/
theorem Framed.calm (h : Framed codec s (l :: ls))
    (hothers : ∀ m ∈ ls, m.Writes codec s' ∧ ∀ k, m.Midway s k → m.Midway s' k)
    (hspawned : s'.spawned = s.spawned)
    (hchild : ∀ k, (s'.children k).stdin = (s.children k).stdin ∧
      (s'.children k).cut = (s.children k).cut ∧
      (s'.children k).reading = (s.children k).reading)
    (hinner : ∀ i, l.server = some i →
      (s'.servers i).inner.map Inner.child = (s.servers i).inner.map Inner.child)
    (hkind : l'.kind = l.kind) (hserver : l'.server = l.server) (hpart : l'.part = l.part)
    (hnew : l'.vacant = true → ∀ k, l'.child = some k → (s'.children k).cut = false) :
    Framed codec s' (l' :: ls) := by
  have hl := h.writes l (List.mem_cons_self ..)
  have hmap : ∀ {v v' : Option Inner} {x : Inner}, v'.map Inner.child = v.map Inner.child →
      v = some x → ∃ y, v' = some y ∧ y.child = x.child := by
    rintro v v' x hsame rfl
    exact Option.map_eq_some_iff.mp hsame
  have hmid : ∀ k, l'.Midway s' k ↔ l.Midway s k := by
    intro k
    rw [Caller.Midway, Caller.Midway, hpart, hserver]
    refine and_congr_right fun _ => ⟨?_, ?_⟩
    · rintro ⟨i, x, hi, hx, hk⟩
      rcases hmap (hinner i hi).symm hx with ⟨y, hy, hyx⟩
      exact ⟨i, y, hi, hy, hyx.trans hk⟩
    · rintro ⟨i, x, hi, hx, hk⟩
      rcases hmap (hinner i hi) hx with ⟨y, hy, hyx⟩
      exact ⟨i, y, hi, hy, hyx.trans hk⟩
  refine ⟨fun k hk => ?_, fun m hm => ?_⟩
  · rw [(hchild k).1, (hchild k).2.1]
    rcases h.child k (hspawned ▸ hk) with hc | hc | hex
    · exact .inl hc
    · exact .inr (.inl hc)
    · exact .inr (.inr (midway_head (hmid k).mpr (fun m hm => (hothers m hm).2) hex))
  · rcases List.mem_cons.mp hm with rfl | hm
    · refine ⟨fun k hk => ?_, fun hp => ?_, fun hk i x hi hx hr => ?_, hnew⟩
      · rw [(hchild k).1, (hchild k).2.1, hpart]
        exact hl.part k ((hmid k).mp hk)
      · rcases hl.placed (hpart ▸ hp) with ⟨k, hk⟩
        exact ⟨k, (hmid k).mpr hk⟩
      · rw [hserver] at hi
        rcases hmap (hinner i hi).symm hx with ⟨y, hy, hyx⟩
        rw [← hyx] at hr ⊢
        rw [(hchild _).2.2] at hr
        rw [(hchild _).2.1]
        exact hl.uncut (hkind ▸ hk) i y hi hy hr
    · exact (hothers m hm).1

/-- A part of a frame is written, or all that is left of it. -/
theorem framed_write (hlocks : Locks s (l :: ls)) (h : Framed codec s (l :: ls)) {i n : Nat}
    {x : Inner} {buffer : List UInt8} (hkind : l.kind = .request) (hi : l.server = some i)
    (hx : (s.servers i).inner = some x) (hchild : l.child = none)
    (hframe : Frame codec (l.part ++ buffer)) (hn : n ≤ buffer.length)
    (hreading : (s.children x.child).reading = true)
    (hothers : ∀ m ∈ ls, m.Writes codec (s.setChild x.child fun c =>
      { c with stdin := c.stdin ++ buffer.take n })) :
    Framed codec (s.setChild x.child fun c => { c with stdin := c.stdin ++ buffer.take n })
      ({ l with part := if n = buffer.length then [] else l.part ++ buffer.take n } :: ls) := by
  have hl := h.writes l (List.mem_cons_self ..)
  have hown := hlocks.owned l (List.mem_cons_self ..)
  have hbuilt := (hown.server i hi).1
  have hplace := hlocks.sound.inner i hbuilt x hx
  have hcut := hl.uncut hkind i x hi hx hreading
  -- Only the holder of the server's lock is in the middle of a frame to its child.
  have halone : ∀ m ∈ ls, ¬ m.Midway s x.child := by
    rintro m hm ⟨_, j, y, hj, hy, hk⟩
    have hserver := (hlocks.sound.inner j
      ((hlocks.owned m (List.mem_cons_of_mem _ hm)).server j hj).1 y hy).2
    rw [hk, hplace.2] at hserver
    subst hserver
    exact ((List.pairwise_cons.mp hlocks.apart).1 m hm).server i hi hj
  have hwhole : ∃ whole, Whole codec whole ∧ (s.children x.child).stdin = whole ++ l.part := by
    by_cases hpart : l.part = []
    · rcases h.child x.child hplace.1 with ⟨_, hw⟩ | ⟨hc, _⟩ | ⟨m, hm, hmid⟩
      · exact ⟨_, hw, by rw [hpart, List.append_nil]⟩
      · rw [hcut] at hc
        cases hc
      · rcases List.mem_cons.mp hm with rfl | hm
        · exact absurd hpart hmid.1
        · exact absurd hmid (halone m hm)
    · exact (hl.part x.child ⟨hpart, i, x, hi, hx, rfl⟩).2.2
  rcases hwhole with ⟨whole, hwhole, hstdin⟩
  have hthis : (s.setChild x.child fun c =>
      { c with stdin := c.stdin ++ buffer.take n }).children x.child =
      { s.children x.child with stdin := whole ++ (l.part ++ buffer.take n) } := by
    rw [setChild_children, if_pos rfl, hstdin, List.append_assoc]
  have hother : ∀ k, k ≠ x.child → (s.setChild x.child fun c =>
      { c with stdin := c.stdin ++ buffer.take n }).children k = s.children k :=
    fun k hk => by rw [setChild_children, if_neg hk]
  have hbegun : n ≠ buffer.length → Begun codec (l.part ++ buffer.take n) := by
    intro hne
    refine ⟨buffer.drop n, ?_, by rw [List.append_assoc, List.take_append_drop]; exact hframe⟩
    rw [ne_eq, List.drop_eq_nil_iff]
    omega
  refine ⟨fun k hk => ?_, fun m hm => ?_⟩
  · by_cases hkx : k = x.child
    · subst hkx
      rw [hthis]
      by_cases hall : n = buffer.length
      · refine .inl ⟨hcut, ?_⟩
        rw [hall, List.take_length]
        exact hwhole.append hframe
      · by_cases hempty : l.part ++ buffer.take n = []
        · refine .inl ⟨hcut, ?_⟩
          rw [hempty, List.append_nil]
          exact hwhole
        · refine .inr (.inr ⟨_, List.mem_cons_self .., ?_, i, x, hi, hx, rfl⟩)
          rw [if_neg hall]
          exact hempty
    · rw [hother k hkx]
      rcases h.child k hk with hc | hc | ⟨m, hm, hmid⟩
      · exact .inl hc
      · exact .inr (.inl hc)
      · refine .inr (.inr ?_)
        rcases List.mem_cons.mp hm with rfl | hm
        · rcases hmid with ⟨_, j, y, hj, hy, hjk⟩
          rw [hi] at hj
          cases hj
          rw [hx] at hy
          cases hy
          exact absurd hjk.symm hkx
        · exact ⟨m, List.mem_cons_of_mem _ hm, hmid⟩
  · rcases List.mem_cons.mp hm with rfl | hm
    · refine ⟨?_, fun hp => ⟨x.child, hp, i, x, hi, hx, rfl⟩, ?_, fun hv k hk => ?_⟩
      · rintro k ⟨hp, j, y, hj, hy, rfl⟩
        rw [hi] at hj
        cases hj
        rw [setChild_servers, hx] at hy
        cases hy
        have hall : n ≠ buffer.length := fun he => hp (if_pos he)
        rw [hthis, if_neg hall]
        exact ⟨hcut, hbegun hall, whole, hwhole, rfl⟩
      · rintro _ j y hj hy _
        rw [hi] at hj
        cases hj
        rw [setChild_servers, hx] at hy
        cases hy
        rw [hthis]
        exact hcut
      · rw [hchild] at hk
        cases hk
    · exact hothers m hm

/-- Letting go of a server's lock leaves the child cut, if a frame is unfinished. -/
theorem framed_leave (hlocks : Locks s (l :: ls)) (h : Framed codec s (l :: ls)) {i : Nat}
    (hi : l.server = some i) (hchild : l.child = none)
    (hothers : ∀ m ∈ ls, m.Writes codec (s.leave i l.part) ∧
      ∀ k, m.Midway s k → m.Midway (s.leave i l.part) k) {l' : Caller}
    (hserver : l'.server = none) (hpart : l'.part = []) (hchild' : l'.child = none) :
    Framed codec (s.leave i l.part) (l' :: ls) := by
  have hl := h.writes l (List.mem_cons_self ..)
  have hcuts : ∀ k, cuts s i l.part k ↔ l.Midway s k := by
    intro k
    refine and_congr_right fun _ => ⟨?_, ?_⟩
    · rintro ⟨x, hx, hk⟩
      exact ⟨i, x, hi, hx, hk⟩
    · rintro ⟨j, x, hj, hx, hk⟩
      rw [hi] at hj
      cases hj
      exact ⟨x, hx, hk⟩
  refine ⟨fun k hk => ?_, fun m hm => ?_⟩
  · rw [leave_spawned] at hk
    rcases @leave_children s i l.part k with ⟨cut, hcut, hyes, hno⟩
    rw [hcut]
    by_cases hmid : l.Midway s k
    · rcases hl.part k hmid with ⟨_, hbegun, whole, hwhole, hstdin⟩
      exact .inr (.inl ⟨hyes ((hcuts k).mpr hmid), whole, l.part, hwhole, hmid.1, hbegun, hstdin⟩)
    · have hsame := hno fun hc => hmid ((hcuts k).mp hc)
      rw [hsame]
      rcases h.child k hk with hc | hc | ⟨m, hm, hmk⟩
      · exact .inl hc
      · exact .inr (.inl hc)
      · rcases List.mem_cons.mp hm with rfl | hm
        · exact absurd hmk hmid
        · exact .inr (.inr ⟨m, List.mem_cons_of_mem _ hm, (hothers m hm).2 k hmk⟩)
  · rcases List.mem_cons.mp hm with rfl | hm
    · refine ⟨fun k hk => absurd hpart hk.1, fun hp => absurd hpart hp, fun _ j x hj => ?_,
        fun _ k hk => ?_⟩
      · rw [hserver] at hj
        cases hj
      · rw [hchild'] at hk
        cases hk
    · exact (hothers m hm).1

/-- A fresh child becomes the server's. -/
theorem framed_setInner (hlocks : Locks s (l :: ls)) (h : Framed codec s (l :: ls)) {i : Nat}
    {value : Inner} (hi : l.server = some i) (hchild : l.child = some value.child)
    (hvacant : l.vacant = true) (hpart : l.part = [])
    (hothers : ∀ m ∈ ls, m.Writes codec (s.setServer i fun v => { v with inner := some value }) ∧
      ∀ k, m.Midway s k → m.Midway (s.setServer i fun v => { v with inner := some value }) k) :
    Framed codec (s.setServer i fun v => { v with inner := some value })
      ({ l with child := none, vacant := false } :: ls) := by
  have hl := h.writes l (List.mem_cons_self ..)
  refine ⟨fun k hk => ?_, fun m hm => ?_⟩
  · rcases h.child k hk with hc | hc | ⟨m, hm, hmk⟩
    · exact .inl hc
    · exact .inr (.inl hc)
    · rcases List.mem_cons.mp hm with rfl | hm
      · exact absurd hpart hmk.1
      · exact .inr (.inr ⟨m, List.mem_cons_of_mem _ hm, (hothers m hm).2 k hmk⟩)
  · rcases List.mem_cons.mp hm with rfl | hm
    · refine ⟨fun k hk => absurd hpart hk.1, fun hp => absurd hpart hp, fun _ j x hj hx _ => ?_,
        nofun⟩
      have hij : i = j := Option.some.inj (hi.symm.trans hj)
      subst hij
      rw [setServer_servers, if_pos rfl] at hx
      cases hx
      exact hl.new hvacant _ hchild
    · exact (hothers m hm).1

theorem framed_answers {c : ServerChoice} (hlocks : Locks s (l :: ls))
    (h : Framed codec s (l :: ls))
    (hlim : (resetBetween (V := V) (T := T)).performs β op s l c) (hA : Asserts codec β op l)
    (hans : op.Answers s l b s' l') : Framed codec s' (l' :: ls) := by
  have hown := hlocks.owned l (List.mem_cons_self ..)
  have hl := h.writes l (List.mem_cons_self ..)
  have hleaves := leaves_of_answers hlocks.sound (fun i hi => (hown.server i hi).1) hA hans
  have hothers : ∀ m ∈ ls, m.Writes codec s' ∧ ∀ k, m.Midway s k → m.Midway s' k := fun m hm =>
    (h.writes m (List.mem_cons_of_mem _ hm)).leave (hlocks.owned m (List.mem_cons_of_mem _ hm))
      hlocks.sound hleaves ((List.pairwise_cons.mp hlocks.apart).1 m hm)
  have hsame : ∀ k, (s.children k).stdin = (s.children k).stdin ∧
      (s.children k).cut = (s.children k).cut ∧
      (s.children k).reading = (s.children k).reading := fun _ => ⟨rfl, rfl, rfl⟩
  have hfree : ∀ {Q : Nat → Prop}, l.server = none → ∀ i, l.server = some i → Q i := by
    intro Q hnone i hi
    rw [hnone] at hi
    cases hi
  have hempty : ∀ {Q : Nat → Prop} {v : Bool}, l.child = none → v = true →
      ∀ k, l.child = some k → Q k := by
    intro Q v hnone _ k hk
    rw [hnone] at hk
    cases hk
  cases op with
  | lockSlot =>
      rcases hans with ⟨_, rfl, rfl⟩
      exact h.calm hothers rfl hsame (hfree hA.2.2.2.server) rfl rfl rfl hl.new
  | unlockSlot | cache =>
      rcases hans with ⟨rfl, rfl⟩
      exact h.calm hothers rfl (fun _ => ⟨rfl, rfl, rfl⟩) (hfree hA.2.2.2.2.1.server) rfl rfl rfl
        hl.new
  | setCache value =>
      rcases hans with ⟨i, _, rfl, rfl⟩ | ⟨_, rfl, rfl⟩ <;>
        exact h.calm hothers rfl hsame (hfree hA.2.2.2.1.server) rfl rfl rfl hl.new
  | newServer description t =>
      rcases hans with ⟨rfl, rfl⟩
      exact h.calm hothers rfl hsame (hfree hA.2.2.2.2.2.server) rfl rfl rfl hl.new
  | lockInner i =>
      rcases hA with ⟨_, _, hlfree⟩
      rcases hans with ⟨_, _, rfl, rfl⟩
      refine ⟨fun k hk => ?_, fun m hm => ?_⟩
      · rcases h.child k hk with hc | hc | ⟨m, hm, hmk⟩
        · exact .inl hc
        · exact .inr (.inl hc)
        · rcases List.mem_cons.mp hm with rfl | hm
          · exact absurd hlfree.part hmk.1
          · exact .inr (.inr ⟨m, List.mem_cons_of_mem _ hm, (hothers m hm).2 k hmk⟩)
      · rcases List.mem_cons.mp hm with rfl | hm
        · refine ⟨fun k hk => absurd hlfree.part hk.1, fun hp => absurd hlfree.part hp,
            fun hkind j x hj hx => ?_, fun hn => by cases hn⟩
          cases hj
          rw [setServer_servers, if_pos rfl] at hx
          exact hlim hkind x hx
        · exact (hothers m hm).1
  | unlockInner =>
      rcases hA with ⟨_, _, i', hholds, hchild⟩
      rcases hans with ⟨i, hi, rfl, rfl⟩
      have hleave := @leaves_leave s l i l.part hlocks.sound (hown.server i hi).1 hi
      have hothers' : ∀ m ∈ ls, m.Writes codec (s.leave i l.part) ∧
          ∀ k, m.Midway s k → m.Midway (s.leave i l.part) k := fun m hm =>
        (h.writes m (List.mem_cons_of_mem _ hm)).leave
          (hlocks.owned m (List.mem_cons_of_mem _ hm)) hlocks.sound hleave
          ((List.pairwise_cons.mp hlocks.apart).1 m hm)
      have hleft := @framed_leave _ _ s l ls hlocks h i hi hchild hothers' l.unlocked rfl rfl hchild
      have hinner : ∀ j, (((s.leave i l.part).setServer i fun v =>
          { v with discarded := v.discarded || l.givesUp }).servers j).inner =
          ((s.leave i l.part).servers j).inner := by
        intro j
        rw [setServer_servers]
        split
        · rename_i hj
          rw [hj]
        · rfl
      refine hleft.calm (fun m hm => ⟨(hothers m hm).1, fun k hk => ?_⟩) rfl
        (fun _ => ⟨rfl, rfl, rfl⟩) (fun _ hi => by cases hi) rfl rfl rfl (fun hn => by cases hn)
      rcases hk with ⟨hp, j, x, hj, hx, hxk⟩
      exact ⟨hp, j, x, hj, (hinner j).trans hx, hxk⟩
  | inner =>
      rcases hA with ⟨_, _, _, _, hchild, _⟩
      rcases hans with ⟨i, hi, rfl, rfl⟩
      exact h.calm hothers rfl (fun _ => ⟨rfl, rfl, rfl⟩) (fun _ _ => rfl) rfl rfl rfl
        (hempty hchild)
  | setInner value =>
      rcases hA with ⟨_, _, i', _, hchild, hpart, hvacant, _⟩
      rcases hans with ⟨i, hi, rfl, rfl⟩
      exact framed_setInner hlocks h hi hchild hvacant hpart hothers
  | take =>
      rcases hA with ⟨_, _, _, _, hchild, hpart⟩
      rcases hans with ⟨i, hi, rfl, rfl⟩
      refine ⟨fun k hk => ?_, fun m hm => ?_⟩
      · rcases h.child k hk with hc | hc | ⟨m, hm, hmk⟩
        · exact .inl hc
        · exact .inr (.inl hc)
        · rcases List.mem_cons.mp hm with rfl | hm
          · exact absurd hpart hmk.1
          · exact .inr (.inr ⟨m, List.mem_cons_of_mem _ hm, (hothers m hm).2 k hmk⟩)
      · rcases List.mem_cons.mp hm with rfl | hm
        · refine ⟨fun k hk => absurd hpart hk.1, fun hp => absurd hpart hp,
            fun _ j x hj hx => ?_, fun hv k hk => ?_⟩
          · have hij : i = j := Option.some.inj (hi.symm.trans hj)
            subst hij
            rw [setServer_servers, if_pos rfl] at hx
            cases hx
          · rw [Option.isNone_iff_eq_none.mp hv] at hk
            cases hk
        · exact (hothers m hm).1
  | spawn spec =>
      rcases hA with ⟨_, _, _, _, hchild, hpart, _⟩
      rcases hans with ⟨i, hi, ⟨rfl, rfl⟩ | ⟨rfl, rfl⟩⟩
      · have hnew : (s.addChild (Child.new i)).children s.spawned = Child.new i := by
          rw [addChild_children, if_pos rfl]
        have hold : ∀ k < s.spawned, (s.addChild (Child.new i)).children k = s.children k :=
          fun k hk => by rw [addChild_children, if_neg (Nat.ne_of_lt hk)]
        refine ⟨fun k hk => ?_, fun m hm => ?_⟩
        · rcases Nat.lt_succ_iff_lt_or_eq.mp hk with hlt | rfl
          · rw [hold k hlt]
            rcases h.child k hlt with hc | hc | ⟨m, hm, hmk⟩
            · exact .inl hc
            · exact .inr (.inl hc)
            · rcases List.mem_cons.mp hm with rfl | hm
              · exact absurd hpart hmk.1
              · exact .inr (.inr ⟨m, List.mem_cons_of_mem _ hm, (hothers m hm).2 k hmk⟩)
          · rw [hnew]
            exact .inl ⟨rfl, whole_nil⟩
        · rcases List.mem_cons.mp hm with rfl | hm
          · refine ⟨fun k hk => absurd hpart hk.1, fun hp => absurd hpart hp,
              fun hkind j x hj hx hr => ?_, fun _ k hk => ?_⟩
            · have hlt := (hlocks.sound.inner j (hown.server j hj).1 x hx).1
              rw [hold _ hlt] at hr ⊢
              exact hl.uncut hkind j x hj hx hr
            · cases hk
              rw [hnew]
              rfl
          · exact (hothers m hm).1
      · exact h
  | dropChild | startKill =>
      rcases hans with ⟨k, _, rfl, rfl⟩
      refine h.calm hothers rfl (fun j => ?_) (fun _ _ => rfl) rfl rfl rfl fun _ _ hk => by cases hk
      rw [Slot.kill, setChild_children]
      split
      · rename_i hj
        rw [hj]
        exact ⟨rfl, rfl, rfl⟩
      · exact ⟨rfl, rfl, rfl⟩
  | nextId =>
      rcases hA with ⟨_, _, _, _, hchild, _⟩
      rcases hans with ⟨i, x, n, hi, hx, rfl, rfl⟩
      refine h.calm hothers rfl hsame (fun j hj => ?_) rfl rfl rfl (hempty hchild)
      rw [setServer_servers]
      split
      · rename_i hji
        rw [hji, hx]
        rfl
      · rfl
  | write buffer =>
      rcases hA with ⟨_, _, _, _, hchild, hkind, _, hframe⟩
      rcases hans with ⟨i, x, hi, hx, ⟨n, hn, hreading, rfl, rfl⟩ | ⟨rfl, rfl⟩⟩
      · exact framed_write hlocks h hkind hi hx hchild hframe hn hreading
          fun m hm => (hothers m hm).1
      · exact h
  | markUsed i t =>
      rcases hans with ⟨rfl, rfl⟩
      refine h.calm hothers rfl hsame (fun j _ => ?_) rfl rfl rfl hl.new
      rw [setServer_servers]
      split
      · rename_i hji
        rw [hji]
      · rfl
  | pending => exact hans.elim
  | _ =>
      rcases hans with ⟨⟨t, rfl⟩, rfl⟩
      exact h.calm hothers rfl hsame (fun _ _ => rfl) rfl rfl rfl hl.new

end Answers

/-! ## The other steps -/

theorem framed_call (h : Framed codec s ls) (call : Call V T) :
    Framed codec s (call.fresh :: ls) := by
  have hfresh := fresh_fresh call
  refine ⟨fun k hk => (h.child k hk).imp_right fun hc => hc.imp_right fun ⟨m, hm, hmk⟩ =>
    ⟨m, List.mem_cons_of_mem _ hm, hmk⟩, fun m hm => ?_⟩
  rcases List.mem_cons.mp hm with rfl | hm
  · refine ⟨fun k hk => absurd hfresh.part hk.1, fun hp => absurd hfresh.part hp, ?_, ?_⟩
    · rw [hfresh.server]
      nofun
    · rw [hfresh.child]
      nofun
  · exact h.writes m hm

theorem framed_ended (h : Framed codec s (l :: ls)) (handed : Option Nat) :
    Framed codec s ({ l with finished := true, handed := handed } :: ls) := by
  refine ⟨fun k hk => ?_, fun m hm => ?_⟩
  · rcases h.child k hk with hc | hc | hex
    · exact .inl hc
    · exact .inr (.inl hc)
    · exact .inr (.inr (midway_head (l := l) id (fun _ _ _ => id) hex))
  · rcases List.mem_cons.mp hm with rfl | hm
    · exact { (h.writes l (List.mem_cons_self ..)) with }
    · exact h.writes m (List.mem_cons_of_mem _ hm)

/-- A child changes on its own, in nothing that was written to it. -/
theorem framed_setChild {k : Nat} {g : Child → Child}
    (hg : ∀ c, (g c).stdin = c.stdin ∧ (g c).cut = c.cut ∧
      ((g c).reading = true → c.reading = true)) (h : Framed codec s ls) :
    Framed codec (s.setChild k g) ls := by
  have hsame : ∀ j, ((s.setChild k g).children j).stdin = (s.children j).stdin ∧
      ((s.setChild k g).children j).cut = (s.children j).cut ∧
      (((s.setChild k g).children j).reading = true → (s.children j).reading = true) := by
    intro j
    rw [setChild_children]
    split
    · rename_i hj
      rw [hj]
      exact hg _
    · exact ⟨rfl, rfl, id⟩
  refine ⟨fun j hj => ?_, fun m hm => ⟨fun j hj => ?_, (h.writes m hm).placed,
    fun hkind i x hi hx hr => ?_, fun hv j hj => ?_⟩⟩
  · rw [(hsame j).1, (hsame j).2.1]
    exact h.child j hj
  · rw [(hsame j).1, (hsame j).2.1]
    exact (h.writes m hm).part j hj
  · rw [(hsame _).2.1]
    exact (h.writes m hm).uncut hkind i x hi hx ((hsame _).2.2 hr)
  · rw [(hsame j).2.1]
    exact (h.writes m hm).new hv j hj

theorem framed_env {c : ServerChoice} (h : Framed codec s ls) (hs : s.env c = some s') :
    Framed codec s' ls := by
  cases c with
  | exited k =>
      cases hs
      exact framed_setChild (fun _ => ⟨rfl, rfl, id⟩) h
  | closed k =>
      cases hs
      exact framed_setChild (fun _ => ⟨rfl, rfl, nofun⟩) h
  | _ => cases hs

/-- A server that nobody holds is dropped. -/
theorem midway_dropServer {i k : Nat} (hm : m.server ≠ some i) :
    m.Midway (s.dropServer i) k ↔ m.Midway s k := by
  refine and_congr_right fun _ => exists₂_congr fun j x => and_congr_right fun hj => ?_
  have hne : j ≠ i := fun hji => hm (hji ▸ hj)
  rw [dropServer_servers, if_neg hne]

theorem framed_dropServer {i : Nat} (h : Framed codec s ls) (hno : ∀ m ∈ ls, m.server ≠ some i) :
    Framed codec (s.dropServer i) ls := by
  have hsame : ∀ k, ((s.dropServer i).children k).stdin = (s.children k).stdin ∧
      ((s.dropServer i).children k).cut = (s.children k).cut ∧
      ((s.dropServer i).children k).reading = (s.children k).reading := by
    intro k
    rcases @dropServer_children s i k with ⟨alive, heq, _⟩
    rw [heq]
    exact ⟨rfl, rfl, rfl⟩
  refine ⟨fun k hk => ?_, fun m hm => ?_⟩
  · rw [(hsame k).1, (hsame k).2.1]
    rw [dropServer_spawned] at hk
    exact (h.child k hk).imp_right fun hc => hc.imp_right fun ⟨m, hm, hmk⟩ =>
      ⟨m, hm, (midway_dropServer (hno m hm)).mpr hmk⟩
  · have hw := h.writes m hm
    refine ⟨fun k hk => ?_, fun hp => ?_, fun hkind j x hj hx hr => ?_, fun hv k hk => ?_⟩
    · rw [(hsame k).1, (hsame k).2.1]
      exact hw.part k ((midway_dropServer (hno m hm)).mp hk)
    · rcases hw.placed hp with ⟨k, hk⟩
      exact ⟨k, (midway_dropServer (hno m hm)).mpr hk⟩
    · have hne : j ≠ i := fun hji => hno m hm (hji ▸ hj)
      rw [dropServer_servers, if_neg hne] at hx
      rw [(hsame _).2.1]
      rw [(hsame _).2.2] at hr
      exact hw.uncut hkind j x hj hx hr
    · rw [(hsame k).2.1]
      exact hw.new hv k hk

theorem framed_release (hlocks : Locks s (l :: ls)) (h : Framed codec s (l :: ls))
    (hr : Caller.release (s, l) = some (s', l')) : Framed codec s' (l' :: ls) := by
  have hown := hlocks.owned l (List.mem_cons_self ..)
  have happart := (List.pairwise_cons.mp hlocks.apart).1
  rcases (Caller.release_cases hr).2 with ⟨k, hchild, rfl, rfl⟩ | ⟨hchild, i, hi, rfl, rfl⟩ |
    ⟨hchild, hserver, hslot, rfl, hcases⟩
  · have hkill := framed_setChild (k := k) (g := fun c => { c with alive := false })
      (fun _ => ⟨rfl, rfl, id⟩) h
    refine ⟨fun j hj => ?_, fun m hm => ?_⟩
    · rcases hkill.child j hj with hc | hc | hex
      · exact .inl hc
      · exact .inr (.inl hc)
      · exact .inr (.inr (midway_head (l := l) id (fun _ _ _ => id) hex))
    · rcases List.mem_cons.mp hm with rfl | hm
      · exact { (hkill.writes l (List.mem_cons_self ..)) with new := fun _ => nofun }
      · exact hkill.writes m (List.mem_cons_of_mem _ hm)
  · have hleave := @leaves_leave s l i l.part hlocks.sound (hown.server i hi).1 hi
    refine framed_leave hlocks h hi hchild (fun m hm => ?_) rfl rfl hchild
    exact (h.writes m (List.mem_cons_of_mem _ hm)).leave
      (hlocks.owned m (List.mem_cons_of_mem _ hm)) hlocks.sound hleave (happart m hm)
  · have hunlock : Framed codec { s with locked := false }
        ({ l with slot := false, subject := none } :: ls) := by
      refine ⟨fun k hk => ?_, fun m hm => ?_⟩
      · rcases h.child k hk with hc | hc | hex
        · exact .inl hc
        · exact .inr (.inl hc)
        · exact .inr (.inr (midway_head (l := l) id (fun _ _ _ => id) hex))
      · rcases List.mem_cons.mp hm with rfl | hm
        · exact { (h.writes l (List.mem_cons_self ..)) with }
        · exact { (h.writes m (List.mem_cons_of_mem _ hm)) with }
    rcases hcases with ⟨_, rfl⟩ | ⟨i, hi, hne, rfl⟩
    · exact hunlock
    · refine framed_dropServer hunlock fun m hm => ?_
      have hunknown := hlocks.unknown hslot hserver hi hne
      rcases List.mem_cons.mp hm with rfl | hm
      · exact hunknown l (List.mem_cons_self ..)
      · exact hunknown m (List.mem_cons_of_mem _ hm)

/-! ## After an unfinished frame -/

/-- A child was left with an unfinished frame, or is about to be: the call that was
    writing it is over. -/
def Abandoned (k : Nat) (bytes : List UInt8) (s : Slot) (ls : List Caller) : Prop :=
  k < s.spawned ∧ (s.children k).stdin = bytes ∧
    ((s.children k).cut = true ∨ ∃ l ∈ ls, l.finished = true ∧ l.Midway s k)

section Abandoned

variable {β : Type} {op : ServerOp β} {b : β} {k : Nat} {bytes : List UInt8}

/-- What one effect does to what a child has read. -/
theorem written_answers (hA : Asserts codec β op l) (hans : op.Answers s l b s' l')
    (hk : k < s.spawned) : ((s.children k).cut = true → (s'.children k).cut = true) ∧
      ((s'.children k).stdin = (s.children k).stdin ∨ ∃ i x, l.kind = .request ∧
        l.server = some i ∧ (s.servers i).inner = some x ∧ x.child = k ∧
        (s.children k).reading = true) := by
  cases op with
  | lockSlot =>
      rcases hans with ⟨_, rfl, _⟩
      exact ⟨id, .inl rfl⟩
  | unlockSlot | cache | newServer | markUsed =>
      rcases hans with ⟨rfl, _⟩
      exact ⟨id, .inl rfl⟩
  | setCache value =>
      rcases hans with ⟨i, _, rfl, _⟩ | ⟨_, rfl, _⟩ <;> exact ⟨id, .inl rfl⟩
  | lockInner i =>
      rcases hans with ⟨_, _, rfl, _⟩
      exact ⟨id, .inl rfl⟩
  | unlockInner =>
      rcases hans with ⟨i, _, rfl, _⟩
      rcases @leave_children s i l.part k with ⟨cut, heq, hyes, hno⟩
      rw [setServer_children, heq]
      refine ⟨fun hcut => ?_, .inl rfl⟩
      by_cases hc : cuts s i l.part k
      · exact hyes hc
      · exact (hno hc).trans hcut
  | inner | setInner | take =>
      rcases hans with ⟨i, _, rfl, _⟩
      exact ⟨id, .inl rfl⟩
  | spawn spec =>
      rcases hans with ⟨i, _, ⟨rfl, _⟩ | ⟨rfl, _⟩⟩
      · rw [addChild_children, if_neg (Nat.ne_of_lt hk)]
        exact ⟨id, .inl rfl⟩
      · exact ⟨id, .inl rfl⟩
  | dropChild | startKill =>
      rcases hans with ⟨j, _, rfl, _⟩
      rw [Slot.kill, setChild_children]
      split
      · rename_i hkj
        rw [hkj]
        exact ⟨id, .inl rfl⟩
      · exact ⟨id, .inl rfl⟩
  | nextId =>
      rcases hans with ⟨i, x, n, _, _, rfl, _⟩
      exact ⟨id, .inl rfl⟩
  | write buffer =>
      rcases hA with ⟨_, _, _, _, _, hkind, _⟩
      rcases hans with ⟨i, x, hi, hx, ⟨n, _, hreading, rfl, _⟩ | ⟨rfl, _⟩⟩
      · rw [setChild_children]
        split
        · rename_i hkx
          refine ⟨fun hcut => hkx ▸ hcut, .inr ⟨i, x, hkind, hi, hx, hkx.symm, hkx ▸ hreading⟩⟩
        · exact ⟨id, .inl rfl⟩
      · exact ⟨id, .inl rfl⟩
  | pending => exact hans.elim
  | _ =>
      rcases hans with ⟨⟨t, rfl⟩, _⟩
      exact ⟨id, .inl rfl⟩

/-- Nothing is written behind an unfinished frame: a child that is written to is not
    cut, and whoever writes holds its server's lock, so that nobody else has one
    unfinished. -/
theorem abandoned_answers (hlocks : Locks s (l :: ls)) (h : Framed codec s (l :: ls))
    (hA : Asserts codec β op l) (hans : op.Answers s l b s' l')
    (ha : Abandoned k bytes s (l :: ls)) : Abandoned k bytes s' (l' :: ls) := by
  have hown := hlocks.owned l (List.mem_cons_self ..)
  have hleaves := leaves_of_answers hlocks.sound (fun i hi => (hown.server i hi).1) hA hans
  rcases ha with ⟨hk, hstdin, hwho⟩
  rcases written_answers hA hans hk with ⟨hcut, hwritten⟩
  have hothers : (s.children k).cut = true ∨ ∃ m ∈ ls, m.finished = true ∧ m.Midway s k := by
    refine hwho.imp_right ?_
    rintro ⟨m, hm, hover, hmk⟩
    rcases List.mem_cons.mp hm with rfl | hm
    · rw [hA.1] at hover
      cases hover
    · exact ⟨m, hm, hover, hmk⟩
  refine ⟨Nat.lt_of_lt_of_le hk hleaves.spawned, ?_, ?_⟩
  · rcases hwritten with hsame | ⟨i, x, hkind, hi, hx, rfl, hreading⟩
    · exact hsame.trans hstdin
    · have huncut := (h.writes l (List.mem_cons_self ..)).uncut hkind i x hi hx hreading
      rcases hothers with hc | ⟨m, hm, _, _, j, y, hj, hy, hyx⟩
      · rw [huncut] at hc
        cases hc
      · have hserver := (hlocks.sound.inner j
          ((hlocks.owned m (List.mem_cons_of_mem _ hm)).server j hj).1 y hy).2
        rw [hyx, (hlocks.sound.inner i (hown.server i hi).1 x hx).2] at hserver
        subst hserver
        exact absurd hj (((List.pairwise_cons.mp hlocks.apart).1 m hm).server i hi)
  · refine hothers.imp hcut ?_
    rintro ⟨m, hm, hover, hmk⟩
    refine ⟨m, List.mem_cons_of_mem _ hm, hover, ?_⟩
    exact ((h.writes m (List.mem_cons_of_mem _ hm)).leave
      (hlocks.owned m (List.mem_cons_of_mem _ hm)) hlocks.sound hleaves
      ((List.pairwise_cons.mp hlocks.apart).1 m hm)).2 k hmk

theorem abandoned_call (ha : Abandoned k bytes s ls) (call : Call V T) :
    Abandoned k bytes s (call.fresh :: ls) :=
  ⟨ha.1, ha.2.1, ha.2.2.imp_right fun ⟨m, hm, hmk⟩ => ⟨m, List.mem_cons_of_mem _ hm, hmk⟩⟩

theorem abandoned_ended (ha : Abandoned k bytes s (l :: ls)) (handed : Option Nat) :
    Abandoned k bytes s ({ l with finished := true, handed := handed } :: ls) := by
  refine ⟨ha.1, ha.2.1, ha.2.2.imp_right ?_⟩
  rintro ⟨m, hm, hover, hmk⟩
  rcases List.mem_cons.mp hm with rfl | hm
  · exact ⟨_, List.mem_cons_self .., rfl, hmk⟩
  · exact ⟨m, List.mem_cons_of_mem _ hm, hover, hmk⟩

theorem abandoned_env {c : ServerChoice} (ha : Abandoned k bytes s ls) (hs : s.env c = some s') :
    Abandoned k bytes s' ls := by
  have hset : ∀ (j : Nat) (g : Child → Child),
      (∀ c, (g c).stdin = c.stdin ∧ (g c).cut = c.cut) → Abandoned k bytes (s.setChild j g) ls := by
    intro j g hg
    have hsame : ((s.setChild j g).children k).stdin = (s.children k).stdin ∧
        ((s.setChild j g).children k).cut = (s.children k).cut := by
      rw [setChild_children]
      split
      · rename_i hkj
        rw [hkj]
        exact hg _
      · exact ⟨rfl, rfl⟩
    exact ⟨ha.1, hsame.1.trans ha.2.1, ha.2.2.imp_left hsame.2.trans⟩
  cases c with
  | exited j | closed j =>
      cases hs
      exact hset j _ fun _ => ⟨rfl, rfl⟩
  | _ => cases hs

theorem abandoned_release (hlocks : Locks s (l :: ls)) (h : Framed codec s (l :: ls))
    (hr : Caller.release (s, l) = some (s', l')) (ha : Abandoned k bytes s (l :: ls)) :
    Abandoned k bytes s' (l' :: ls) := by
  have hown := hlocks.owned l (List.mem_cons_self ..)
  have happart := (List.pairwise_cons.mp hlocks.apart).1
  rcases ha with ⟨hk, hstdin, hwho⟩
  -- Where the call that lets go keeps its server and its part, so does everyone.
  have hkeep : ∀ {t : Slot} {m : Caller}, m.finished = l.finished → t.spawned = s.spawned →
      (t.children k).stdin = (s.children k).stdin → (t.children k).cut = (s.children k).cut →
      (l.Midway s k → m.Midway t k) → (∀ m ∈ ls, m.Midway s k → m.Midway t k) →
      Abandoned k bytes t (m :: ls) := by
    intro t m hover hspawned hs hc hl hothers
    refine ⟨hspawned ▸ hk, hs.trans hstdin, hwho.imp hc.trans ?_⟩
    rintro ⟨m', hm', hover', hmk⟩
    rcases List.mem_cons.mp hm' with rfl | hm'
    · exact ⟨m, List.mem_cons_self .., hover.trans hover', hl hmk⟩
    · exact ⟨m', List.mem_cons_of_mem _ hm', hover', hothers m' hm' hmk⟩
  rcases (Caller.release_cases hr).2 with ⟨j, _, rfl, rfl⟩ | ⟨_, i, hi, rfl, rfl⟩ |
    ⟨_, hserver, hslot, rfl, ⟨_, rfl⟩ | ⟨i, hi, hne, rfl⟩⟩
  · have hsame : ((s.kill j).children k).stdin = (s.children k).stdin ∧
        ((s.kill j).children k).cut = (s.children k).cut := by
      rw [Slot.kill, setChild_children]
      split
      · rename_i hkj
        rw [hkj]
        exact ⟨rfl, rfl⟩
      · exact ⟨rfl, rfl⟩
    exact hkeep rfl rfl hsame.1 hsame.2 id fun _ _ => id
  · have hleave := @leaves_leave s l i l.part hlocks.sound (hown.server i hi).1 hi
    rcases @leave_children s i l.part k with ⟨cut, heq, hyes, hno⟩
    refine ⟨by rw [leave_spawned]; exact hk, by rw [heq]; exact hstdin, ?_⟩
    rw [heq]
    by_cases hc : cuts s i l.part k
    · exact .inl (hyes hc)
    · rw [hno hc]
      refine hwho.imp_right ?_
      rintro ⟨m, hm, hover, hmk⟩
      rcases List.mem_cons.mp hm with rfl | hm
      · rcases hmk with ⟨hpart, j, x, hj, hx, hxk⟩
        rw [hi] at hj
        cases hj
        exact absurd ⟨hpart, x, hx, hxk⟩ hc
      · refine ⟨m, List.mem_cons_of_mem _ hm, hover, ?_⟩
        exact ((h.writes m (List.mem_cons_of_mem _ hm)).leave
          (hlocks.owned m (List.mem_cons_of_mem _ hm)) hlocks.sound hleave (happart m hm)).2 k hmk
  · exact hkeep rfl rfl rfl rfl id fun _ _ => id
  · have hunknown := hlocks.unknown hslot hserver hi hne
    rcases @dropServer_children { s with locked := false } i k with ⟨alive, heq, _⟩
    refine hkeep rfl (dropServer_spawned ..) (by rw [heq]) (by rw [heq]) ?_ ?_
    · intro hl
      rcases hl with ⟨_, j, _, hj, _⟩
      rw [hserver] at hj
      cases hj
    · intro m hm hmk
      exact (midway_dropServer (hunknown m (List.mem_cons_of_mem _ hm))).mpr hmk

end Abandoned

/-! ## The result -/

/-- A slot before the first call. Its servers have no child, and may be known. -/
structure Slot.Fresh (s : Slot) : Prop where
  cache : ∀ i, s.cache.server = some i → i < s.built ∧ (s.servers i).published = true
  inner : ∀ i, (s.servers i).inner = none
  spawned : s.spawned = 0

theorem joint_framed (codec : ServerCodec V) :
    Concurrent.Joint (calls (T := T) codec) resetBetween
      (fun p l => p.wp (calls (T := T) codec).localised (Asserts codec) Done l)
      (fun s ls => Locks s ls ∧ Framed codec s ls) := by
  refine Concurrent.Joint.of_wp ?_ ?_ ?_ ?_ ?_ ?_ ?_ ?_
  · exact fun call _ _ _ => main_spec codec call
  · exact fun s ls ls' hp h => ⟨h.1.perm hp, h.2.perm hp⟩
  · exact fun s ls call hcall h => ⟨locks_call h.1 call hcall, framed_call h.2 call⟩
  · intro β op s l ls c b s' l' hlim hA h hr
    have hans := ServerOp.answers_of_respond hr
    exact ⟨locks_answers h.1 hA hans, framed_answers h.1 h.2 hlim hA hans⟩
  · exact fun r s l ls hdone h => ⟨locks_ended h.1 _ hdone.2, framed_ended h.2 _⟩
  · exact fun op k s l ls _ _ _ h => ⟨nofun, locks_ended h.1 none nofun, framed_ended h.2 none⟩
  · exact fun s l ls s' l' h hr => ⟨locks_release h.1 hr, framed_release h.1 h.2 hr⟩
  · exact fun s ls c s' h hs => ⟨locks_env h.1 hs, framed_env h.2 hs⟩

theorem joint_abandoned (codec : ServerCodec V) (k : Nat) (bytes : List UInt8) :
    Concurrent.Joint (calls (T := T) codec) resetBetween
      (fun p l => p.wp (calls (T := T) codec).localised (Asserts codec) Done l)
      (fun s ls => (Locks s ls ∧ Framed codec s ls) ∧ Abandoned k bytes s ls) := by
  have hframed := joint_framed (T := T) codec
  refine Concurrent.Joint.of_wp ?_ ?_ ?_ ?_ ?_ ?_ ?_ ?_
  · exact fun call _ _ _ => main_spec codec call
  · exact fun s ls ls' hp h => ⟨⟨h.1.1.perm hp, h.1.2.perm hp⟩, h.2.1, h.2.2.1,
      h.2.2.2.imp_right fun ⟨m, hm, hmk⟩ => ⟨m, hp.mem_iff.mp hm, hmk⟩⟩
  · exact fun s ls call hcall h =>
      ⟨⟨locks_call h.1.1 call hcall, framed_call h.1.2 call⟩, abandoned_call h.2 call⟩
  · intro β op s l ls c b s' l' hlim hA h hr
    have hans := ServerOp.answers_of_respond hr
    exact ⟨⟨locks_answers h.1.1 hA hans, framed_answers h.1.1 h.1.2 hlim hA hans⟩,
      abandoned_answers h.1.1 h.1.2 hA hans h.2⟩
  · exact fun r s l ls hdone h =>
      ⟨⟨locks_ended h.1.1 _ hdone.2, framed_ended h.1.2 _⟩, abandoned_ended h.2 _⟩
  · exact fun op k s l ls _ _ _ h =>
      ⟨nofun, ⟨locks_ended h.1.1 none nofun, framed_ended h.1.2 none⟩, abandoned_ended h.2 none⟩
  · exact fun s l ls s' l' h hr => ⟨⟨locks_release h.1.1 hr, framed_release h.1.1 h.1.2 hr⟩,
      abandoned_release h.1.1 h.1.2 hr h.2⟩
  · exact fun s ls c s' h hs =>
      ⟨⟨locks_env h.1.1 hs, framed_env h.1.2 hs⟩, abandoned_env h.2 hs⟩

/-- What was written to a child is made of whole frames and the beginning of at most
    one more. Where such a beginning is there, and no call is still writing it,
    nothing is written to this child any more. -/
theorem frames_whole (codec : ServerCodec V)
    {g : Concurrent.Config ServerOp Slot Caller (Reply T)}
    (h : Transition.Reachable ((calls (V := V) codec).system resetBetween Slot.Fresh) g) :
    ∀ k < g.shared.spawned,
      (∃ whole part, (g.shared.children k).stdin = whole ++ part ∧ Whole codec whole ∧
        (part = [] ∨ Begun codec part)) ∧
      (¬ Whole codec (g.shared.children k).stdin →
        (∀ l ∈ g.locals, l.finished = false → ¬ l.Midway g.shared k) →
        ∀ es g', Transition.Run ((calls (V := V) codec).system resetBetween Slot.Fresh) g es g' →
          (g'.shared.children k).stdin = (g.shared.children k).stdin) := by
  have hinit : ∀ s : Slot, s.Fresh → Locks s [] ∧ Framed codec s [] := by
    intro s hs
    refine ⟨⟨⟨hs.cache, fun i _ x hx => ?_⟩, nofun, .nil⟩, fun k hk => ?_, nofun⟩
    · rw [hs.inner i] at hx
      cases hx
    · rw [hs.spawned] at hk
      cases hk
  rcases (joint_framed codec).reachable hinit h with ⟨hT, hlocks, hframed⟩
  intro k hk
  refine ⟨?_, fun hbroken hlive es g' hrun => ?_⟩
  · rcases hframed.child k hk with ⟨_, hw⟩ | ⟨_, whole, part, hw, _, hb, heq⟩ | ⟨l, hl, hlk⟩
    · exact ⟨_, [], (List.append_nil _).symm, hw, .inl rfl⟩
    · exact ⟨whole, part, heq, hw, .inr hb⟩
    · rcases (hframed.writes l hl).part k hlk with ⟨_, hb, whole, hw, heq⟩
      exact ⟨whole, l.part, heq, hw, .inr hb⟩
  · have ha : Abandoned k (g.shared.children k).stdin g.shared g.locals := by
      refine ⟨hk, rfl, ?_⟩
      rcases hframed.child k hk with ⟨_, hw⟩ | ⟨hc, _⟩ | ⟨l, hl, hlk⟩
      · exact absurd hw hbroken
      · exact .inl hc
      · refine .inr ⟨l, hl, ?_, hlk⟩
        cases hover : l.finished with
        | true => rfl
        | false => exact absurd hlk (hlive l hl hover)
    exact ((joint_abandoned codec k _).run hT ⟨⟨hlocks, hframed⟩, ha⟩ hrun).2.2.2.1

/-! ### Two runs -/

/-- One server, without a child. -/
def oneServer : Slot :=
  { Slot.new with
    built := 1
    servers := fun _ => { Server.new (launchOf ["a"]) 0 with published := true } }

theorem oneServer_fresh : oneServer.Fresh :=
  ⟨nofun, fun _ => rfl, rfl⟩

open Concurrent.Step ServerChoice in
/-- A request spawns the child and is dropped after one byte of its frame. -/
def cutRun : List (Concurrent.Step (Call Unit Unit) ServerChoice) :=
  call (.request 0 "run" () .ok 0) :: spawning 0 ++
  [perform 0 .pass, perform 0 .pass, perform 0 (line ""), perform 0 .pass, perform 0 .pass,
    perform 0 .pass, perform 0 (accepted 1), drop 0]

open Concurrent.Step ServerChoice in
/-- The next request writes its own frame behind it. -/
def tornRun : List (Concurrent.Step (Call Unit Unit) ServerChoice) :=
  cutRun ++
  [release 0, call (.request 0 "run" () .ok 0), perform 1 .pass, perform 1 .pass, perform 1 .pass,
    perform 1 .pass, perform 1 (accepted 2)]

theorem cutRun_allowed : (calls (T := Unit) readyCodec).allowed resetBetween
    { shared := oneServer, calls := [] } cutRun := by
  refine And.intro (fun i hi => ?_) fun g hg => ?_
  · cases hi
    exact ⟨Nat.one_pos, rfl⟩
  cases hg
  refine And.intro (fun _ x hx => ?_) fun g hg => ?_
  · cases hx
  cases hg
  iterate 11
    refine And.intro trivial fun g hg => ?_
    cases hg
  trivial

/-- The beginning of the frame stays the last that was written. -/
theorem frames_whole_cut : ∃ g : SlotState Unit, g.shared.spawned = 1 ∧
    (g.shared.children 0).stdin = [1] ∧
    ∀ es g', Transition.Run
      ((calls (V := Unit) readyCodec).system resetBetween Slot.Fresh) g es g' →
        (g'.shared.children 0).stdin = [1] := by
  obtain ⟨g, hg, hspawned, hstdin, hover⟩ : ∃ g : SlotState Unit,
      Transition.play (calls (T := Unit) readyCodec).move { shared := oneServer, calls := [] }
        cutRun = some g ∧ g.shared.spawned = 1 ∧ (g.shared.children 0).stdin = [1] ∧
        g.locals.map Caller.finished = [true] := ⟨_, rfl, rfl, rfl, rfl⟩
  have hwhole := (frames_whole readyCodec
    (Concurrent.reachable_allowed oneServer_fresh hg cutRun_allowed) 0
    (by rw [hspawned]; exact Nat.one_pos)).2
  rw [hstdin] at hwhole
  refine ⟨g, hspawned, hstdin, hwhole (fun h => ?_) fun l hl hlive => ?_⟩
  · exact absurd (h.last (List.cons_ne_nil _ _)) (by decide)
  · have hmem := List.mem_map_of_mem (f := Caller.finished) hl
    rw [hover, List.mem_singleton, hlive] at hmem
    cases hmem

theorem tornRun_allowed : (calls (T := Unit) readyCodec).allowed onKnown
    { shared := oneServer, calls := [] } tornRun := by
  refine And.intro (fun i hi => ?_) fun g hg => ?_
  · cases hi
    exact ⟨Nat.one_pos, rfl⟩
  cases hg
  iterate 13
    refine And.intro trivial fun g hg => ?_
    cases hg
  refine And.intro (fun i hi => ?_) fun g hg => ?_
  · cases hi
    exact ⟨Nat.one_pos, rfl⟩
  cases hg
  iterate 5
    refine And.intro trivial fun g hg => ?_
    cases hg
  trivial

/-- A request is dropped in the middle of its frame, and the next one writes behind
    it. -/
theorem frame_torn : ¬ ∀ (codec : ServerCodec Unit) (g : SlotState Unit),
    Transition.Reachable ((calls (V := Unit) codec).system onKnown Slot.Fresh) g →
    ∀ k < g.shared.spawned, ∃ whole part, (g.shared.children k).stdin = whole ++ part ∧
      Whole codec whole ∧ (part = [] ∨ Begun codec part) := by
  intro h
  obtain ⟨g, hg, hspawned, hstdin⟩ : ∃ g : SlotState Unit,
      Transition.play (calls (T := Unit) readyCodec).move { shared := oneServer, calls := [] }
        tornRun = some g ∧ g.shared.spawned = 1 ∧ (g.shared.children 0).stdin = [1, 1, 10] :=
    ⟨_, rfl, rfl, rfl⟩
  have hframe : ∀ bytes, Frame readyCodec bytes → bytes = [1, 10] := by
    rintro _ ⟨_, _, ht, rfl⟩
    cases ht
    rfl
  rcases h readyCodec g (Concurrent.reachable_allowed oneServer_fresh hg tornRun_allowed) 0
    (by rw [hspawned]; exact Nat.one_pos) with ⟨whole, part, heq, ⟨lines, rfl, hlines⟩, hpart⟩
  rw [hstdin] at heq
  cases lines with
  | nil =>
      cases heq
      rcases hpart with hnil | ⟨rest, _, hrest⟩
      · cases hnil
      · exact absurd (hframe _ hrest) nofun
  | cons line lines =>
      rw [hframe line (hlines line (List.mem_cons_self ..))] at heq
      exact absurd heq nofun

end TinyRuntime.PyServer
