import TinyRuntime.Lib.Progress
import TinyRuntime.Lib.Typestate
import TinyRuntime.Resolve.Exclusive
import TinyRuntime.Resolve.Nested

/-!
# Installs Do Not Wait for Each Other Forever

A call that waits for the lock of an install directory waits on a thread of the blocking
pool, and the call that has the lock needs a thread for every next closure. So enough
calls that wait can keep the one they wait for from ever going on.

It does not happen while there are no more calls than threads. Whatever the calls did
before, and whoever was dropped where, they all end when nobody interferes any more,
without any lock attempt having to fail: every lock is then released and every thread is
free.

## Main definitions

* `patient`: No lock attempt fails.
* `handOff`: When a closure may begin and end.
* `Attributed`: Every thread that is at work and every lock is some call's.
* `Installs.AtRest`: All calls have ended, and nothing is left of them.
* `Installs.Answered`: The calls that had not ended have returned.

## Theorems

* `run_walks`: A call ends between its closures.
* `attributed_joint`: Threads and locks are accounted for.
* `installs_end`: No more calls than threads, and all of them end.
* `installs_stuck`: One thread, and two calls that do not.
-/

namespace TinyRuntime

open Prog (act attempt)

/-! ## Closures -/

/-- A closure begins where none is at work, and ends where one is. -/
def handOff : ∀ β, InstallOp β → Bool → Option Bool
  | _, .inl (.begin _), false => some true
  | _, .inl (.begin _), true => none
  | _, .inl .finish, true => some false
  | _, .inl .finish, false => none
  | _, _, working => some working

/-- The effects by which a closure neither begins nor ends. -/
def InstallOp.inside : ∀ β, InstallOp β → Prop
  | _, .inl (.begin _) => False
  | _, .inl .finish => False
  | _, _ => True

section Walks

variable {α : Type} {S : Site} {r : InstallRequest}

theorem handOff_inside {β : Type} {op : InstallOp β} (h : op.inside) (working : Bool) :
    handOff β op working = some working := by
  cases op with
  | inr op => rfl
  | inl op => cases op <;> first | rfl | exact absurd h id

/-- A program within a closure, or between two. -/
theorem walks_inside {p : Prog InstallOp α} (h : p.Uses InstallOp.inside) (working : Bool) :
    p.Walks handOff working working :=
  Prog.walks_uses (Prog.uses_mono (fun _ _ h => handOff_inside h working) h)

theorem onThread_walks {job : BlockingJob} {work : Prog InstallOp α}
    (h : work.Uses InstallOp.inside) : (Install.onThread job work).Walks handOff false false := by
  rw [Install.onThread]
  refine Prog.walks_bind (Prog.walks_op rfl) fun _ => ?_
  refine Prog.walks_bind (walks_inside h true) fun _ => ?_
  exact Prog.walks_bind (Prog.walks_op rfl) fun _ => Prog.walks_pure _

theorem blocking_walks {language : Language} {job : BlockingJob}
    {work : Prog InstallOp (Except Error α)} (h : work.Uses InstallOp.inside) :
    (Install.blocking language job work).Walks handOff false false := by
  rw [Install.blocking]
  refine Prog.walks_bind (Prog.walks_op rfl) fun _ => ?_
  refine Prog.walks_bind (walks_inside h true) fun _ => ?_
  refine Prog.walks_bind (Prog.walks_op rfl) fun panic => ?_
  cases panic with
  | none => exact Prog.walks_pure _
  | some reason => exact Prog.walks_pure _

theorem createDirs_walks (path : PathBuf) :
    (Install.createDirs path).run.Walks handOff false false := by
  refine Prog.walks_bind (onThread_walks ((Prog.uses_op _).mpr trivial)) fun b => ?_
  cases b with
  | error reason => exact Prog.walks_pure _
  | ok u => exact Prog.walks_pure _

theorem createParent_walks (path : PathBuf) :
    (Install.createParent path).run.Walks handOff false false := by
  rw [Install.createParent]
  split
  · exact createDirs_walks _
  · exact Prog.walks_pure _

theorem acquire_walks (language : Language) (installDir : PathBuf) :
    (Install.acquire language installDir).run.Walks handOff false false := by
  refine Prog.walks_run_bind (createParent_walks _) fun _ => blocking_walks ?_
  refine Prog.uses_bind ((Prog.uses_op _).mpr trivial) fun b => ?_
  cases b with
  | error reason => trivial
  | ok u =>
      refine Prog.uses_bind ((Prog.uses_op _).mpr trivial) fun b => ?_
      cases b <;> trivial

theorem removeFile_walks (path : PathBuf) :
    (Install.removeFile path).Walks handOff false false :=
  Prog.walks_bind (onThread_walks ((Prog.uses_op _).mpr trivial)) fun _ => Prog.walks_pure _

theorem inside_embed (p : Prog StoreOp α) :
    (p.embed fun _ op => (.inr op : InstallOp _)).Uses InstallOp.inside := by
  induction p with
  | done a => trivial
  | perform e k ih => exact ⟨trivial, ih⟩

theorem discard_walks (removals : Nat) (path : PathBuf) :
    (Install.discard removals path).Walks handOff false false :=
  Prog.walks_bind (onThread_walks (inside_embed _)) fun _ => Prog.walks_pure _

/-! ### The download -/

theorem writeAll_inside (rounds : Nat) : ∀ buffer,
    (Install.writeAll rounds buffer).Uses InstallOp.inside := by
  induction rounds with
  | zero =>
      intro buffer
      cases buffer <;> trivial
  | succ rounds ih =>
      intro buffer
      cases buffer with
      | nil => trivial
      | cons byte rest =>
          refine Prog.uses_bind ((Prog.uses_op _).mpr trivial) fun b => ?_
          cases b with
          | error reason => trivial
          | ok n =>
              cases n with
              | zero => trivial
              | succ n => exact ih _

theorem writeChunks_walks (language : Language) (rounds : Nat) : ∀ hashed,
    (Install.writeChunks language rounds hashed).Walks handOff false false := by
  induction rounds with
  | zero => exact fun _ => Prog.walks_pure _
  | succ rounds ih =>
      intro hashed
      refine Prog.walks_bind (Prog.walks_op rfl) fun b => ?_
      cases b with
      | error e => exact Prog.walks_pure _
      | ok chunk =>
          cases chunk with
          | none => exact Prog.walks_pure _
          | some bytes =>
              refine Prog.walks_bind (onThread_walks (writeAll_inside _ _)) fun b => ?_
              cases b with
              | error reason => exact Prog.walks_pure _
              | ok u => exact ih _

theorem writeBody_walks (r : InstallRequest) :
    (Install.writeBody r).Walks handOff false false := by
  refine Prog.walks_bind (writeChunks_walks _ _ _) fun b => ?_
  cases b with
  | error e => exact Prog.walks_pure _
  | ok hashed =>
      refine Prog.walks_bind (Prog.walks_op rfl) fun b => ?_
      cases b with
      | error reason => exact Prog.walks_pure _
      | ok u => exact Prog.walks_pure _

theorem streamToFile_walks (distribution : Distribution) (target : PathBuf) :
    (Install.streamToFile S r distribution target).Walks handOff false false := by
  refine Prog.walks_bind (Prog.walks_op rfl) fun b => ?_
  cases b with
  | error e => exact Prog.walks_pure _
  | ok u =>
      refine Prog.walks_bind (onThread_walks ((Prog.uses_op _).mpr trivial)) fun b => ?_
      cases b with
      | error reason => exact Prog.walks_pure _
      | ok u =>
          refine Prog.walks_bind (writeBody_walks r) fun _ => ?_
          exact Prog.walks_bind (Prog.walks_op rfl) fun _ => Prog.walks_pure _

theorem fetch_walks (distribution : Distribution) (target : PathBuf) :
    (Install.fetch S r distribution target).run.Walks handOff false false := by
  refine Prog.walks_run_bind (createParent_walks _) fun _ => ?_
  refine Prog.walks_bind (streamToFile_walks distribution target) fun b => ?_
  cases b with
  | error e => exact Prog.walks_bind (removeFile_walks _) fun _ => Prog.walks_pure _
  | ok digest =>
      dsimp only
      split
      · exact Prog.walks_pure _
      · exact Prog.walks_bind (removeFile_walks _) fun _ => Prog.walks_pure _

/-! ### What was downloaded -/

theorem unpacks_inside {β : Type} {op : InstallOp β} {staging : PathBuf}
    (h : op.Unpacks staging) : op.inside := by
  cases op with
  | inr op => trivial
  | inl op => cases op <;> trivial

theorem unpack_inside (rounds : Nat) (archive staging : PathBuf) (format : ArchiveFormat) :
    (Install.unpack S rounds archive staging format).Uses InstallOp.inside := by
  refine Prog.uses_bind ((Prog.uses_op _).mpr trivial) fun b => ?_
  cases b with
  | error reason => trivial
  | ok u =>
      have hread : (Install.readAll rounds []).Uses InstallOp.inside :=
        Prog.uses_mono (fun _ _ => unpacks_inside) (@unpacks_readAll staging rounds [])
      refine Prog.uses_bind hread fun b => ?_
      cases b with
      | error reason => trivial
      | ok bytes =>
          dsimp only
          split
          · trivial
          · exact Prog.uses_mono (fun _ _ => unpacks_inside) (unpacks_unpackAll _)

theorem singleRoot_inside (staging : PathBuf) :
    (Install.singleRoot staging).Uses InstallOp.inside := by
  refine Prog.uses_bind ((Prog.uses_op _).mpr trivial) fun b => ?_
  cases b with
  | error reason => trivial
  | ok entries =>
      dsimp only
      split <;> trivial

theorem extract_walks (archive staging : PathBuf) (format : ArchiveFormat) :
    (Install.extract S r archive staging format).Walks handOff false false := by
  refine blocking_walks (Prog.uses_bind ((Prog.uses_op _).mpr trivial) fun b => ?_)
  cases b with
  | error reason => trivial
  | ok u =>
      refine Prog.uses_bind (unpack_inside _ _ _ _) fun b => ?_
      cases b with
      | error reason => trivial
      | ok u =>
          refine Prog.uses_bind (singleRoot_inside _) fun b => ?_
          cases b <;> trivial

theorem promote_walks (staged destination : PathBuf) :
    (Install.promote r staged destination).Walks handOff false false :=
  blocking_walks (inside_embed _)

theorem unpackAndPromote_walks (distribution : Distribution) (archivePath installDir : PathBuf) :
    (Install.unpackAndPromote S r distribution archivePath installDir).run.Walks handOff
      false false := by
  refine Prog.walks_bind (Prog.walks_op rfl) fun staging => ?_
  refine Prog.walks_bind (discard_walks _ _) fun _ => ?_
  refine Prog.walks_bind (extract_walks _ _ _) fun b => ?_
  cases b with
  | error e =>
      refine Prog.walks_bind (discard_walks _ _) fun _ => ?_
      exact Prog.walks_bind (removeFile_walks _) fun _ => Prog.walks_pure _
  | ok unpacked =>
      refine Prog.walks_bind (promote_walks _ _) fun _ => ?_
      refine Prog.walks_bind (discard_walks _ _) fun _ => ?_
      exact Prog.walks_bind (removeFile_walks _) fun _ => Prog.walks_pure _

/-- A call ends between its closures. -/
theorem run_walks (S : Site) (r : InstallRequest) :
    (Install.run S r).run.Walks handOff false false := by
  refine Prog.walks_run_bind (Prog.walks_op rfl) fun distribution => ?_
  refine Prog.walks_run_bind (createDirs_walks _) fun _ => ?_
  refine Prog.walks_run_bind (acquire_walks _ _) fun _ => ?_
  refine Prog.walks_run_bind (Prog.walks_op rfl) fun found => ?_
  cases found with
  | some layout => exact Prog.walks_pure _
  | none =>
      refine Prog.walks_run_bind (fetch_walks _ _) fun _ => ?_
      refine Prog.walks_run_bind (unpackAndPromote_walks _ _ _) fun _ => ?_
      refine Prog.walks_run_bind (Prog.walks_op rfl) fun found => ?_
      cases found <;> exact Prog.walks_pure _

end Walks

/-! ## Threads and locks -/

/-- Whether a closure of the call is at work. -/
def Installation.occupied (l : Installation) : Bool :=
  l.working.isSome

/-- Every thread that is at work and every lock is some call's, and no call that has ended
    has a thread. -/
structure Attributed (s : Installing) (ls : List Installation) : Prop where
  busy : s.busy = Concurrent.tally (fun l => if l.occupied then 1 else 0) ls
  held : ∀ p ∈ s.locked, ∃ l ∈ ls, l.lock = some p
  rested : ∀ l ∈ ls, l.ended = true → l.working = none

section Attributed

variable {S : Site} {s s' : Installing} {l l' : Installation} {ls : List Installation}
  {c : InstallChoice}

theorem Attributed.perm {ls' : List Installation} (hp : ls.Perm ls') (h : Attributed s ls) :
    Attributed s ls' :=
  ⟨h.busy.trans (Concurrent.tally_perm _ hp),
    fun p hmem => (h.held p hmem).imp fun _ hl => ⟨hp.mem_iff.mp hl.1, hl.2⟩,
    fun l hl => h.rested l (hp.mem_iff.mpr hl)⟩

/-- The locks after one call has gone on, if it keeps its lock. -/
theorem held_keeps (h : ∀ p ∈ s.locked, ∃ x ∈ l :: ls, x.lock = some p)
    (hlock : l'.lock = l.lock) : ∀ p ∈ s.locked, ∃ x ∈ l' :: ls, x.lock = some p := by
  intro p hp
  rcases h p hp with ⟨x, hx, hxp⟩
  rcases List.mem_cons.mp hx with rfl | hx
  · exact ⟨l', List.mem_cons_self .., hlock.trans hxp⟩
  · exact ⟨x, List.mem_cons_of_mem _ hx, hxp⟩

/-- Only the beginning and the end of a closure change whether one is at work. -/
theorem working_inside {β : Type} {op : InstallOp β} {b : β} (hop : op.inside)
    (h : op.respond S (s, l) c = some (b, s', l')) :
    l'.working = l.working ∧ s'.busy = s.busy := by
  cases op with
  | inr op =>
      rcases answers_of_inr h with ⟨_, _, _, _, rfl, rfl⟩
      exact ⟨by cases op <;> rfl, rfl⟩
  | inl op =>
      have ha := answers_of_inl h
      cases op with
      | begin job => exact absurd hop id
      | finish => exact absurd hop id
      | _ =>
          simp only [RunOp.Answers] at ha
          grind

/-- The locals say what the automaton says. -/
theorem occupied_respond {β : Type} {op : InstallOp β} {b : β} {working : Bool}
    (h : op.respond S (s, l) c = some (b, s', l'))
    (hnext : handOff β op l.occupied = some working) : l'.occupied = working := by
  by_cases hop : op.inside
  · rw [handOff_inside hop, Option.some.injEq] at hnext
    rw [Installation.occupied, (working_inside hop h).1]
    exact hnext
  · cases op with
    | inr op => exact absurd trivial hop
    | inl op =>
        cases op with
        | begin job =>
            rcases answers_of_inl h with ⟨_, _, rfl⟩
            cases hl : l.occupied <;> rw [hl] at hnext <;> cases hnext
            rfl
        | finish =>
            rcases answers_of_inl h with ⟨_, _, rfl⟩
            cases hl : l.occupied <;> rw [hl] at hnext <;> cases hnext
            rfl
        | _ => exact absurd trivial hop

theorem Attributed.call (h : Attributed s ls) (r : InstallRequest) :
    Attributed s (.new r :: ls) := by
  refine ⟨?_, fun p hp => ?_, List.forall_mem_cons.mpr ⟨fun hended => (by cases hended), h.rested⟩⟩
  · rw [Concurrent.tally_cons, ← h.busy]
    exact (Nat.zero_add _).symm
  · rcases h.held p hp with ⟨x, hx, hxp⟩
    exact ⟨x, List.mem_cons_of_mem _ hx, hxp⟩

theorem Attributed.perform {β : Type} {op : InstallOp β} {b : β} (h : Attributed s (l :: ls))
    (hA : Conduct S β op l) (hr : op.respond S (s, l) c = some (b, s', l')) :
    Attributed s' (l' :: ls) := by
  have hbusy := h.busy
  rcases List.forall_mem_cons.mp h.rested with ⟨_, hrested⟩
  have hrunning : l'.ended = true → l'.working = none := fun hended => by
    rw [(request_kept hr).2.2, hA.2.2.1] at hended
    cases hended
  rw [Concurrent.tally_cons] at hbusy
  refine ⟨?_, ?_, List.forall_mem_cons.mpr ⟨hrunning, hrested⟩⟩
  · rw [Concurrent.tally_cons]
    by_cases hop : op.inside
    · rcases working_inside hop hr with ⟨hw, hb⟩
      rw [hb, Installation.occupied, hw]
      exact hbusy
    · cases op with
      | inr op => exact absurd trivial hop
      | inl op =>
          cases op with
          | begin job =>
              rcases answers_of_inl hr with ⟨_, rfl, rfl⟩
              have hidle : l.occupied = false := by rw [Installation.occupied, hA.1.1]; rfl
              rw [hidle] at hbusy
              simp only [Installation.occupied, Option.isSome_some, if_true] at hbusy ⊢
              simp only [Bool.false_eq_true, if_false] at hbusy
              omega
          | finish =>
              rcases answers_of_inl hr with ⟨hworks, rfl, rfl⟩
              have hatwork : l.occupied = true := Option.isSome_iff_ne_none.mpr hworks
              rw [hatwork] at hbusy
              simp only [Installation.occupied, Option.isSome_none, Bool.false_eq_true,
                if_false] at hbusy ⊢
              simp only [if_true] at hbusy
              omega
          | _ => exact absurd trivial hop
  · cases op with
    | inr op =>
        rcases answers_of_inr hr with ⟨_, _, _, _, rfl, rfl⟩
        exact held_keeps h.held (after_lock op b)
    | inl op =>
        by_cases hop : op.keepsLock
        · rcases RunOp.locks_kept hop hr with ⟨hlock, hlocked⟩
          rw [hlocked]
          exact held_keeps h.held hlock
        · cases op with
          | lockExclusive path =>
              rcases answers_of_inl hr with ⟨_, _, rfl, rfl⟩ | ⟨_, rfl, rfl⟩
              · intro p hp
                rcases List.mem_cons.mp hp with rfl | hp
                · exact ⟨_, List.mem_cons_self .., rfl⟩
                · rcases h.held p hp with ⟨x, hx, hxp⟩
                  rcases List.mem_cons.mp hx with rfl | hx
                  · rw [hA.1.2.2] at hxp
                    cases hxp
                  · exact ⟨x, List.mem_cons_of_mem _ hx, hxp⟩
              · exact h.held
          | _ => exact absurd trivial hop

/-- A call that returns does so between its closures. -/
theorem Attributed.finish (h : Attributed s (l :: ls)) (hidle : l.occupied = false)
    (result : Except Error ResolvedRuntime) : Attributed s (l.close (some result) :: ls) := by
  have hw : l.working = none := by
    rw [Installation.occupied] at hidle
    exact Option.not_isSome_iff_eq_none.mp (by rw [hidle]; exact Bool.false_ne_true)
  refine ⟨?_, ?_, List.forall_mem_cons.mpr
    ⟨fun _ => rfl, (List.forall_mem_cons.mp h.rested).2⟩⟩
  · have hbusy := h.busy
    rw [Concurrent.tally_cons, hidle] at hbusy
    rw [Concurrent.tally_cons]
    exact hbusy
  · refine held_keeps h.held ?_
    rw [Installation.close, hw, if_neg (fun h => by cases h)]

/-- What a dropped call had goes to the closure that is left of it. -/
theorem Attributed.drop {β : Type} {op : InstallOp β} (h : Attributed s (l :: ls))
    (hA : Conduct S β op l) : Attributed s (l.leaves op ++ l.close none :: ls) := by
  have hbusy := h.busy
  rw [Concurrent.tally_cons] at hbusy
  have hrested := (List.forall_mem_cons.mp h.rested).2
  rw [Installation.leaves]
  cases hjob : InstallOp.job op l with
  | none =>
      have hw : l.working = none := by
        cases op with
        | inr op => exact hjob
        | inl op => cases op <;> first | exact hjob | cases hjob
      have hidle : l.occupied = false := by rw [Installation.occupied, hw]; rfl
      refine ⟨?_, ?_, List.forall_mem_cons.mpr ⟨fun _ => rfl, hrested⟩⟩
      · rw [hidle] at hbusy
        rw [List.nil_append, Concurrent.tally_cons]
        exact hbusy
      · refine held_keeps h.held ?_
        rw [Installation.close, hw, if_neg (fun h => by cases h)]
  | some job =>
      refine ⟨?_, fun p hp => ?_, ?_⟩
      · have horphan : (l.orphan job).occupied = l.occupied := rfl
        have hclosed : (l.close none).occupied = false := rfl
        rw [List.singleton_append, Concurrent.tally_cons, Concurrent.tally_cons, horphan, hclosed,
          if_neg Bool.false_ne_true, Nat.zero_add]
        exact hbusy
      · rcases h.held p hp with ⟨x, hx, hxp⟩
        rcases List.mem_cons.mp hx with rfl | hx
        · by_cases htake : job = .takeLock
          · subst htake
            refine ⟨_, List.mem_append_left _ (List.mem_singleton_self _), ?_⟩
            rw [Installation.orphan, if_pos rfl, hxp]
          · refine ⟨_, List.mem_append_right _ (List.mem_cons_self ..), ?_⟩
            -- A closure at work on the lock would be the one that is left.
            have hw : x.working ≠ some .takeLock := by
              intro hw
              cases op with
              | inr op => exact htake (Option.some.inj (hjob.symm.trans hw))
              | inl op =>
                  cases op with
                  | begin job' =>
                      have hfree : x.working = none := hA.1.1
                      rw [hw] at hfree
                      cases hfree
                  | _ => exact htake (Option.some.inj (hjob.symm.trans hw))
            rw [Installation.close, if_neg hw, hxp]
        · exact ⟨x, List.mem_append_right _ (List.mem_cons_of_mem _ hx), hxp⟩
      · refine List.forall_mem_append.mpr ⟨fun o ho hended => ?_,
          List.forall_mem_cons.mpr ⟨fun _ => rfl, hrested⟩⟩
        rw [List.mem_singleton] at ho
        subst ho
        have hrunning : l.ended = true := hended
        rw [hA.2.2.1] at hrunning
        cases hrunning

theorem Attributed.release (h : Attributed s (l :: ls))
    (hr : Installation.release (s, l) = some (s', l')) : Attributed s' (l' :: ls) := by
  rcases of_release hr with ⟨p, _, hlock, rfl, rfl⟩
  rcases List.forall_mem_cons.mp h.rested with ⟨hl, hrested⟩
  refine ⟨?_, fun q hq => ?_, List.forall_mem_cons.mpr ⟨hl, hrested⟩⟩
  · have hbusy := h.busy
    rw [Concurrent.tally_cons] at hbusy ⊢
    exact hbusy
  · rcases List.mem_filter.mp hq with ⟨hq, hne⟩
    rcases h.held q hq with ⟨x, hx, hxq⟩
    rcases List.mem_cons.mp hx with rfl | hx
    · rw [hlock] at hxq
      exact absurd (Option.some.inj hxq).symm (of_decide_eq_true hne)
    · exact ⟨x, List.mem_cons_of_mem _ hx, hxq⟩

/-- What is left of a dropped call ends with its closure. -/
theorem orphan_walks {p : Prog InstallOp (Except Error ResolvedRuntime)}
    (h : p.Walks handOff l.occupied false) :
    ∀ o ∈ Installation.orphans p l, o.1.Walks handOff o.2.occupied false := by
  intro o ho
  cases p with
  | done a => cases ho
  | perform e k =>
      simp only [Installation.orphans] at ho
      cases hjob : InstallOp.job e l with
      | none =>
          rw [hjob] at ho
          cases ho
      | some job =>
          rw [hjob, List.mem_singleton] at ho
          subst ho
          refine Prog.walks_upTo ?_ h
          rintro β op u u' hstop hnext
          cases op with
          | inr op => cases hstop
          | inl op =>
              cases op with
              | finish => cases u <;> cases hnext; rfl
              | _ => cases hstop

/-- Threads and locks are accounted for. -/
theorem attributed_joint (S : Site) :
    Concurrent.Joint (installs S) .none
      (fun p l => p.wp (installs S).localised (Conduct S)
        (fun result l => l.task = none → l.Told S result) l ∧ p.Walks handOff l.occupied false)
      Attributed := by
  refine (conduct_joint S).typed (run_walks S) ?_ ?_ ?_ ?_ ?_ ?_ ?_ ?_ ?_
  · exact fun op _ s l c b s' l' _ _ hr hnext => occupied_respond hr hnext
  · exact fun p l _ hw => orphan_walks hw
  · exact fun s ls ls' hp h => h.perm hp
  · exact fun s ls r _ h => h.call r
  · exact fun op _ s l ls c b s' l' _ hT h hr => h.perform hT.1 hr
  · exact fun result s l ls _ hidle h => h.finish hidle result
  · intro β op k s l ls _ _ hT h
    have hleaves : (Installation.orphans (.perform op k) l).map Prod.snd = l.leaves op := by
      simp only [Installation.orphans, Installation.leaves]
      cases InstallOp.job op l with
      | none => rfl
      | some job => rfl
    have hdropped := h.drop hT.1
    rw [← hleaves] at hdropped
    exact hdropped
  · exact fun s l ls s' l' h hr => h.release hr
  · exact fun s ls c s' _ hr => by cases hr

end Attributed

/-! ## Going on -/

/-- What a call at an effect may have to wait for: a thread, or a lock. -/
def InstallOp.waits {β : Type} (S : Site) (s : Installing) (op : InstallOp β) : Bool :=
  match op with
  | .inl (.begin _) => decide (S.threads ≤ s.busy)
  | .inl (.lockExclusive path) => s.locked.contains (S.lookup.locate path)
  | _ => false

/-- No attempt to take a lock fails. -/
def patient : Concurrent.Limits InstallOp Installing Installation InstallRequest InstallChoice where
  calls _ _ _ := True
  drops _ _ _ _ := True
  performs _ op _ _ c :=
    match op with
    | .inl (.lockExclusive _) => c = .pass
    | _ => True

section Onward

variable {S : Site} {s : Installing} {l : Installation} {β : Type}

/-- A name for a staging directory. -/
theorem exists_unused (S : Site) (r : InstallRequest) (s : Installing) (root : PathBuf) :
    ∃ id, Unused S r s (S.lookup.locate (root ++ [stagingName r.process id])) := by
  rcases fresh_name (s.stages.flatten ++ s.disk.paths.flatten ++
    S.lookup.locate (S.installDir r) ++ S.lookup.locate (S.aside r) ++
    S.lookup.locate (S.archivePath r)) r.process with ⟨id, hid⟩
  simp only [List.mem_append, not_or] at hid
  rcases hid with ⟨⟨⟨⟨hstages, hpaths⟩, hdir⟩, haside⟩, harchive⟩
  refine ⟨id, ?_⟩
  rw [S.lookup.join _ _ (stagingName_ne _ _)]
  have hmem : ∀ x, S.lookup.locate root ++ [stagingName r.process id] <+: x →
      stagingName r.process id ∈ x := fun x hx =>
    hx.subset (List.mem_append_right _ (List.mem_singleton_self _))
  refine ⟨fun h => hstages ?_, fun x hx hpre => absurd ?_ hpaths, fun h => hdir (hmem _ h),
    fun h => haside (hmem _ h), fun h => harchive (hmem _ h)⟩
  · exact List.mem_flatten.mpr ⟨_, h, hmem _ (List.prefix_refl _)⟩
  · exact List.mem_flatten.mpr ⟨_, hx, hmem _ hpre⟩

/-- An effect that waits for nothing has an answer. -/
theorem answered_of_not_waits {op : InstallOp β} (hA : Conduct S β op l)
    (hwaits : op.waits S s = false) :
    ∃ c r, op.respond S (s, l) c = some r ∧ patient.performs β op s l c := by
  cases op with
  | inr op =>
      have hanswer : ∃ c r, op.respond S.lookup declines s.disk c = some r := by
        cases op with
        | readDir path => exact ⟨.pass, _, rfl⟩
        | layout path => exact ⟨.pass, _, rfl⟩
        | isInside root candidate => exact absurd hA.1 id
        | _ => exact ⟨.failed "", _, rfl⟩
      rcases hanswer with ⟨c, r, hr⟩
      refine ⟨.store declines c, (r.1, { s with disk := r.2 }, l.after S op r.1), ?_, trivial⟩
      simp only [InstallOp.respond, hr, Option.map_some]
  | inl op =>
      cases op with
      | begin job => exact ⟨.pass, _, if_pos (Nat.lt_of_not_le (of_decide_eq_false hwaits)), trivial⟩
      | finish =>
          rcases Option.ne_none_iff_exists'.mp hA.1 with ⟨job, hjob⟩
          refine ⟨.pass, (none, { s with busy := s.busy - 1 },
            { l with working := none, reading := none }), ?_, trivial⟩
          simp only [InstallOp.respond, RunOp.respond, hjob]
      | lockExclusive path =>
          have hfree : S.lookup.locate path ∉ s.locked := fun hmem =>
            Bool.false_ne_true (hwaits.symm.trans (List.contains_iff_mem.mpr hmem))
          exact ⟨.pass, _, if_pos hfree, rfl⟩
      | stagingDir root =>
          rcases exists_unused S l.request s root with ⟨id, hid⟩
          exact ⟨.fresh id, _, if_pos hid, trivial⟩
      | readArchive => exact ⟨.failed "", _, by cases l.reading <;> rfl, trivial⟩
      | selectDistribution => exact ⟨.pass, _, rfl, trivial⟩
      | send url headers => exact ⟨.pass, _, rfl, trivial⟩
      | chunk => exact ⟨.pass, _, rfl, trivial⟩
      | flush => exact ⟨.pass, _, rfl, trivial⟩
      | close => exact ⟨.pass, _, rfl, trivial⟩
      | _ => exact ⟨.failed "", _, rfl, trivial⟩

end Onward

/-- One install call. -/
abbrev InstallCall :=
  Concurrent.Call InstallOp Installation (Except Error ResolvedRuntime)

/-- All calls have ended, and nothing is left of them. -/
structure Installs.AtRest (g : Installs) : Prop where
  ended : ∀ t ∈ g.calls, t.prog = none
  released : ∀ t ∈ g.calls, t.loc.lock = none
  unlocked : g.shared.locked = []
  idle : g.shared.busy = 0

/-- Every call that had not ended has returned. -/
def Installs.Answered (g g' : Installs) : Prop :=
  ∀ (i : Nat) t, g.calls[i]? = some t → t.prog ≠ none →
    ∃ t', g'.calls[i]? = some t' ∧ t'.loc.result ≠ none

section Rest

variable {S : Site} {g g' : Installs}

/-- A call without a program has ended. -/
theorem ended_of_reachable
    (h : Transition.Reachable ((installs S).system .none Installing.idle) g) :
    ∀ (i : Nat) t, g.calls[i]? = some t → t.prog = none → t.loc.ended = true := by
  refine Transition.invariant (fun g : Installs =>
    ∀ (i : Nat) t, g.calls[i]? = some t → t.prog = none → t.loc.ended = true) ?_ ?_ h
  · rintro ⟨s, calls⟩ ⟨_, rfl⟩ i t ht
    cases ht
  · rintro g e g' _ ih ⟨_, hm⟩ i t ht hprog
    have hturn := Concurrent.turn_of_move hm ht
    cases hturn with
    | kept h => exact ih i t h hprog
    | called a => cases hprog
    | performed h hr => cases hprog
    | finished h => rfl
    | dropped h => rfl
    | orphaned h ho => cases hprog
    | released h hr =>
        rcases of_release hr with ⟨p, hended, _, _, rfl⟩
        exact hended

/-- What a reachable configuration accounts for. -/
theorem attributed_reachable (h : Transition.Reachable ((installs S).system .none Installing.idle) g) :
    g.Each (fun p l => p.wp (installs S).localised (Conduct S)
      (fun result l => l.task = none → l.Told S result) l) ∧ Attributed g.shared g.locals := by
  have hinit : ∀ s, Installing.idle s → Attributed s [] := by
    rintro s ⟨hlocked, hbusy, _⟩
    refine ⟨hbusy, fun p hp => ?_, fun _ hl => by cases hl⟩
    rw [hlocked] at hp
    cases hp
  rcases (attributed_joint S).reachable hinit h with ⟨hT, hJ⟩
  exact ⟨fun t ht p hp => (hT t ht p hp).1, hJ⟩

/-- The threads at work are fewer than the calls that have not ended, if one of those is
    between its closures. -/
theorem occupied_lt {calls : List InstallCall} {t : InstallCall}
    (hrest : ∀ t ∈ calls, t.prog = none → t.loc.occupied = false) (ht : t ∈ calls)
    (hprog : t.prog ≠ none) (hidle : t.loc.occupied = false) :
    Concurrent.tally (fun l => if l.occupied then 1 else 0) (calls.map Concurrent.Call.loc) <
      calls.countP fun t => t.prog.isSome := by
  refine Concurrent.tally_lt_countP (fun u hu => ?_) ht (Option.isSome_iff_ne_none.mpr hprog)
    (if_neg (by rw [hidle]; exact Bool.false_ne_true))
  cases hp : u.prog with
  | none =>
      rw [hrest u hu hp]
      exact Nat.le_refl 0
  | some p =>
      split
      · exact Nat.le_refl 1
      · exact Nat.zero_le 1

/-- A call that cannot go on has ended, or waits between its effects. -/
theorem waits_of_stuck {i : Nat} {t : InstallCall}
    (hT : g.Each fun p l => p.wp (installs S).localised (Conduct S)
      (fun result l => l.task = none → l.Told S result) l)
    (hstuck : ∀ g', ¬ (installs S).Onward patient g g') (ht : g.calls[i]? = some t) :
    t.prog = none ∨ ∃ (β : Type) (op : InstallOp β) (k : _), t.prog = some (.perform op k) ∧
      Conduct S β op t.loc ∧ op.waits S g.shared = true := by
  rcases t with ⟨prog, l⟩
  cases prog with
  | none => exact .inl rfl
  | some p =>
      refine .inr ?_
      cases p with
      | done result =>
          refine absurd ⟨.finish i, rfl, trivial, ?_⟩
            (hstuck (g.put i none (g.shared, l.close (some result))))
          simp only [Concurrent.Calls.move, ht]
          rfl
      | perform op k =>
          have hA := (hT _ (List.mem_of_getElem? ht) _ rfl).1
          refine ⟨_, op, k, rfl, hA, ?_⟩
          by_contra hwaits
          rcases answered_of_not_waits hA (Bool.not_eq_true _ ▸ hwaits) with ⟨c, r, hr, hlim⟩
          refine hstuck (g.put i (some (k r.1)) r.2) ⟨.perform i c, rfl, ?_, ?_⟩
          · simp only [Concurrent.Limits.allow, ht]
            exact hlim
          · have hrespond : (installs S).handler.respond op (g.shared, l) c = some r := hr
            simp only [Concurrent.Calls.move, ht, hrespond, Option.map_some]

/-- A call that has ended and cannot go on has released its lock. -/
theorem released_of_stuck {i : Nat} {l : Installation}
    (hstuck : ∀ g', ¬ (installs S).Onward patient g g')
    (ht : g.calls[i]? = some { prog := none, loc := l }) (hended : l.ended = true) :
    l.lock = none := by
  cases hlock : l.lock with
  | none => rfl
  | some p =>
      have hr : ∃ r, (installs S).release (g.shared, l) = some r := by
        refine ⟨({ g.shared with locked := g.shared.locked.filter (· ≠ p) },
          { l with lock := none }), ?_⟩
        change Installation.release (g.shared, l) = _
        simp only [Installation.release, hended, hlock]
      rcases hr with ⟨r, hr⟩
      refine absurd ⟨.release i, rfl, trivial, ?_⟩ (hstuck (g.put i none r))
      simp only [Concurrent.Calls.move, ht, hr, Option.map_some]

/-- Calls that cannot go on have ended, if there are no more than threads. -/
theorem atRest_of_stuck (h : Transition.Reachable ((installs S).system .none Installing.idle) g)
    (hthreads : g.unfinished ≤ S.threads)
    (hstuck : ∀ g', ¬ (installs S).Onward patient g g') : g.AtRest := by
  rcases attributed_reachable h with ⟨hT, hJ⟩
  have hindex : ∀ t ∈ g.calls, ∃ i : Nat, g.calls[i]? = some t := fun t ht =>
    List.mem_iff_getElem?.mp ht
  have hended : ∀ t ∈ g.calls, t.prog = none → t.loc.ended = true := by
    intro t ht hprog
    rcases hindex t ht with ⟨i, hi⟩
    exact ended_of_reachable h i t hi hprog
  have hreleased : ∀ t ∈ g.calls, t.prog = none → t.loc.lock = none := by
    intro t ht hprog
    rcases hindex t ht with ⟨i, hi⟩
    rcases t with ⟨prog, l⟩
    cases hprog
    exact released_of_stuck hstuck hi (hended _ ht rfl)
  have hidle : ∀ t ∈ g.calls, t.prog = none → t.loc.occupied = false := by
    intro t ht hprog
    rw [Installation.occupied, hJ.rested _ (List.mem_map_of_mem ht) (hended t ht hprog)]
    rfl
  -- No call waits for a thread, because there is one for each.
  have hthread : ∀ t ∈ g.calls, t.prog ≠ none → t.loc.working = none →
      ¬ S.threads ≤ g.shared.busy := by
    intro t ht hprog hw hfull
    have hfree : t.loc.occupied = false := by rw [Installation.occupied, hw]; rfl
    have hlt := occupied_lt hidle ht hprog hfree
    exact Nat.not_lt_of_le hfull (hJ.busy ▸ hlt.trans_le hthreads)
  -- And none for a lock, because the call that has it would have to wait for a thread.
  have hall : ∀ t ∈ g.calls, t.prog = none := by
    intro t ht
    rcases hindex t ht with ⟨i, hi⟩
    rcases waits_of_stuck hT hstuck hi with hnone | ⟨β, op, k, hprog, hA, hwaits⟩
    · exact hnone
    · have hsome : t.prog ≠ none := hprog ▸ Option.some_ne_none _
      cases op with
      | inr op => cases hwaits
      | inl op =>
          cases op with
          | begin job => exact absurd (of_decide_eq_true hwaits) (hthread t ht hsome hA.1.1)
          | lockExclusive path =>
              rcases hJ.held _ (List.contains_iff_mem.mp hwaits) with ⟨l, hl, hlock⟩
              rcases List.mem_map.mp hl with ⟨u, hu, rfl⟩
              rcases hindex u hu with ⟨j, hj⟩
              rcases waits_of_stuck hT hstuck hj with hnone | ⟨γ, op', k', hprog', hA', hwaits'⟩
              · rw [hreleased u hu hnone] at hlock
                cases hlock
              · have hsome' : u.prog ≠ none := hprog' ▸ Option.some_ne_none _
                cases op' with
                | inr op' => cases hwaits'
                | inl op' =>
                    cases op' with
                    | begin job => exact absurd (of_decide_eq_true hwaits') (hthread u hu hsome' hA'.1.1)
                    | lockExclusive path' =>
                        rw [hA'.1.2.2] at hlock
                        cases hlock
                    | _ => cases hwaits'
          | _ => cases hwaits
  refine ⟨hall, fun t ht => hreleased t ht (hall t ht), ?_, ?_⟩
  · refine List.eq_nil_iff_forall_not_mem.mpr fun p hp => ?_
    rcases hJ.held p hp with ⟨l, hl, hlock⟩
    rcases List.mem_map.mp hl with ⟨u, hu, rfl⟩
    rw [hreleased u hu (hall u hu)] at hlock
    cases hlock
  · refine hJ.busy.trans (Concurrent.tally_eq_zero fun l hl => ?_)
    rcases List.mem_map.mp hl with ⟨u, hu, rfl⟩
    rw [hidle u hu (hall u hu)]
    rfl

/-- **Installs end**: whatever the calls did before, and whoever was dropped where, if no
    more of them than there are threads have not ended, then left to themselves they all
    end, although they wait for each other's locks. Every one returns, and no lock and no
    thread is left taken. -/
theorem installs_end (S : Site) {g : Installs}
    (h : Transition.Reachable ((installs S).system .none Installing.idle) g)
    (hthreads : g.unfinished ≤ S.threads) :
    Concurrent.Ends ((installs S).Onward patient)
      (fun g' : Installs => g'.AtRest ∧ g.Answered g') g := by
  have hrank : ∀ s l s' l', (installs S).release (s, l) = some (s', l') →
      (if l'.lock = none then 0 else 1) < (if l.lock = none then 0 else 1) := by
    intro s l s' l' hr
    rcases of_release hr with ⟨p, _, hlock, _, rfl⟩
    rw [if_pos rfl, if_neg (hlock ▸ Option.some_ne_none p)]
    exact Nat.zero_lt_one
  have hkept : ∀ s l s' l', l.result ≠ none → (installs S).release (s, l) = some (s', l') →
      l'.result ≠ none := by
    intro s l s' l' hresult hr
    rcases of_release hr with ⟨_, _, _, _, rfl⟩
    exact hresult
  refine (Concurrent.ends_reachable (fun l => l.result ≠ none) h hrank
    (fun _ _ => Option.some_ne_none _) hkept fun g' hreach hle hstuck =>
      atRest_of_stuck hreach (hle.trans hthreads) hstuck).mono ?_
  rintro g' ⟨hrest, hgoing⟩
  refine ⟨hrest, fun i t ht hprog => ?_⟩
  rcases hgoing i t ht hprog with ⟨t', ht', hgone⟩
  exact ⟨t', ht', hgone.resolve_left fun hne => hne (hrest.ended t' (List.mem_of_getElem? ht'))⟩

end Rest

/-! ## Two calls -/

open Concurrent.Step InstallChoice in
/-- One call has the lock and wants to download, and another waits for the lock. -/
def lockWaitRun : List (Concurrent.Step InstallRequest InstallChoice) :=
  [call toolRequest] ++ (installRun 0).take 11 ++ [call toolRequest] ++ (installRun 1).take 9 ++
    [perform 0 (store declines .pass)]

/-- With two threads they end. -/
theorem installs_end_waiting : ∃ g : Installs, g.unfinished = 2 ∧
    Concurrent.Ends ((installs toolSite).Onward patient)
      (fun g' : Installs => g'.AtRest ∧ g.Answered g') g := by
  have hrun : (Transition.play (installs toolSite).move
      { shared := emptyInstalling, calls := [] } lockWaitRun).map
        (fun g => g.unfinished) = some 2 := by rfl
  rcases Option.map_eq_some_iff.mp hrun with ⟨g, hg, htwo⟩
  exact ⟨g, htwo, installs_end toolSite (Concurrent.reachable_play ⟨rfl, rfl, rfl, rfl⟩ hg)
    (Nat.le_of_eq htwo)⟩

/-- The same host with one thread. -/
def oneThread : Site :=
  { toolSite with threads := 1 }

/-- Whether a call has to wait at its next effect. -/
def waiting (S : Site) (s : Installing) (t : InstallCall) : Bool :=
  match t.prog with
  | some (.perform op _) => op.waits S s
  | _ => false

/-- An effect that has to wait is not answered. -/
theorem unanswered_of_waits {S : Site} {s : Installing} {l : Installation} {c : InstallChoice}
    {β : Type} {op : InstallOp β} (h : op.waits S s = true)
    (hlim : patient.performs β op s l c) : op.respond S (s, l) c = none := by
  cases op with
  | inr op => cases h
  | inl op =>
      cases op with
      | begin job => exact if_neg (Nat.not_lt_of_le (of_decide_eq_true h))
      | lockExclusive path =>
          cases hlim
          exact if_neg (not_not_intro (List.contains_iff_mem.mp h))
      | _ => cases h

/-- Calls that all have to wait are stuck. -/
theorem stuck_of_waiting {S : Site} {g g' : Installs}
    (h : ∀ t ∈ g.calls, waiting S g.shared t = true) : ¬ (installs S).Onward patient g g' := by
  rintro ⟨e, he, hlim, hm⟩
  cases e with
  | perform i c =>
      simp only [Concurrent.Calls.move] at hm
      simp only [Concurrent.Limits.allow] at hlim
      split at hm
      · rename_i hx
        have hwaits := h _ (List.mem_of_getElem? hx)
        simp only [hx] at hlim
        rcases Option.map_eq_some_iff.mp hm with ⟨r, hr, _⟩
        rw [show (installs S).handler.respond _ _ c = none from
          unanswered_of_waits hwaits hlim] at hr
        cases hr
      · cases hm
  | finish i =>
      simp only [Concurrent.Calls.move] at hm
      split at hm
      · rename_i hx
        cases h _ (List.mem_of_getElem? hx)
      · cases hm
  | release i =>
      simp only [Concurrent.Calls.move] at hm
      split at hm
      · rename_i hx
        cases h _ (List.mem_of_getElem? hx)
      · cases hm
  | call a => cases he
  | drop i => cases he
  | env c => cases he

/-- With one thread they do not: the call that waits for the lock keeps the one that has
    it from going on. -/
theorem installs_stuck : ∃ g : Installs,
    Transition.Reachable ((installs oneThread).system .none Installing.idle) g ∧
      g.unfinished = 2 ∧ ∀ g', ¬ (installs oneThread).Onward patient g g' := by
  have hrun : (Transition.play (installs oneThread).move
      { shared := emptyInstalling, calls := [] } lockWaitRun).map
        (fun g => (g.unfinished, g.calls.all (waiting oneThread g.shared))) =
      some (2, true) := by rfl
  rcases Option.map_eq_some_iff.mp hrun with ⟨g, hg, hshape⟩
  refine ⟨g, Concurrent.reachable_play ⟨rfl, rfl, rfl, rfl⟩ hg, congrArg Prod.fst hshape,
    fun g' => stuck_of_waiting ?_⟩
  exact List.all_eq_true.mp (congrArg Prod.snd hshape)

end TinyRuntime
