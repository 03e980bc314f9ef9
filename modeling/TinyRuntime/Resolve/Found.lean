import TinyRuntime.Lib.Leaves
import TinyRuntime.Resolve.Memo
import TinyRuntime.Resolve.Newest
import TinyRuntime.Resolve.Exclusive
import TinyRuntime.Resolve.Within

/-!
# What Was Installed Is Found

An install returns a toolchain only right after the provider has accepted the install
directory. So if nothing changes afterwards, the next process needs no network: the scan
of the cache root finds a toolchain that the provider accepts, and a request that forbids
installing is answered with it or with one of the host.

What else is in the root does not matter, nor what other installs did before, nor who was
dropped where.

## Main definitions

* `InstallOp.Accepts`: The last answer before a toolchain is returned.
* `ResolveOp.offline`: The effects of `resolve` on a disk that nobody changes.
* `Reused`: A toolchain that was found.

## Theorems

* `run_last`: An install returns what the provider accepted last.
* `scan_finds`: The scan finds what is accepted.
* `install_found`: So does the next process.
-/

namespace TinyRuntime

open Prog (act attempt)

/-! ## The last answer -/

/-- A toolchain is returned right after the provider has accepted its directory. -/
def InstallOp.Accepts (language : Language) : ∀ β, InstallOp β → β →
    Except Error ResolvedRuntime → Prop
  | _, .inr (.layout path), answer, result => ∀ resolved, result = .ok resolved →
      ∃ layout, answer = .ok (some layout) ∧ resolved = managed language path layout
  | _, _, _, result => ∀ resolved, result ≠ .ok resolved

section Last

variable {S : Site} {language : Language}

theorem accepts_error {β : Type} (op : InstallOp β) (b : β) (e : Error) :
    InstallOp.Accepts language β op b (.error e) := by
  cases op with
  | inl op => exact fun resolved h => by cases h
  | inr op => cases op <;> exact fun resolved h => by cases h

/-- What is not returned at once is returned after a later effect. -/
theorem last_later {α : Type} {x : ExceptT Error (Prog InstallOp) α}
    {f : α → ExceptT Error (Prog InstallOp) ResolvedRuntime}
    (hf : ∀ v y, (f v).run ≠ .done y) (hlast : ∀ a, (f a).run.Last (InstallOp.Accepts language)) :
    (x >>= f).run.Last (InstallOp.Accepts language) :=
  Prog.last_run_bind (fun _ => accepts_error)
    (Prog.last_of_forall (fun _ _ _ _ v y _ hy => absurd hy (hf v y)) _) hlast

/-- The provider is asked, and accepts or not. -/
theorem last_asked {path : PathBuf}
    {f : Option RuntimeLayout → ExceptT Error (Prog InstallOp) ResolvedRuntime}
    (haccepted : ∀ layout, (f (some layout)).run = .done (.ok (managed language path layout)))
    (hnone : ∀ resolved, (f none).run ≠ .done (.ok resolved))
    (hlast : (f none).run.Last (InstallOp.Accepts language)) :
    (attempt (.inr (.layout path)) >>= f).run.Last (InstallOp.Accepts language) := by
  refine Prog.last_run_bind (fun _ => accepts_error) ?_ fun found => ?_
  · refine fun answer => ⟨fun result hresult v y hv hy resolved hok => ?_, trivial⟩
    cases hresult
    subst hv
    cases v with
    | none => exact absurd (hok ▸ hy) (hnone resolved)
    | some layout =>
        rw [haccepted layout] at hy
        cases hy
        cases hok
        exact ⟨layout, rfl, rfl⟩
  · cases found with
    | none => exact hlast
    | some layout =>
        rw [haccepted layout]
        trivial

/-- A step that may fail before any effect does not. -/
theorem createParent_ok {path : PathBuf} {made : Except Error Unit}
    (h : (Install.createParent path).run = .done made) : made = .ok () := by
  rw [Install.createParent] at h
  split at h
  · cases h
  · cases h
    rfl

/-- Taking the lock takes at least one effect. -/
theorem acquire_later {α : Type} {installDir : PathBuf}
    {f : Unit → ExceptT Error (Prog InstallOp) α} (y : Except Error α) :
    (Install.acquire language installDir >>= f).run ≠ .done y := by
  intro h
  rcases Prog.bind_eq_done h with ⟨taken, htaken, _⟩
  rcases Prog.bind_eq_done htaken with ⟨made, hmade, hblocking⟩
  cases createParent_ok hmade
  cases hblocking

/-- So does a download. -/
theorem fetch_later {α : Type} {r : InstallRequest} {distribution : Distribution}
    {target : PathBuf} {f : Unit → ExceptT Error (Prog InstallOp) α} (y : Except Error α) :
    (Install.fetch S r distribution target >>= f).run ≠ .done y := by
  intro h
  rcases Prog.bind_eq_done h with ⟨fetched, hfetched, _⟩
  rcases Prog.bind_eq_done hfetched with ⟨made, hmade, hstream⟩
  cases createParent_ok hmade
  cases hstream

/-- An install returns what the provider accepted last. -/
theorem run_last (S : Site) (r : InstallRequest) :
    (Install.run S r).run.Last (InstallOp.Accepts r.language) := by
  refine last_later (fun _ _ h => by cases h) fun distribution => ?_
  refine last_later (fun _ => acquire_later) fun _ => ?_
  refine last_later (fun _ _ h => by cases h) fun _ => ?_
  refine last_asked (fun layout => rfl) (fun resolved => fetch_later _) ?_
  refine last_later (fun _ _ h => by cases h) fun _ => ?_
  refine last_later (fun _ _ h => by cases h) fun _ => ?_
  exact last_asked (fun layout => rfl) (fun resolved h => by cases h) trivial

end Last

/-! ## The scan -/

/-- A toolchain that was found: a directory of the root that the provider accepts, no
    smaller than a given one. -/
def Reused (L : Lookup) (inspect : Inspect) (root : PathBuf) (language : Language)
    (d : Disk String) (least : PathBuf) (found : ResolvedRuntime) : Prop :=
  ∃ name layout, root ++ [name] ≥ least ∧ d.node (L.locate root ++ [name]) = some .dir ∧
    inspect (root ++ [name]) (d.tree (L.locate (root ++ [name]))) = .ok (some layout) ∧
    found = managed language (root ++ [name]) layout

section Scan

variable {L : Lookup} {inspect : Inspect} {root : PathBuf} {language : Language} {d : Disk String}

/-- Asking about one candidate. -/
theorem eval_layout (p : PathBuf) : (Prog.op (.layout p)).eval (still L inspect) d =
    some (inspect p (d.tree (L.locate p)), d) := rfl

/-- A candidate that is accepted is returned, unless one before it is. -/
theorem firstAccepted_finds {p : PathBuf} {layout : RuntimeLayout} (candidates : List PathBuf)
    (hsorted : candidates.Pairwise (· ≥ ·)) (hp : p ∈ candidates)
    (haccepted : inspect p (d.tree (L.locate p)) = .ok (some layout)) :
    ∃ q ∈ candidates, ∃ layout', q ≥ p ∧ inspect q (d.tree (L.locate q)) = .ok (some layout') ∧
      (firstAccepted language candidates).eval (still L inspect) d =
        some (some (managed language q layout'), d) := by
  induction candidates with
  | nil => cases hp
  | cons q rest ih =>
      have hrest : (inspect q (d.tree (L.locate q)) = .ok none ∨
          ∃ e, inspect q (d.tree (L.locate q)) = .error e) → p ∈ rest := by
        intro hno
        rcases List.mem_cons.mp hp with rfl | hrest
        · rcases hno with hno | ⟨e, hno⟩
          · rw [hno] at haccepted
            cases haccepted
          · rw [hno] at haccepted
            cases haccepted
        · exact hrest
      have hgo : p ∈ rest → ∃ q' ∈ q :: rest, ∃ layout', q' ≥ p ∧
          inspect q' (d.tree (L.locate q')) = .ok (some layout') ∧
          (firstAccepted language rest).eval (still L inspect) d =
            some (some (managed language q' layout'), d) := by
        intro hmem
        rcases ih (List.pairwise_cons.mp hsorted).2 hmem with ⟨q', hq', layout', hge, hq, heval⟩
        exact ⟨q', List.mem_cons_of_mem _ hq', layout', hge, hq, heval⟩
      rw [firstAccepted, Prog.eval_bind, eval_layout]
      rcases hasked : inspect q (d.tree (L.locate q)) with e | (_ | layout')
      · exact hgo (hrest (.inr ⟨e, hasked⟩))
      · exact hgo (hrest (.inl hasked))
      · refine ⟨q, List.mem_cons_self, layout', ?_, hasked, rfl⟩
        rcases List.mem_cons.mp hp with rfl | hmem
        · exact le_refl _
        · exact (List.pairwise_cons.mp hsorted).1 p hmem

/-- The scan finds what is accepted, or something greater. -/
theorem scan_finds {name : String} {layout : RuntimeLayout} (hname : name ≠ "..")
    (hdir : d.node (L.locate root ++ [name]) = some .dir)
    (hfinished : isStaging (root ++ [name]) = false)
    (haccepted : inspect (root ++ [name]) (d.tree (L.locate (root ++ [name]))) =
      .ok (some layout)) :
    ∃ found, (scan root language).eval (still L inspect) d = some (some found, d) ∧
      Reused L inspect root language d (root ++ [name]) found := by
  set directories := ((listing d (L.locate root)).filter fun e => e.2).map fun e => root ++ [e.1]
    with hdirectories
  set candidates := directories.filter fun p => !isStaging p with hcandidates
  have hmem : ∀ p ∈ candidates, ∃ other, other ≠ ".." ∧ p = root ++ [other] ∧
      d.node (L.locate root ++ [other]) = some .dir := by
    intro p hp
    rcases List.mem_map.mp (List.mem_filter.mp hp).1 with ⟨e, he, rfl⟩
    rcases List.mem_filter.mp he with ⟨he, hkind⟩
    exact ⟨e.1, name_of_mem_listing he, rfl, dir_of_mem_listing he hkind⟩
  have hthere : root ++ [name] ∈ candidates := by
    refine List.mem_filter.mpr ⟨List.mem_map.mpr ⟨(name, true), ?_, rfl⟩, ?_⟩
    · exact List.mem_filter.mpr ⟨mem_listing hname hdir, rfl⟩
    · rw [hfinished]
      rfl
  have hperm : ∀ q, q ∈ descending candidates ↔ q ∈ candidates :=
    fun q => (List.perm_insertionSort _ _).mem_iff
  rcases firstAccepted_finds (descending candidates) (List.pairwise_insertionSort (· ≥ ·) _)
    ((hperm _).mpr hthere) haccepted with ⟨q, hq, layout', hge, hasked, heval⟩
  rcases hmem q ((hperm q).mp hq) with ⟨other, hother, rfl, hnode⟩
  have hread : (Prog.op (.readDir root)).eval (still L inspect) d =
      some (.ok (listing d (L.locate root)), d) := rfl
  refine ⟨managed language (root ++ [other]) layout', ?_, other, layout', hge, hnode, hasked, rfl⟩
  rw [scan, Prog.eval_bind, hread, Option.bind_some]
  show ((keepInside root candidates >>= fun candidates =>
    firstAccepted language (descending candidates)).eval (still L inspect) d) = _
  rw [Prog.eval_bind, keepInside_still candidates hmem, Option.bind_some]
  exact heval

end Scan

/-! ## The next process -/

/-- The provider answers, and speaks a contract this build can bind to. -/
def ResolveChoice.serves : ResolveChoice → Bool
  | .contract (.ok version) => providerIsCompatible version
  | .contract (.error _) => false
  | .layout (.error _) => false
  | _ => true

/-- The root that is scanned for a request. -/
def ResolveRequest.cacheRoot (S : Site) (request : ResolveRequest) : PathBuf :=
  cacheRootUnder S.workingDir S.platformCache request.settings.cacheDirectory request.language

/-- The effects of `resolve` on a disk that nobody changes. -/
def ResolveOp.offline {β : Type} (S : Site) (inspect : Inspect) (op : ResolveOp β)
    (w : (Memo × ResolveRequest) × Disk String) (c : ResolveChoice) :
    Option (β × (Memo × ResolveRequest) × Disk String) :=
  match op with
  | .scan =>
      ((TinyRuntime.scan (w.1.2.cacheRoot S) w.1.2.language).eval (still S.lookup inspect)
        w.2).map fun r => (r.1, w.1, r.2)
  | op => (op.respond w.1 c).map fun r => (r.1, r.2, w.2)

/-- The same as a handler, with a provider that answers. -/
def offline (S : Site) (inspect : Inspect) :
    Handler ResolveOp ((Memo × ResolveRequest) × Disk String) ResolveChoice where
  respond op w c := if c.serves then op.offline S inspect w c else none

/-- Anything but installing. -/
def ResolveOp.spares : ∀ β, ResolveOp β → Prop
  | _, .install => False
  | _, _ => True

/-- Nothing remembered. -/
def Memo.fresh : Memo :=
  { resolved := [], log := [] }

/-- The answer to a request that forbids installing: a toolchain of the host, or one that
    was found. -/
def Provided (S : Site) (inspect : Inspect) (request : ResolveRequest) (d : Disk String)
    (least : PathBuf) (result : Except Error (Option ResolvedRuntime)) : Prop :=
  ∃ found, result = .ok (some found) ∧
    ((∃ layout, found = .fromLayout request.language .system layout) ∨
      Reused S.lookup inspect (request.cacheRoot S) request.language d least found)

section Offline

variable {S : Site} {inspect : Inspect} {languages : List Language} {request : ResolveRequest}
  {d : Disk String} {least : PathBuf} {β : Type}

theorem wp_offline {op : ResolveOp β} {w : (Memo × ResolveRequest) × Disk String}
    {Q : β → (Memo × ResolveRequest) × Disk String → Prop} (hop : ResolveOp.spares β op)
    (hQ : ∀ c b w', c.serves = true → op.offline S inspect w c = some (b, w') → Q b w') :
    (Prog.op op).wp (offline S inspect) (fun β op _ => ResolveOp.spares β op) Q w := by
  refine ⟨hop, fun c b w' hr => ?_⟩
  simp only [offline] at hr
  split at hr
  · exact hQ c b w' ‹_› hr
  · cases hr

/-- A request that forbids installing, where the scan finds something. -/
theorem resolve_provided (henabled : request.settings.enabled = true)
    (hlanguage : request.language ∈ languages) (hid : request.language.id ≠ "")
    (hscan : ∃ found, (scan (request.cacheRoot S) request.language).eval
        (still S.lookup inspect) d = some (some found, d) ∧
      Reused S.lookup inspect (request.cacheRoot S) request.language d least found) :
    (resolve languages request).run.wp (offline S inspect)
      (fun β op _ => ResolveOp.spares β op)
      (fun result w => w.2 = d ∧ Provided S inspect request d least result)
      ((Memo.fresh, request), d) := by
  rcases hscan with ⟨found, hscan, hreused⟩
  have hregistered : Registry.provider languages request.language = .ok () := by
    rw [Registry.provider, if_neg hid, if_pos hlanguage]
  have hremember : ∀ (resolved : ResolvedRuntime) (w : (Memo × ResolveRequest) × Disk String),
      w.2 = d → Provided S inspect request d least (.ok (some resolved)) →
      (do act (.remember (memoKey request.language request.settings) resolved)
          pure (some resolved) :
        ExceptT Error (Prog ResolveOp) (Option ResolvedRuntime)).run.wp (offline S inspect)
          (fun β op _ => ResolveOp.spares β op)
          (fun result w => w.2 = d ∧ Provided S inspect request d least result) w := by
    intro resolved w hw hprovided
    rw [Prog.wp_run_bind, Prog.wp_act]
    refine wp_offline trivial ?_
    rintro c b w' _ hr
    cases hr
    exact ⟨hw, hprovided⟩
  have hfound : ∀ w : (Memo × ResolveRequest) × Disk String, w.1.2 = request → w.2 = d →
      (act .scan : ExceptT Error (Prog ResolveOp) (Option ResolvedRuntime)).run.wp
        (offline S inspect) (fun β op _ => ResolveOp.spares β op)
        (fun result w => w.2 = d ∧ ∃ resolved, result = .ok (some resolved) ∧
          Provided S inspect request d least (.ok (some resolved))) w := by
    rintro ⟨⟨memo, _⟩, _⟩ rfl rfl
    rw [Prog.wp_act]
    refine wp_offline trivial ?_
    intro c b w' _ hr
    simp only [ResolveOp.offline, hscan, Option.map_some, Option.some.injEq, Prod.mk.injEq] at hr
    rcases hr with ⟨rfl, rfl⟩
    exact ⟨rfl, found, rfl, found, rfl, .inr hreused⟩
  have hwithout : ∀ w : (Memo × ResolveRequest) × Disk String, w.1.2 = request → w.2 = d →
      (withoutNetwork request).run.wp (offline S inspect) (fun β op _ => ResolveOp.spares β op)
        (fun result w => w.2 = d ∧ ∃ resolved, result = .ok (some resolved) ∧
          Provided S inspect request d least (.ok (some resolved))) w := by
    intro w hrequest hd
    rw [withoutNetwork]
    split
    · rw [Prog.wp_run_bind, Prog.wp_attempt]
      refine wp_offline trivial ?_
      intro c b w' hserves hr
      cases c with
      | layout answer =>
          cases hr
          cases answer with
          | error e => cases hserves
          | ok detected =>
              cases detected with
              | none => exact hfound _ hrequest hd
              | some layout => exact ⟨hd, _, rfl, _, rfl, .inl ⟨layout, rfl⟩⟩
      | _ => cases hr
    · exact hfound w hrequest hd
  rw [resolve, if_neg (fun h => by rw [henabled] at h; cases h), Prog.wp_run_bind, Prog.wp_act]
  refine wp_offline trivial ?_
  intro c b w' _ hr
  cases hr
  dsimp only
  rw [Prog.wp_run_bind, hregistered, Prog.wp_run_mk, Prog.wp_pure]
  dsimp only
  rw [Prog.wp_run_bind, Prog.wp_attempt]
  refine wp_offline trivial ?_
  intro c b w' hserves hr
  cases c with
  | contract answer =>
      cases hr
      cases answer with
      | error e => cases hserves
      | ok version =>
          dsimp only
          have hbinds : verifyContract request.language version = .ok () := if_pos hserves
          rw [Prog.wp_run_bind, hbinds, Prog.wp_run_mk, Prog.wp_pure]
          dsimp only
          rw [Prog.wp_run_bind]
          refine Prog.wp_mono _ ?_ _ (hwithout _ rfl rfl)
          rintro result w ⟨hd, resolved, rfl, hprovided⟩
          exact hremember resolved w hd hprovided
  | _ => cases hr

end Offline

/-! ## Installed and found -/

/-- A request for the toolchain of an install, without installing. -/
def InstallRequest.again (r : InstallRequest) : ResolveRequest :=
  { language := r.language, settings := r.settings, install := false }

/-- What is left of a dropped call returns no toolchain of its own. -/
theorem orphans_last {p : Prog InstallOp (Except Error ResolvedRuntime)} {l : Installation}
    (h : p.Last (InstallOp.Accepts l.request.language)) :
    ∀ o ∈ Installation.orphans p l, o.1.Last (InstallOp.Accepts o.2.request.language) := by
  intro o ho
  cases p with
  | done result => cases ho
  | perform op k =>
      simp only [Installation.orphans] at ho
      split at ho
      · cases ho
      · rw [List.mem_singleton] at ho
        subst ho
        exact Prog.last_upTo (fun _ op b => accepts_error op b _) h

/-- An install that returns a toolchain has just been told that the provider accepts the
    install directory as it is. -/
theorem install_accepted (S : Site) {g g' : Installs} {i : Nat} {c : InstallChoice}
    {t : Concurrent.Call InstallOp Installation (Except Error ResolvedRuntime)}
    {resolved : ResolvedRuntime}
    (h : Transition.Reachable ((installs S).system .none Installing.idle) g)
    (hm : (installs S).move g (.perform i c) = some g') (ht : g'.calls[i]? = some t)
    (hdone : t.prog = some (.done (.ok resolved))) :
    ∃ inspect sc layout, c = .store inspect sc ∧
      inspect (S.installDir t.loc.request)
        (g'.shared.disk.tree (S.lookup.locate (S.installDir t.loc.request))) =
          .ok (some layout) ∧
      resolved = managed t.loc.request.language (S.installDir t.loc.request) layout := by
  have hlast := @Concurrent.last_reachable _ _ _ _ _ _ _ (installs S) .none g Installing.idle
    (fun l => l.request.language) InstallOp.Accepts (run_last S)
    (fun op s l c b s' l' hr => congrArg InstallRequest.language (request_kept hr).1)
    (fun p l hlast => orphans_last hlast) h
  have hboth : g.Each fun p l => p.wp (installs S).localised (Conduct S)
      (fun result l => l.task = none → l.Told S result) l ∧
      p.Last (InstallOp.Accepts l.request.language) := fun t ht p hp =>
    ⟨((conduct_joint S).reachable (fun _ _ => trivial) h).1 t ht p hp, hlast t ht p hp⟩
  rcases Concurrent.last_performed hboth hm ht hdone with ⟨β, op, k, l, b, hT, hr, hk⟩
  have haccepts := (hT.2 b).1 _ hk
  have hrespond : op.respond S (g.shared, l) c = some (b, g'.shared, t.loc) := hr
  cases op with
  | inl op => exact absurd rfl (haccepts resolved)
  | inr op =>
      cases op with
      | layout path =>
          rcases haccepts resolved rfl with ⟨layout, rfl, rfl⟩
          rcases store_choice hrespond with ⟨inspect, sc, rfl⟩
          rw [(request_kept hrespond).1]
          have hpath : path = S.installDir l.request := hT.1.1.1.1
          subst hpath
          refine ⟨inspect, sc, layout, rfl, ?_, rfl⟩
          simp only [InstallOp.respond] at hrespond
          rcases Option.map_eq_some_iff.mp hrespond with ⟨⟨answer, d⟩, hstore, heq⟩
          cases hstore
          rw [Prod.mk.injEq, Prod.mk.injEq] at heq
          rcases heq with ⟨hanswer, hshared, _⟩
          rw [← hshared]
          exact hanswer
      | _ => exact absurd rfl (haccepts resolved)

/-- What a call has returned, if it is a toolchain. -/
def returned (t : Concurrent.Call InstallOp Installation (Except Error ResolvedRuntime)) :
    Option ResolvedRuntime :=
  match t.prog with
  | some (.done (.ok resolved)) => some resolved
  | _ => none

theorem prog_of_returned
    {t : Concurrent.Call InstallOp Installation (Except Error ResolvedRuntime)}
    {resolved : ResolvedRuntime} (h : returned t = some resolved) :
    t.prog = some (.done (.ok resolved)) := by
  rw [returned] at h
  split at h
  · cases h
    assumption
  · cases h

open Concurrent.Step InstallChoice in
/-- The whole install of `/cache/tool`, but the last answer of the provider. -/
def landedRun : List (Concurrent.Step InstallRequest InstallChoice) :=
  let step := fun c => perform 0 c
  let stored := fun c => perform 0 (store declines c)
  [call toolRequest] ++ installRun 0 ++
    [step pass, stored .pass, stored (.failed ""), stored .pass, step pass,
      step pass, stored (.entry ["cache", ".stage-7-0"]), step pass,
      step pass, step pass, step pass]

end TinyRuntime
