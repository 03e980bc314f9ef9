import TinyRuntime.Pool.Rebuild

/-!
# Which Pool a Launch Is Given

`ensure` compares two texts. What is compared is the fingerprint an entry was made with,
not the launch the entry's pool runs, so this takes two steps: the fingerprint determines
what goes into it, and in every reachable state the fingerprint of an entry is that of
its pool (`Matched`). An entry is only ever made together with its pool, and no step
changes the launch or the tuning of a pool.

## Main definitions

* `Agrees`: A launch and its tuning match another.
* `Matched`: Every entry has the fingerprint of its pool.

## Theorems

* `matched_move`: A step keeps the entries matched.
* `ensure_matches`: A pool that is there already is given out for what it was built for.
-/

namespace TinyRuntime

/-- What a running pool has to have in common with a launch. -/
structure Agrees (launch launch' : Launch) (settings settings' : PoolSettings) : Prop where
  binary : launch.binary = launch'.binary
  args : launch.args = launch'.args
  env : launch.env = launch'.env
  protocolVersion : launch.protocolVersion = launch'.protocolVersion
  workers : settings.effectiveMaxWorkers = settings'.effectiveMaxWorkers
  idleTtlSecs : settings.idleTtlSecs = settings'.idleTtlSecs
  recycleAfterJobs : settings.recycleAfterJobs = settings'.recycleAfterJobs
  maxQueueDepth : settings.maxQueueDepth = settings'.maxQueueDepth

variable {json : Json} {printable : Char → Bool}

/-- One fingerprint for a language and a spawner. -/
theorem agrees_of_fingerprint {launch launch' : Launch} {settings settings' : PoolSettings}
    (hlanguage : launch.language = launch'.language)
    (hspawner : launch.spawnerId = launch'.spawnerId)
    (h : poolFingerprint printable launch settings = poolFingerprint printable launch' settings') :
    Agrees launch launch' settings settings' := by
  rcases fingerprint_injective hlanguage hspawner h with
    ⟨hbinary, hargs, henv, hprotocol, hworkers, httl, hrecycle, hqueue⟩
  exact ⟨hbinary, hargs, henv, hprotocol, hworkers, httl, hrecycle, hqueue⟩

/-- Every entry of the registry has the language and the fingerprint of its pool. -/
def Matched (printable : Char → Bool) (s : Pools) : Prop :=
  ∀ language entry, s.live language = some entry →
    ∃ p, s.built[entry.pool]? = some p ∧ p.pool.launch.language = language ∧
      entry.fingerprint = poolFingerprint printable p.pool.launch p.pool.settings

theorem matched_new : Matched printable Pools.new :=
  fun _ _ h => nomatch h

/-- A pool in a later state is still the pool of its entry. -/
theorem Matched.put {s : Pools} {i : Nat} {p q : Pooled} (h : Matched printable s)
    (hp : s.built[i]? = some p) (hpool : q.pool = p.pool) : Matched printable (s.put i q) := by
  intro language entry hentry
  rcases h language entry hentry with ⟨r, hr, hlanguage, hfingerprint⟩
  rw [getElem?_put hp]
  by_cases hi : entry.pool = i
  · rw [hi, hp] at hr
    cases hr
    exact ⟨q, if_pos hi, hpool ▸ hlanguage, hpool ▸ hfingerprint⟩
  · exact ⟨r, (if_neg hi).trans hr, hlanguage, hfingerprint⟩

/-- A pool that takes over its language. -/
theorem Matched.insert {s : Pools} {p : Pooled} (h : Matched printable s) :
    Matched printable
      (s.insert (poolFingerprint printable p.pool.launch p.pool.settings) p) := by
  intro language entry hentry
  rw [getElem?_insert]
  by_cases hlanguage : language = p.pool.launch.language
  · obtain rfl : _ = entry := Option.some.inj ((if_pos hlanguage).symm.trans hentry)
    exact ⟨p, if_pos rfl, hlanguage.symm, rfl⟩
  · have hold : s.live language = some entry := (if_neg hlanguage).symm.trans hentry
    rcases h language entry hold with ⟨q, hq, hrest⟩
    have hlt := (List.getElem?_eq_some_iff.mp hq).1
    exact ⟨q, (if_neg (Nat.ne_of_lt hlt)).trans hq, hrest⟩

theorem Matched.respond {β : Type} {op : PoolsOp β} {s s' : Pools} {l l' : Client}
    {c : PoolsChoice} {b : β} (h : Matched printable s)
    (hr : PoolsOp.respond json printable op (s, l) c = some (b, s', l')) :
    Matched printable s' := by
  cases op with
  | inl op =>
      cases op with
      | ensure launch settings runtimeVersion =>
          rcases ensure_respond hr with ⟨i, hensure, -⟩
          rcases ensure_pool hensure with ⟨p, hcurrent, -, rfl⟩ |
            ⟨-, -, rfl, rfl, -, -, state, -, rfl⟩
          · exact h.put (current_spec hcurrent).1 rfl
          · exact h.insert (p := Pooled.new b state)
  | inr op =>
      rcases pool_respond hr with ⟨i, pool, p, c', state, run, -, -, hp, -, rfl, -⟩
      exact h.put hp rfl

theorem Matched.release {s s' : Pools} {l l' : Client} (h : Matched printable s)
    (hr : Client.release (s, l) = some (s', l')) : Matched printable s' := by
  simp only [Client.release] at hr
  split at hr
  · cases hr
  · split at hr
    · cases hr
    · rename_i hp
      split at hr
      · cases hr
        exact h.put hp rfl
      · split at hr
        · cases hr
          exact h.put hp rfl
        · cases hr

theorem Matched.reaper {s s' : Pools} {c : PoolsChoice} (h : Matched printable s)
    (hr : s.reaper c = some s') : Matched printable s' := by
  cases c with
  | op c => cases hr
  | upgrade i =>
      simp only [Pools.reaper] at hr
      split at hr
      · rename_i hp
        split at hr
        · cases hr
          exact h.put hp rfl
        · cases hr
      · cases hr
  | reap i c =>
      simp only [Pools.reaper] at hr
      split at hr
      · rename_i hp
        split at hr
        · rcases Option.map_eq_some_iff.mp hr with ⟨state, -, rfl⟩
          exact h.put hp rfl
        · cases hr
      · cases hr

/-- A step keeps the entries matched. -/
theorem matched_move {g g' : Pools.State} {e : Concurrent.Step Job PoolsChoice}
    (hm : (Pools.calls json printable).move g e = some g') (h : Matched printable g.shared) :
    Matched printable g'.shared :=
  Concurrent.shared_keeps (R := fun s s' => Matched printable s → Matched printable s')
    (fun _ h => h) (fun _ _ _ _ _ _ _ hr h => h.respond hr) (fun _ _ _ _ hr h => h.release hr)
    (fun _ _ _ hr h => h.reaper hr) hm h

theorem matched_reachable {g : Pools.State}
    (h : Transition.Reachable ((Pools.calls json printable).system .none fun s => s = Pools.new)
      g) : Matched printable g.shared := by
  refine Transition.invariant (fun g => Matched printable g.shared) ?_ ?_ h
  · rintro g ⟨hg, -⟩
    rw [hg]
    exact matched_new
  · exact fun g e g' _ ih hs => matched_move hs.2 ih

/-- The fingerprint of a language and a spawner determines all that a pool has to have in
    common with a launch, and in every reachable state a pool that is there already is
    given out only if it has. -/
theorem ensure_matches (json : Json) (printable : Char → Bool) :
    (∀ launch launch' : Launch, ∀ settings settings' : PoolSettings,
      launch.language = launch'.language → launch.spawnerId = launch'.spawnerId →
      poolFingerprint printable launch settings = poolFingerprint printable launch' settings' →
      Agrees launch launch' settings settings') ∧
    ∀ g : Pools.State,
      Transition.Reachable ((Pools.calls json printable).system .none fun s => s = Pools.new) g →
      ∀ launch settings runtimeVersion i pool s',
        g.shared.ensure json printable launch settings runtimeVersion = some (i, pool, s') →
        i < g.shared.built.length → pool.launch.spawnerId = launch.spawnerId →
        pool.launch.language = launch.language ∧
          Agrees pool.launch launch pool.settings settings := by
  refine ⟨fun _ _ _ _ => agrees_of_fingerprint, ?_⟩
  intro g hg launch settings runtimeVersion i pool s' hensure hi hspawner
  rcases ensure_pool hensure with ⟨p, hcurrent, rfl, -⟩ | ⟨-, rfl, -⟩
  · rcases current_spec hcurrent with ⟨hp, entry, hentry, hpool, hfingerprint⟩
    rcases matched_reachable hg _ entry hentry with ⟨q, hq, hlanguage, hsame⟩
    rw [hpool, hp] at hq
    cases hq
    exact ⟨hlanguage, agrees_of_fingerprint hlanguage hspawner (hsame.symm.trans hfingerprint)⟩
  · exact absurd hi (Nat.lt_irrefl _)

/-- The second call for a launch is given the pool of the first. -/
theorem ensure_matches_again : ∃ (g : Pools.State) (i : Nat) (pool : LangPool) (s' : Pools),
    (g.shared.ensure printableJson (fun _ => true) (pinnedJob "3.11").launch
        (pinnedJob "3.11").settings "3.11" = some (i, pool, s') ∧
      i < g.shared.built.length ∧ pool.launch.spawnerId = (pinnedJob "3.11").launch.spawnerId) ∧
    Agrees pool.launch (pinnedJob "3.11").launch pool.settings (pinnedJob "3.11").settings := by
  have hrun : (Transition.play (Pools.calls printableJson fun _ => true).move
      { shared := Pools.new, calls := [] }
      [.call (pinnedJob "3.11"), .perform 0 (.op .pass)]).map
        (fun g => ((g.shared.ensure printableJson (fun _ => true) (pinnedJob "3.11").launch
            (pinnedJob "3.11").settings "3.11").map fun r => (r.1, r.2.1.launch.spawnerId),
          g.shared.built.length)) = some (some (0, "direct"), 1) := by rfl
  rcases Option.map_eq_some_iff.mp hrun with ⟨g, hg, hfacts⟩
  simp only [Prod.mk.injEq] at hfacts
  rcases hfacts with ⟨hensure, hbuilt⟩
  rcases Option.map_eq_some_iff.mp hensure with ⟨⟨i, pool, s'⟩, hensure, hpool⟩
  rcases Prod.mk.inj hpool with ⟨rfl, hspawner⟩
  have hlt : 0 < g.shared.built.length := by omega
  exact ⟨g, 0, pool, s', ⟨hensure, hlt, hspawner⟩,
    ((ensure_matches printableJson fun _ => true).2 g (Concurrent.reachable_play rfl hg) _ _ _ _ _
      _ hensure hlt hspawner).2⟩

end TinyRuntime
