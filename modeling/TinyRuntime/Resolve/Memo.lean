import TinyRuntime.Bus.Runtime
import TinyRuntime.Lib.Concurrent
import TinyRuntime.Lib.History
import TinyRuntime.Lib.Separator

/-!
# The Resolution Memo

The resolver remembers what it resolved, under a key made of the language and of
the settings that select a toolchain, joined by `|`. The fields are arbitrary
strings of the host and nothing is escaped, so two requests can share a key.

A request is answered from the memo only with what was computed for it exactly
when its own fields leave no doubt where they end: no settings string contains
the separator, and no part of the language name before a separator is a language
name itself. That is a condition on the one request; the requests that were
served before may be anything.

Any number of `resolve` calls run concurrently. The memo is read and written
under its lock, and a call can be dropped wherever it waits.

## Main definitions

* `memoKey`: The key of a request.
* `resolve`: The resolver's code.
* `resolver`: All runs of any number of calls.
* `SameSelection`: Two requests that ask for the same toolchain.
* `Separable`: The requests whose key no other request has.

## Theorems

* `memoKey_separable`: The key of a separable request determines it.
* `memoKey_collides`: Any other request shares its key with a different one.
* `remembered`: What the memo holds was computed for a request with that key.
* `memo_answers_iff`: The condition is exact, and sufficient in every run.
-/

namespace TinyRuntime

open Prog (act attempt)

/-- The memo key for one language under one set of settings. -/
def memoKey (language : Language) (settings : RuntimeSettings) : String :=
  language.id ++ "|" ++ settings.version ++ "|" ++ settings.maximumVersion ++ "|" ++
    settings.cacheDir ++ "|" ++ settings.releaseTag ++ "|" ++ settings.preferredCommand ++ "|" ++
    toString settings.preferSystem

/-- The key of the request a call was made with. -/
def ResolveRequest.key (request : ResolveRequest) : String :=
  memoKey request.language request.settings

/-- Two requests that agree on every field that selects a toolchain. -/
def SameSelection (r s : ResolveRequest) : Prop :=
  r.language = s.language ∧ r.settings.version = s.settings.version ∧
    r.settings.maximumVersion = s.settings.maximumVersion ∧
    r.settings.cacheDir = s.settings.cacheDir ∧
    r.settings.releaseTag = s.settings.releaseTag ∧
    r.settings.preferredCommand = s.settings.preferredCommand ∧
    r.settings.preferSystem = s.settings.preferSystem

/-- The requests whose fields leave no doubt where they end. -/
def Separable (r : ResolveRequest) : Prop :=
  (∀ s ∈ [r.settings.version, r.settings.maximumVersion, r.settings.cacheDir,
    r.settings.releaseTag, r.settings.preferredCommand], '|' ∉ s.toList) ∧
  ∀ a b : String, r.language.id = a ++ "|" ++ b → Language.normalise a ≠ a

/-! ## The key -/

/-- The fields after the language, as characters. -/
def ResolveRequest.rest (r : ResolveRequest) : List (List Char) :=
  [r.settings.version.toList, r.settings.maximumVersion.toList, r.settings.cacheDir.toList,
    r.settings.releaseTag.toList, r.settings.preferredCommand.toList,
    (toString r.settings.preferSystem).toList]

theorem key_toList (r : ResolveRequest) :
    r.key.toList = r.language.id.toList ++ '|' :: Separator.joined '|' r.rest := by
  simp only [ResolveRequest.key, memoKey, ResolveRequest.rest, Separator.joined,
    String.toList_append, List.append_assoc]
  rfl

theorem rest_injective {r s : ResolveRequest} (hl : r.language = s.language)
    (h : r.rest = s.rest) : SameSelection r s := by
  simp only [ResolveRequest.rest, List.cons.injEq, String.toList_inj, and_true] at h
  rcases h with ⟨hv, hm, hc, ht, hp, hb⟩
  refine ⟨hl, hv, hm, hc, ht, hp, ?_⟩
  revert hb
  cases r.settings.preferSystem <;> cases s.settings.preferSystem <;> decide

/-- The settings of a separable request and its flag are clean. -/
theorem rest_clean {r : ResolveRequest} (hr : Separable r) : ∀ f ∈ r.rest, '|' ∉ f := by
  intro f hf
  simp only [ResolveRequest.rest, List.mem_cons, List.not_mem_nil, or_false] at hf
  have hs := hr.1
  simp only [List.mem_cons, List.not_mem_nil, or_false, forall_eq_or_imp, forall_eq] at hs
  rcases hf with rfl | rfl | rfl | rfl | rfl | rfl
  · exact hs.1
  · exact hs.2.1
  · exact hs.2.2.1
  · exact hs.2.2.2.1
  · exact hs.2.2.2.2
  · cases r.settings.preferSystem <;> decide

/-- The key of a separable request determines it. -/
theorem memoKey_separable {r s : ResolveRequest} (hr : Separable r) (h : s.key = r.key) :
    SameSelection s r := by
  have htext := congrArg String.toList h.symm
  rw [key_toList, key_toList] at htext
  rcases Separator.split_first htext with ⟨hlang, hx⟩ | ⟨e, _, hx⟩ | ⟨e, hlang, _⟩
  · have hl : s.language = r.language := by
      rcases hls : s.language with ⟨id, normal⟩
      rcases hlr : r.language with ⟨id', normal'⟩
      rw [hls, hlr, String.toList_inj] at hlang
      subst hlang
      rfl
    have hlen : r.rest.length = s.rest.length := rfl
    exact rest_injective hl (Separator.joined_injective hlen (rest_clean hr) hx).symm
  · -- A longer language name would have taken a separator from the settings.
    have hmore := congrArg (List.count '|') hx
    have hcount := Separator.count_joined (rest_clean hr)
    have hother := @Separator.length_le_count Char '|' _ s.rest
    simp only [List.count_append, List.count_cons_self] at hmore
    simp only [ResolveRequest.rest, List.length_cons, List.length_nil] at hcount hother hmore
    omega
  · -- A shorter one would be a language name before a separator in this one.
    refine absurd s.language.normal (hr.2 s.language.id (String.ofList e) ?_)
    rw [← String.toList_inj, hlang]
    simp only [String.toList_append, String.toList_ofList, List.append_assoc]
    rfl

theorem cut_at_separator {s : String} (h : '|' ∈ s.toList) : ∃ a b, s = a ++ "|" ++ b := by
  rcases List.append_of_mem h with ⟨x, y, hxy⟩
  refine ⟨String.ofList x, String.ofList y, ?_⟩
  rw [← String.toList_inj, hxy]
  simp only [String.toList_append, String.toList_ofList, List.append_assoc]
  rfl

theorem ne_cut (a b : String) : a ≠ a ++ "|" ++ b := by
  intro h
  have hlen := congrArg String.length h
  have hsep : "|".length = 1 := rfl
  simp only [String.length_append, hsep] at hlen
  omega

theorem ne_extend (a b : String) : b ++ "|" ++ a ≠ b := fun h => ne_cut b a h.symm

/-- Any other request shares its key with a different one: a separator inside a
    field may as well be the one after it, or before it. -/
theorem memoKey_collides {r : ResolveRequest} (hr : ¬ Separable r) :
    ∃ s : ResolveRequest, s.key = r.key ∧ ¬ SameSelection s r := by
  rcases r with ⟨⟨id, normal⟩, ⟨enabled, prefer, version, maximum, cache, tag, preferred⟩, install⟩
  -- The request with the same key, given its strings.
  have hmake : ∀ (l : Language) (v m c t p : String),
      memoKey l ⟨enabled, prefer, v, m, c, t, p⟩ =
        memoKey ⟨id, normal⟩ ⟨enabled, prefer, version, maximum, cache, tag, preferred⟩ →
      (l.id ≠ id ∨ v ≠ version ∨ m ≠ maximum ∨ c ≠ cache ∨ t ≠ tag) →
      ∃ s : ResolveRequest, s.key = memoKey ⟨id, normal⟩
          ⟨enabled, prefer, version, maximum, cache, tag, preferred⟩ ∧
        ¬ SameSelection s ⟨⟨id, normal⟩,
          ⟨enabled, prefer, version, maximum, cache, tag, preferred⟩, install⟩ := by
    intro l v m c t p hkey hne
    refine ⟨⟨l, ⟨enabled, prefer, v, m, c, t, p⟩, install⟩, hkey, ?_⟩
    rintro ⟨hl, hv, hm, hc, ht, _⟩
    rcases hne with hne | hne | hne | hne | hne
    · exact hne (congrArg Language.id hl)
    · exact hne hv
    · exact hne hm
    · exact hne hc
    · exact hne ht
  by_cases hlang : ∀ a b : String, id = a ++ "|" ++ b → Language.normalise a ≠ a
  · have hfield : ¬ ∀ s ∈ [version, maximum, cache, tag, preferred], '|' ∉ s.toList :=
      fun hs => hr ⟨hs, hlang⟩
    simp only [List.mem_cons, List.not_mem_nil, or_false, forall_eq_or_imp, forall_eq,
      not_and_or, not_not] at hfield
    rcases hfield with h | h | h | h | h
    · rcases cut_at_separator h with ⟨a, b, rfl⟩
      exact hmake ⟨id, normal⟩ a (b ++ "|" ++ maximum) cache tag preferred
        (by simp only [memoKey, String.append_assoc]) (.inr (.inl (ne_cut a b)))
    · rcases cut_at_separator h with ⟨a, b, rfl⟩
      exact hmake ⟨id, normal⟩ version a (b ++ "|" ++ cache) tag preferred
        (by simp only [memoKey, String.append_assoc]) (.inr (.inr (.inl (ne_cut a b))))
    · rcases cut_at_separator h with ⟨a, b, rfl⟩
      exact hmake ⟨id, normal⟩ version maximum a (b ++ "|" ++ tag) preferred
        (by simp only [memoKey, String.append_assoc]) (.inr (.inr (.inr (.inl (ne_cut a b)))))
    · rcases cut_at_separator h with ⟨a, b, rfl⟩
      exact hmake ⟨id, normal⟩ version maximum cache a (b ++ "|" ++ preferred)
        (by simp only [memoKey, String.append_assoc]) (.inr (.inr (.inr (.inr (ne_cut a b)))))
    · rcases cut_at_separator h with ⟨a, b, rfl⟩
      exact hmake ⟨id, normal⟩ version maximum cache (tag ++ "|" ++ a) b
        (by simp only [memoKey, String.append_assoc])
        (.inr (.inr (.inr (.inr (ne_extend a tag)))))
  · simp only [not_forall, not_not] at hlang
    rcases hlang with ⟨a, b, rfl, ha⟩
    exact hmake ⟨a, ha⟩ (b ++ "|" ++ version) maximum cache tag preferred
      (by simp only [memoKey, String.append_assoc]) (.inl (ne_cut a b))

/-! ## The resolver -/

/-- The effects of `resolve`. -/
inductive ResolveOp : Type → Type
  /-- `self.resolved.lock().await.get(&key).cloned()`. -/
  | recalled (key : String) : ResolveOp (Option ResolvedRuntime)
  /-- `self.resolved.lock().await.insert(key, resolved)`. -/
  | remember (key : String) (resolved : ResolvedRuntime) : ResolveOp Unit
  /-- `provider.describe()`: the contract version it speaks. -/
  | describe : ResolveOp (Except Error (Nat × Nat))
  | detectSystem : ResolveOp (Except Error (Option RuntimeLayout))
  /-- `reuse::scan` of the cache root. -/
  | scan : ResolveOp (Option ResolvedRuntime)
  /-- `install::run`. -/
  | install : ResolveOp (Except Error ResolvedRuntime)

/-- `Registry::provider`: whether a provider is registered for the language. -/
def Registry.provider (languages : List Language) (language : Language) : Except Error Unit :=
  if language.id = "" then .error .languageMissing
  else if language ∈ languages then .ok ()
  else .error (.unknownLanguage language)

/-- Refuse a provider whose contract this build cannot bind to. -/
def verifyContract (language : Language) (contract : Nat × Nat) : Except Error Unit :=
  if providerIsCompatible contract then .ok ()
  else .error (.providerContract language contract.1 contract.2)

/-- Everything that can be answered without the network. -/
def withoutNetwork (request : ResolveRequest) :
    ExceptT Error (Prog ResolveOp) (Option ResolvedRuntime) := do
  if request.settings.preferSystem then
    match ← attempt .detectSystem with
    | some layout => pure (some (.fromLayout request.language .system layout))
    | none => act .scan
  else act .scan

/-- Resolve a request, installing a managed toolchain when it allows one. -/
def resolve (languages : List Language) (request : ResolveRequest) :
    ExceptT Error (Prog ResolveOp) (Option ResolvedRuntime) := do
  if request.settings.enabled = false then
    throw (.languageDisabled request.language)
  else do
    let key := memoKey request.language request.settings
    match ← act (.recalled key) with
    | some existing => pure (some existing)
    | none => do
        ExceptT.mk (pure (Registry.provider languages request.language))
        let contract ← attempt .describe
        ExceptT.mk (pure (verifyContract request.language contract))
        match ← withoutNetwork request with
        | some resolved => do
            act (.remember key resolved)
            pure (some resolved)
        | none =>
            if request.install = false then pure none
            else do
              let resolved ← attempt .install
              act (.remember key resolved)
              pure (some resolved)

/-! ## All runs -/

/-- What a resolver has computed, and what it has answered from its memo. -/
inductive MemoEvent
  | computed (request : ResolveRequest) (resolved : ResolvedRuntime)
  | answered (request : ResolveRequest) (resolved : ResolvedRuntime)

/-- The memo, newest entry first, and the history. No code reads the history. -/
structure Memo where
  resolved : List (String × ResolvedRuntime)
  log : List MemoEvent

/-- What the provider, the host and the network decide. -/
inductive ResolveChoice
  | pass
  | contract (r : Except Error (Nat × Nat))
  | layout (r : Except Error (Option RuntimeLayout))
  | scanned (r : Option ResolvedRuntime)
  | installed (r : Except Error ResolvedRuntime)

/-- The answer of an effect to the call for a request. -/
def ResolveOp.respond {β : Type} (op : ResolveOp β) (w : Memo × ResolveRequest)
    (c : ResolveChoice) : Option (β × Memo × ResolveRequest) :=
  match op with
  | .recalled key =>
      match w.1.resolved.lookup key with
      | none => some (none, w)
      | some v => some (some v, { w.1 with log := w.1.log ++ [.answered w.2 v] }, w.2)
  | .remember key v =>
      some ((), { resolved := (key, v) :: w.1.resolved
                  log := w.1.log ++ [.computed w.2 v] }, w.2)
  | .describe =>
      match c with
      | .contract r => some (r, w)
      | _ => none
  | .detectSystem =>
      match c with
      | .layout r => some (r, w)
      | _ => none
  | .scan =>
      match c with
      | .scanned r => some (r, w)
      | _ => none
  | .install =>
      match c with
      | .installed r => some (r, w)
      | _ => none

/-- The resolver's calls. Every effect is awaited, so a call can be dropped at
    each of them. -/
def resolver (languages : List Language) :
    Concurrent.Calls ResolveOp Memo ResolveRequest ResolveRequest ResolveChoice
      (Except Error (Option ResolvedRuntime)) where
  handler := { respond := ResolveOp.respond }
  suspends _ _ := true
  main request := (resolve languages request).run
  fresh request := request
  orphans _ _ := []
  ended _ request := request
  release _ := none
  env _ _ := none

/-- A resolver in the middle of any number of calls. -/
abbrev Resolver :=
  Concurrent.Config ResolveOp Memo ResolveRequest (Except Error (Option ResolvedRuntime))

/-- The runs of a resolver, from an empty memo. -/
def resolverRuns (languages : List Language) :=
  (resolver languages).system .none fun s => s = { resolved := [], log := [] }

/-- An effect that touches the memo does so under the key of its request. -/
def ResolveOp.keyed (request : ResolveRequest) : ∀ β, ResolveOp β → Prop
  | _, .recalled key => key = request.key
  | _, .remember key _ => key = request.key
  | _, _ => True

theorem keyed_withoutNetwork (request : ResolveRequest) :
    (withoutNetwork request).run.Uses (ResolveOp.keyed request) := by
  unfold withoutNetwork
  split
  · refine Prog.uses_run_bind ⟨trivial, fun _ => trivial⟩ fun layout => ?_
    cases layout with
    | some layout => trivial
    | none => exact Prog.uses_run_lift ⟨trivial, fun _ => trivial⟩
  · exact Prog.uses_run_lift ⟨trivial, fun _ => trivial⟩

theorem keyed_resolve (languages : List Language) (request : ResolveRequest) :
    (resolve languages request).run.Uses (ResolveOp.keyed request) := by
  unfold resolve
  split
  · trivial
  · refine Prog.uses_run_bind (Prog.uses_run_lift ⟨rfl, fun _ => trivial⟩) fun found => ?_
    cases found with
    | some existing => trivial
    | none =>
        refine Prog.uses_run_bind trivial fun _ =>
          Prog.uses_run_bind ⟨trivial, fun _ => trivial⟩ fun _ =>
            Prog.uses_run_bind trivial fun _ =>
              Prog.uses_run_bind (keyed_withoutNetwork request) fun free => ?_
        have hremember : ∀ v, (act (.remember request.key v) :
            ExceptT Error (Prog ResolveOp) Unit).run.Uses (ResolveOp.keyed request) := fun v =>
          Prog.uses_run_lift ⟨rfl, fun _ => trivial⟩
        cases free with
        | some resolved => exact Prog.uses_run_bind (hremember resolved) fun _ => trivial
        | none =>
            dsimp only
            split
            · trivial
            · exact Prog.uses_run_bind ⟨trivial, fun _ => trivial⟩ fun resolved =>
                Prog.uses_run_bind (hremember resolved) fun _ => trivial

/-- What the memo holds, and what was answered from it, was computed before for
    a request with that key. -/
structure Remembered (s : Memo) : Prop where
  held : ∀ k v, (k, v) ∈ s.resolved → ∃ r, .computed r v ∈ s.log ∧ r.key = k
  answered : ∀ pre r v post, s.log = pre ++ .answered r v :: post →
    ∃ r', .computed r' v ∈ pre ∧ r'.key = r.key

/-- Computing an answer and storing it under the key of its request. -/
theorem Remembered.remember {s : Memo} (h : Remembered s) (r : ResolveRequest)
    (v : ResolvedRuntime) :
    Remembered { resolved := (r.key, v) :: s.resolved, log := s.log ++ [.computed r v] } where
  held k v' hk := by
    rcases List.mem_cons.mp hk with hk | hk
    · cases hk
      exact ⟨r, List.mem_append_right _ (List.mem_singleton_self _), rfl⟩
    · rcases h.held k v' hk with ⟨r', hr', hkey⟩
      exact ⟨r', List.mem_append_left _ hr', hkey⟩
  answered pre r' v' post hlog := by
    rcases History.split_snoc hlog with ⟨_, hx, _⟩ | ⟨post', _, hold⟩
    · cases hx
    · exact h.answered pre r' v' post' hold

/-- Answering from the memo. -/
theorem Remembered.recalled {s : Memo} (h : Remembered s) (r : ResolveRequest)
    {v : ResolvedRuntime} (hv : s.resolved.lookup r.key = some v) :
    Remembered { s with log := s.log ++ [.answered r v] } where
  held k v' hk := by
    rcases h.held k v' hk with ⟨r', hr', hkey⟩
    exact ⟨r', List.mem_append_left _ hr', hkey⟩
  answered pre r' v' post hlog := by
    rcases History.split_snoc hlog with ⟨rfl, hx, _⟩ | ⟨post', _, hold⟩
    · cases hx
      rcases List.lookup_eq_some_iff.mp hv with ⟨l₁, l₂, hl, _⟩
      exact h.held r.key v (hl ▸ List.mem_append_right _ (List.mem_cons_self ..))
    · exact h.answered pre r' v' post' hold

theorem remembered_empty : Remembered { resolved := [], log := [] } where
  held _ _ hk := by cases hk
  answered pre _ _ _ hlog := by
    cases pre with
    | nil => cases hlog
    | cons x pre => cases hlog

theorem remembered_joint (languages : List Language) :
    Concurrent.Joint (resolver languages) .none (fun p r => p.Uses (ResolveOp.keyed r))
      (fun s _ => Remembered s) where
  call s _ request _ h := ⟨keyed_resolve languages request, h⟩
  perform e k s l₁ r l₂ c b s' r' _ huses h hr := by
    have hrespond : e.respond (s, r) c = some (b, s', r') := hr
    cases e with
    | recalled key =>
        rcases huses with ⟨rfl, huses⟩
        simp only [ResolveOp.respond] at hrespond
        split at hrespond
        · cases hrespond
          exact ⟨huses _, h⟩
        · rename_i v hv
          cases hrespond
          exact ⟨huses _, h.recalled r hv⟩
    | remember key v =>
        rcases huses with ⟨rfl, huses⟩
        cases hrespond
        exact ⟨huses _, h.remember r v⟩
    | _ =>
        simp only [ResolveOp.respond] at hrespond
        split at hrespond
        · cases hrespond
          exact ⟨huses.2 _, h⟩
        · cases hrespond
  finish _ _ _ _ _ _ h := h
  drop _ _ _ _ _ _ _ _ _ h := ⟨fun _ ho => absurd ho List.not_mem_nil, h⟩
  release _ _ _ _ _ _ _ hr := by cases hr
  env _ _ _ _ _ he := by cases he

/-- **The memo answers only the request it was made for**, exactly when the
    request is separable.

    In every run, a call for a separable request that is answered from the memo
    gets what an earlier call computed for the same selection. And a request is
    separable if and only if no request for another selection shares its key. -/
theorem memo_answers_iff (languages : List Language) {g : Resolver}
    (h : Transition.Reachable (resolverRuns languages) g) :
    (∀ pre r v post, g.shared.log = pre ++ .answered r v :: post → Separable r →
      ∃ r', .computed r' v ∈ pre ∧ SameSelection r' r) ∧
    ∀ r : ResolveRequest,
      (∀ r' : ResolveRequest, r'.key = r.key → SameSelection r' r) ↔ Separable r := by
  have hinv := ((remembered_joint languages).reachable
    (fun s (hs : s = _) => hs ▸ remembered_empty) h).2
  refine ⟨?_, ?_⟩
  · intro pre r v post hlog hsep
    rcases hinv.answered pre r v post hlog with ⟨r', hr', hkey⟩
    exact ⟨r', hr', memoKey_separable hsep hkey⟩
  · intro r
    constructor
    · intro hinj
      by_contra hsep
      rcases memoKey_collides hsep with ⟨s, hkey, hne⟩
      exact hne (hinj s hkey)
    · exact fun hsep r' hkey => memoKey_separable hsep hkey

/-! ## A collision -/

def nodejs : Language :=
  Language.new "nodejs"

def pinned (version maximum : String) : ResolveRequest :=
  { language := nodejs
    settings :=
      { enabled := true, preferSystem := true, version := version, maximumVersion := maximum
        cacheDir := "", releaseTag := "", preferredCommand := "" }
    install := true }

/-- The host's toolchain is resolved for the first request. -/
def hostRuntime : ResolvedRuntime :=
  .fromLayout nodejs .system { version := "18", binDir := "/usr/bin", executables := [] }

/-- One request resolved on the host, then another one made. -/
def twoRequests (first second : ResolveRequest) : List (Concurrent.Step ResolveRequest
    ResolveChoice) :=
  [.call first, .perform 0 .pass, .perform 0 (.contract (.ok (1, 0))),
    .perform 0 (.layout (.ok (some { version := "18", binDir := "/usr/bin", executables := [] }))),
    .perform 0 .pass, .finish 0, .call second, .perform 1 .pass]

/-- The version and its upper bound trade a separator: the second request is
    handed the toolchain of the first. -/
theorem memo_hands_over : ∃ g : Resolver, Transition.Reachable (resolverRuns [nodejs]) g ∧
    ∃ pre r v post, g.shared.log = pre ++ .answered r v :: post ∧
      ¬ ∃ r', .computed r' v ∈ pre ∧ SameSelection r' r := by
  have hrun : (Transition.play (resolver [nodejs]).move { shared := ⟨[], []⟩, calls := [] }
      (twoRequests (pinned "18" "20|22") (pinned "18|20" "22"))).map (fun g => g.shared.log) =
        some [.computed (pinned "18" "20|22") hostRuntime,
          .answered (pinned "18|20" "22") hostRuntime] := by rfl
  rcases Option.map_eq_some_iff.mp hrun with ⟨g, hg, hlog⟩
  refine ⟨g, Concurrent.reachable_play rfl hg, [.computed (pinned "18" "20|22") hostRuntime], _, _, [], hlog, ?_⟩
  rintro ⟨r', hr', _, hversion, _⟩
  cases List.mem_singleton.mp hr'
  exact absurd hversion (by decide)

/-- A request without separators, made twice, is answered from the memo. -/
theorem memo_answers_pinned : ∃ g : Resolver, g.shared.log = [.computed (pinned "18" "20") hostRuntime,
      .answered (pinned "18" "20") hostRuntime] ∧
    ∃ r', .computed r' hostRuntime ∈ [MemoEvent.computed (pinned "18" "20") hostRuntime] ∧
      SameSelection r' (pinned "18" "20") := by
  have hrun : (Transition.play (resolver [nodejs]).move { shared := ⟨[], []⟩, calls := [] }
      (twoRequests (pinned "18" "20") (pinned "18" "20"))).map (fun g => g.shared.log) =
        some [.computed (pinned "18" "20") hostRuntime,
          .answered (pinned "18" "20") hostRuntime] := by rfl
  rcases Option.map_eq_some_iff.mp hrun with ⟨g, hg, hlog⟩
  have hreach : Transition.Reachable (resolverRuns [nodejs]) g :=
    Concurrent.reachable_play rfl hg
  have hsep : Separable (pinned "18" "20") := by
    refine ⟨by decide, fun a b hab => ?_⟩
    have hmem : '|' ∈ (pinned "18" "20").language.id.toList := by
      rw [hab, String.toList_append, String.toList_append]
      exact List.mem_append_left _ (List.mem_append_right _ (by decide))
    exact absurd hmem (by decide)
  exact ⟨g, hlog, (memo_answers_iff [nodejs] hreach).1
    [.computed (pinned "18" "20") hostRuntime] _ _ [] hlog hsep⟩

end TinyRuntime
