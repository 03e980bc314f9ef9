import TinyRuntime.Pool.Replies
import TinyRuntime.Lib.Quoted

/-!
# The Fingerprint of a Pool

The text that decides whether a live pool can serve a launch: the launch without
its handshake timeout, and the tuning of the pool. Neither the source of the
harness nor the version of the runtime is in it.

The fields are joined by a bar and the path of the binary is not escaped, so the
text is read from its end: the numbers have no bar, and the debug output of the
arguments and of the environment is balanced. For one language and one spawner,
the fingerprint determines everything that goes into it (`fingerprint_injective`).

## Main definitions

* `Launch.fingerprint`, `poolFingerprint`: The text.

## Theorems

* `fingerprint_injective`: What two launches with one fingerprint agree in.
-/

namespace TinyRuntime

/-- The debug output of the arguments. -/
def debugArgs (printable : Char → Bool) (args : List String) : String :=
  String.ofList (Quoted.list (fun s => Quoted.quote printable s.toList) args)

/-- The debug output of the environment. -/
def debugEnv (printable : Char → Bool) (env : List (String × String)) : String :=
  String.ofList (Quoted.list (Quoted.pair (fun s => Quoted.quote printable s.toList)
    fun s => Quoted.quote printable s.toList) env)

/-- The name of the spawner of a launch. -/
def Launch.spawnerId (launch : Launch) : String :=
  match launch.spawner with
  | some spawner => spawner.id
  | none => "direct"

/-- A fingerprint that decides whether a running pool can serve this launch. -/
def Launch.fingerprint (printable : Char → Bool) (launch : Launch) : String :=
  launch.language.id ++ "|" ++ launch.binary ++ "|" ++ debugArgs printable launch.args ++ "|"
    ++ debugEnv printable launch.env ++ "|" ++ toString launch.protocolVersion
    ++ "|spawner=" ++ launch.spawnerId

/-- The fingerprint an entry of the registry is built for. -/
def poolFingerprint (printable : Char → Bool) (launch : Launch) (settings : PoolSettings) :
    String :=
  launch.fingerprint printable ++ "|workers=" ++ toString settings.effectiveMaxWorkers
    ++ "|ttl=" ++ toString settings.idleTtlSecs
    ++ "|recycle=" ++ toString settings.recycleAfterJobs
    ++ "|queue=" ++ toString settings.maxQueueDepth

section Injective

variable {printable : Char → Bool}

/-- The last number of a text, after its name. -/
theorem cut_number {bar s t : String} {m n : Nat}
    (h : s ++ bar ++ toString m = t ++ bar ++ toString n) (name : List Char)
    (hbar : bar.toList = '|' :: name) (hname : '|' ∉ name) : s = t ∧ m = n := by
  have hclean : ∀ n : Nat, '|' ∉ name ++ (toString n).toList := by
    intro n h
    rcases List.mem_append.mp h with h | h
    · exact hname h
    · rw [Nat.toString_eq_repr, Nat.toList_repr] at h
      exact absurd (Nat.isDigit_of_mem_toDigits (by decide) (by decide) h) (by decide)
  have htext := congrArg String.toList h
  simp only [String.toList_append, hbar, List.append_assoc, List.cons_append] at htext
  rcases Separator.split_clean (hclean m) (hclean n) htext with ⟨hst, hmn⟩
  exact ⟨String.toList_inj.mp hst,
    Decimal.toString_injective (String.toList_inj.mp (List.append_cancel_left hmn))⟩

/-- The last balanced part of a text, after a bar. -/
theorem cut_balanced {s t a b : String} (ha : Quoted.Balanced a.toList)
    (hb : Quoted.Balanced b.toList) (h : s ++ "|" ++ a = t ++ "|" ++ b) : s = t ∧ a = b := by
  have htext := congrArg String.toList h
  have hbar : "|".toList = ['|'] := rfl
  simp only [String.toList_append, hbar, List.append_assoc, List.cons_append,
    List.nil_append] at htext
  rcases Quoted.split_last (by decide) (by decide) (by decide) ha hb htext with ⟨hst, hab⟩
  exact ⟨String.toList_inj.mp hst, String.toList_inj.mp hab⟩

theorem append_right_cancel {s t a : String} (h : s ++ a = t ++ a) : s = t := by
  have htext := congrArg String.toList h
  rw [String.toList_append, String.toList_append] at htext
  exact String.toList_inj.mp (List.append_cancel_right htext)

theorem decodes_string : Quoted.Decodes fun s : String => Quoted.quote printable s.toList := by
  intro s t x y h
  rcases Quoted.decodes_quote printable _ _ x y h with ⟨hst, hx⟩
  exact ⟨String.toList_inj.mp hst, hx⟩

theorem quote_start (s : String) : ∃ l, Quoted.quote printable s.toList = '"' :: l :=
  ⟨_, rfl⟩

theorem debugArgs_injective {args args' : List String}
    (h : debugArgs printable args = debugArgs printable args') : args = args' := by
  have htext := congrArg (· ++ []) (String.ofList_injective h)
  exact (decodes_string.list quote_start (by decide) _ _ [] [] htext).1

theorem debugEnv_injective {env env' : List (String × String)}
    (h : debugEnv printable env = debugEnv printable env') : env = env' := by
  have htext := congrArg (· ++ []) (String.ofList_injective h)
  have hdecodes := (@decodes_string printable).pair (@decodes_string printable)
  exact (hdecodes.list (fun _ => ⟨_, rfl⟩) (by decide) _ _ [] [] htext).1

theorem balanced_debugArgs (args : List String) :
    Quoted.Balanced (debugArgs printable args).toList := by
  rw [debugArgs, String.toList_ofList]
  exact .list (fun s => Quoted.balanced_quote printable s.toList) args

theorem balanced_debugEnv (env : List (String × String)) :
    Quoted.Balanced (debugEnv printable env).toList := by
  have hquote : ∀ s : String, Quoted.Balanced (Quoted.quote printable s.toList) :=
    fun s => Quoted.balanced_quote printable s.toList
  rw [debugEnv, String.toList_ofList]
  exact .list (fun x => Quoted.Balanced.pair hquote hquote x) env

/-- What two launches of one language through one spawner agree in when their
    fingerprints do. -/
theorem fingerprint_injective {launch launch' : Launch} {settings settings' : PoolSettings}
    (hlanguage : launch.language = launch'.language)
    (hspawner : launch.spawnerId = launch'.spawnerId)
    (h : poolFingerprint printable launch settings = poolFingerprint printable launch' settings') :
    launch.binary = launch'.binary ∧ launch.args = launch'.args ∧ launch.env = launch'.env ∧
      launch.protocolVersion = launch'.protocolVersion ∧
      settings.effectiveMaxWorkers = settings'.effectiveMaxWorkers ∧
      settings.idleTtlSecs = settings'.idleTtlSecs ∧
      settings.recycleAfterJobs = settings'.recycleAfterJobs ∧
      settings.maxQueueDepth = settings'.maxQueueDepth := by
  unfold poolFingerprint at h
  rcases cut_number h "queue=".toList rfl (by decide) with ⟨h, hqueue⟩
  rcases cut_number h "recycle=".toList rfl (by decide) with ⟨h, hrecycle⟩
  rcases cut_number h "ttl=".toList rfl (by decide) with ⟨h, httl⟩
  rcases cut_number h "workers=".toList rfl (by decide) with ⟨h, hworkers⟩
  unfold Launch.fingerprint at h
  rw [hspawner] at h
  have hnumber := append_right_cancel (append_right_cancel h)
  rcases cut_number hnumber [] rfl List.not_mem_nil with ⟨h, hprotocol⟩
  rcases cut_balanced (balanced_debugEnv _) (balanced_debugEnv _) h with ⟨h, henv⟩
  rcases cut_balanced (balanced_debugArgs _) (balanced_debugArgs _) h with ⟨h, hargs⟩
  rw [hlanguage] at h
  have hbinary : launch.binary = launch'.binary := by
    have htext := congrArg String.toList h
    simp only [String.toList_append, List.append_cancel_left_eq] at htext
    exact String.toList_inj.mp htext
  exact ⟨hbinary, debugArgs_injective hargs, debugEnv_injective henv, hprotocol, hworkers, httl,
    hrecycle, hqueue⟩

end Injective

end TinyRuntime
