import TinyRuntime.Cache.Portable
import TinyRuntime.Cache.Session
import TinyRuntime.Lib.Reading

/-!
# Recipe Identities

What is hashed of a recipe, and where the hash is kept.

The serialization is the derived one: a structure is an object with its fields in the
order of their declaration, a byte is a number, a pair is an array, and a deadline that
is not there has no member. It is written to the hash in pieces, which the hash cannot
tell from the whole. A recipe can be read back from it, since every member has a name and
a place, and the one that may be missing is the last of its object.

The hash is a parameter.

## Main definitions

* `CacheRecipe.document`: A recipe as it is serialized.
* `recipeDigest`: The code that makes identities.
* `CacheRecipe.paths`: The paths a recipe names.

## Theorems

* `CacheRecipe.document_injective`: A recipe is determined by its document.
* `Cache.paths_relative`: The paths of a recipe that is accepted.
* `Cache.identities_differ`: Different recipes have different identities.
-/

namespace TinyRuntime

open Document (Serializer)

/-! ## Serialization -/

def CacheArtifact.document (a : CacheArtifact) : Document :=
  .object [("path", .string a.path),
    ("bytes", .array (a.bytes.map fun b => .number (.ofNat b.toNat)))]

/-- `rename_all = "snake_case"`. -/
def CacheEntryKind.name : CacheEntryKind → String
  | file => "file"
  | directory => "directory"
  | entry => "entry"

def CacheEntry.document (e : CacheEntry) : Document :=
  .object [("path", .string e.path), ("kind", .string e.kind.name)]

/-- `rename_all = "snake_case"`. -/
def CacheAdoptionPolicy.name : CacheAdoptionPolicy → String
  | strict => "strict"
  | adoptVerifiedLegacy => "adopt_verified_legacy"

def WorkerCommand.document (c : WorkerCommand) : Document :=
  .object ([("executable", .string c.executable), ("args", .array (c.args.map .string)),
      ("env", .array (c.env.map fun pair => .array [.string pair.1, .string pair.2]))] ++
    -- `skip_serializing_if = "Option::is_none"`.
    match c.timeoutMs with
    | none => []
    | some timeout => [("timeout_ms", .number (.ofNat timeout))])

def CacheRecipe.document (r : CacheRecipe) : Document :=
  .object [("scope", .string r.scope), ("artifacts", .array (r.artifacts.map (·.document))),
    ("steps", .array (r.steps.map (·.document))),
    ("required", .array (r.required.map (·.document))), ("marker", r.marker.document),
    ("adoption", .string r.adoption.name), ("timeout_ms", .number (.ofNat r.timeoutMs))]

/-- The hash so far is the bytes it has been given. -/
def HashWriter.write : Document.Writer (List UInt8) := fun bytes s =>
  .ok (bytes.length, s ++ bytes)

/-- The code that makes identities, with the hash left open. -/
def recipeDigest (serializer : Serializer) (hash : List UInt8 → String) : Digest :=
  { encode := fun recipe => Document.toWriter serializer HashWriter.write recipe.document []
    hash := hash }

/-! ## Recipes read back -/

theorem CacheArtifact.document_injective : Function.Injective CacheArtifact.document := by
  intro a b h
  simp only [document, Document.object.injEq, List.cons.injEq, Prod.mk.injEq, true_and, and_true,
    Document.string.injEq, Document.array.injEq] at h
  rcases h with ⟨hpath, hbytes⟩
  have hbyte : Function.Injective fun b : UInt8 => Document.number (.ofNat b.toNat) := by
    intro b c hbc
    exact UInt8.toNat_inj.mp (Number.ofNat_injective (Document.number.inj hbc))
  have hlist := List.map_injective_iff.mpr hbyte hbytes
  cases a
  cases b
  cases hpath
  cases hlist
  rfl

theorem CacheEntryKind.name_injective : Function.Injective CacheEntryKind.name := by
  intro k l h
  cases k <;> cases l <;> first | rfl | exact absurd h (by decide)

theorem CacheAdoptionPolicy.name_injective : Function.Injective CacheAdoptionPolicy.name := by
  intro p q h
  cases p <;> cases q <;> first | rfl | exact absurd h (by decide)

theorem CacheEntry.document_injective : Function.Injective CacheEntry.document := by
  intro e f h
  simp only [document, Document.object.injEq, List.cons.injEq, Prod.mk.injEq, true_and, and_true,
    Document.string.injEq] at h
  rcases h with ⟨hpath, hkind⟩
  have hsame := CacheEntryKind.name_injective hkind
  cases e
  cases f
  cases hpath
  cases hsame
  rfl

theorem WorkerCommand.document_injective : Function.Injective WorkerCommand.document := by
  intro c d h
  rcases c with ⟨executable, args, env, timeout⟩
  rcases d with ⟨executable', args', env', timeout'⟩
  simp only [document, Document.object.injEq, List.cons_append, List.nil_append, List.cons.injEq,
    Prod.mk.injEq, true_and, Document.string.injEq, Document.array.injEq] at h
  rcases h with ⟨rfl, hargs, henv, htimeout⟩
  have hstring : Function.Injective Document.string := fun _ _ h => Document.string.inj h
  have hpair : Function.Injective fun pair : String × String =>
      Document.array [.string pair.1, .string pair.2] := by
    intro p q hpq
    simp only [Document.array.injEq, List.cons.injEq, Document.string.injEq, and_true] at hpq
    exact Prod.ext hpq.1 hpq.2
  cases List.map_injective_iff.mpr hstring hargs
  cases List.map_injective_iff.mpr hpair henv
  have hsame : timeout = timeout' := by
    cases timeout with
    | none =>
        cases timeout' with
        | none => rfl
        | some t => cases htimeout
    | some t =>
        cases timeout' with
        | none => cases htimeout
        | some u =>
            simp only [List.cons.injEq, Prod.mk.injEq, true_and, and_true,
              Document.number.injEq] at htimeout
            rw [Number.ofNat_injective htimeout]
  rw [hsame]

/-- A recipe is determined by its document. -/
theorem CacheRecipe.document_injective : Function.Injective CacheRecipe.document := by
  intro r s h
  rcases r with ⟨scope, artifacts, steps, required, marker, adoption, timeout⟩
  rcases s with ⟨scope', artifacts', steps', required', marker', adoption', timeout'⟩
  simp only [document, Document.object.injEq, List.cons.injEq, Prod.mk.injEq, true_and, and_true,
    Document.string.injEq, Document.array.injEq, Document.number.injEq] at h
  rcases h with ⟨rfl, hartifacts, hsteps, hrequired, hmarker, hadoption, htimeout⟩
  cases List.map_injective_iff.mpr CacheArtifact.document_injective hartifacts
  cases List.map_injective_iff.mpr WorkerCommand.document_injective hsteps
  cases List.map_injective_iff.mpr CacheEntry.document_injective hrequired
  cases CacheArtifact.document_injective hmarker
  cases Number.ofNat_injective htimeout
  cases CacheAdoptionPolicy.name_injective hadoption
  rfl

/-! ## Paths -/

/-- The paths a recipe names. -/
def CacheRecipe.paths (r : CacheRecipe) : List String :=
  (r.artifacts ++ [r.marker]).map (·.path) ++ r.required.map (·.path)

namespace Cache

theorem artifacts_relative {artifacts : List CacheArtifact} : ∀ {paths : List String}
    {bytes total : Nat}, artifactBytes artifacts paths bytes = .ok total →
    ∀ a ∈ artifacts, relative a.path = .ok () := by
  induction artifacts with
  | nil => exact fun _ a ha => absurd ha List.not_mem_nil
  | cons first rest ih =>
      intro paths bytes total h a ha
      rw [artifactBytes] at h
      cases hpath : relative first.path with
      | error e =>
          rw [hpath] at h
          cases h
      | ok u =>
          rw [hpath] at h
          simp only [bind, Except.bind] at h
          split at h
          · cases h
          · rcases List.mem_cons.mp ha with rfl | ha
            · exact hpath
            · exact ih h a ha

theorem required_relative {entries : List CacheEntry} (h : requiredPaths entries = .ok ()) :
    ∀ e ∈ entries, relative e.path = .ok () := by
  induction entries with
  | nil => exact fun e he => absurd he List.not_mem_nil
  | cons first rest ih =>
      rw [requiredPaths] at h
      cases hpath : relative first.path with
      | error e =>
          rw [hpath] at h
          cases h
      | ok u =>
          rw [hpath] at h
          intro e he
          rcases List.mem_cons.mp he with rfl | he
          · exact hpath
          · exact ih h e he

/-- The paths of a recipe that is accepted are accepted. -/
theorem paths_relative {r : CacheRecipe} (h : Cache.recipe r = .ok ()) :
    ∀ path ∈ r.paths, relative path = .ok () := by
  rw [Cache.recipe] at h
  split at h
  · cases h
  · cases hbytes : artifactBytes (r.artifacts ++ [r.marker]) [] 0 with
    | error e =>
        rw [hbytes] at h
        cases h
    | ok total =>
        rw [hbytes] at h
        simp only [bind, Except.bind] at h
        split at h
        · cases h
        · split at h
          · cases h
          · rename_i hrequired
            intro path hpath
            rcases List.mem_append.mp hpath with hpath | hpath
            · rcases List.mem_map.mp hpath with ⟨a, ha, rfl⟩
              exact artifacts_relative hbytes a ha
            · rcases List.mem_map.mp hpath with ⟨e, he, rfl⟩
              exact required_relative hrequired e he

/-! ## Identities -/

variable (serializer : Serializer) (hash : List UInt8 → String)

/-- What is hashed of a recipe is the text of its document. -/
theorem encode_text (r : CacheRecipe) :
    (recipeDigest serializer hash).encode r = .ok r.document.text :=
  Document.toVec_text serializer r.document

/-- The first part of a text begins like it, up to a separator. -/
theorem splitOn_append {c : Char} {start : List Char} (hc : c ∉ start) (l : List Char) :
    ∃ first parts, (start ++ l).splitOn c = (start ++ first) :: parts := by
  induction start with
  | nil => exact List.exists_cons_of_ne_nil (List.splitOn_ne_nil c l)
  | cons x start ih =>
      rcases ih fun h => hc (List.mem_cons_of_mem _ h) with ⟨first, parts, hparts⟩
      have hx : ¬ (x == c) = true := fun h => hc (eq_of_beq h ▸ List.mem_cons_self)
      refine ⟨first, parts, ?_⟩
      rw [List.cons_append, List.splitOn_cons_eq_if_modifyHead, if_neg hx, hparts]
      rfl

/-- A name of the router's own is not a path of a recipe. -/
theorem relative_reserved (rest : String) : relative (".tinyruntime-" ++ rest) ≠ .ok () := by
  intro hok
  have hslash : '/' ∉ ".tinyruntime-".toList := by decide
  rcases splitOn_append hslash rest.toList with ⟨first, parts, hparts⟩
  have hpart : ".tinyruntime-".toList ++ first ∈
      (".tinyruntime-" ++ rest).toList.splitOn '/' := by
    rw [String.toList_append, hparts]
    exact List.mem_cons_self
  refine of_decide_eq_false ((relative_ok.mp hok).2 _ hpart) ?_
  rw [List.map_append]
  exact List.prefix_append _ _

/-- Different recipes with one marker have different bytes to be hashed, so that what is
    kept differs unless the hash collides. Where it is kept depends on the path of the
    marker only, and is neither the lock nor a path of a recipe that is accepted. -/
theorem identities_differ (r s : CacheRecipe) (hmarker : r.marker.path = s.marker.path)
    (hne : r ≠ s) :
    ∃ fed fed' a b,
      (recipeDigest serializer hash).encode r = .ok fed ∧
      (recipeDigest serializer hash).encode s = .ok fed' ∧
      Cache.identity (recipeDigest serializer hash) r = .ok a ∧
      Cache.identity (recipeDigest serializer hash) s = .ok b ∧
      fed ≠ fed' ∧ (a.bytes = b.bytes → hash fed = hash fed') ∧
      a.path = b.path ∧ OsString.ofString a.path ≠ LOCK_NAME ∧
      ∀ other, Cache.recipe other = .ok () → ∀ path ∈ other.paths, path ≠ a.path := by
  have hr := encode_text serializer hash r
  have hs := encode_text serializer hash s
  refine ⟨_, _, _, _, hr, hs, by rw [Cache.identity, hr], by rw [Cache.identity, hs],
    fun h => ?_, fun h => ?_, ?_, fun h => ?_, fun other hother path hpath h => ?_⟩
  · exact hne (CacheRecipe.document_injective (Document.text_injective h))
  · refine Document.bytes_injective ?_
    rw [← Document.bytes_eq, ← Document.bytes_eq]
    exact h
  · rw [hmarker]
  · -- The names part after the common start.
    have hchars := List.map_injective_iff.mpr (fun _ _ h => OsChar.char.inj h) h
    rw [String.toList_append] at hchars
    have hletter := congrArg (fun l => l[13]?) hchars
    cases hletter
  · refine relative_reserved ("recipe-" ++ hash r.marker.path.toUTF8.toList) ?_
    have hname : ".tinyruntime-" ++ ("recipe-" ++ hash r.marker.path.toUTF8.toList) =
        ".tinyruntime-recipe-" ++ hash r.marker.path.toUTF8.toList := by
      rw [← String.append_assoc]
      rfl
    have hok := paths_relative hother path hpath
    rw [h] at hok
    rw [hname]
    exact hok

/-- Two recipes that only differ in the bytes of their markers. -/
theorem identities_differ_marker :
    let r : CacheRecipe :=
      { scope := "s", artifacts := [], steps := [], required := [], marker := ⟨"ready", [1]⟩
        adoption := .strict, timeoutMs := 1 }
    let s : CacheRecipe := { r with marker := ⟨"ready", [2]⟩ }
    let digest := recipeDigest ⟨fun d => [d.text], fun _ => List.append_nil _⟩ fun _ => "00"
    (r.marker.path = s.marker.path ∧ r ≠ s) ∧
      ∃ fed fed', digest.encode r = .ok fed ∧ digest.encode s = .ok fed' ∧ fed ≠ fed' := by
  refine ⟨⟨rfl, by decide⟩, ?_⟩
  rcases identities_differ ⟨fun d => [d.text], fun _ => List.append_nil _⟩ (fun _ => "00")
    { scope := "s", artifacts := [], steps := [], required := [], marker := ⟨"ready", [1]⟩
      adoption := .strict, timeoutMs := 1 }
    { scope := "s", artifacts := [], steps := [], required := [], marker := ⟨"ready", [2]⟩
      adoption := .strict, timeoutMs := 1 } rfl (by decide) with
    ⟨fed, fed', -, -, hr, hs, -, -, hne, -⟩
  exact ⟨fed, fed', hr, hs, hne⟩

end Cache

end TinyRuntime
