import TinyRuntime.Cache.Scope
import TinyRuntime.Worker.Validate

/-!
# Validated Recipes

What a recipe has to be before its cache is touched: portable relative paths, and
bounds on everything it lists.

## Main definitions

* `Cache.safeRelative`, `Cache.relative`: Paths under a scope.
* `Cache.recipe`: A whole recipe.
-/

namespace TinyRuntime

namespace Cache

def MAX_FILE : Nat := 64 * 1024

/-- `char::is_control`. -/
def isControl (c : Char) : Bool :=
  c.toNat < 32 ∨ 127 ≤ c.toNat ∧ c.toNat < 160

section

local instance lawfulStem : LawfulBEq (List Char) := inferInstance

/-- A device name, up to the first dot and in upper case. -/
def isDevice (stem : List Char) : Bool :=
  stem ∈ ["CON", "PRN", "AUX", "NUL"].map String.toList ∨
    (stem.map Char.utf8Size).sum = 4 ∧ ("COM".toList <+: stem ∨ "LPT".toList <+: stem) ∧
      stem[3]?.any Char.isDigit

end

/-- One part of a path that would mean something else on another system. -/
def unsafePart (part : List Char) : Bool :=
  let stem := ((part.splitOn '.').head?.getD []).map Char.toUpper
  part = [] ∨ part = ['.'] ∨ part = ['.', '.'] ∨ forbidden part ∨
    part.getLast? = some '.' ∨ part.getLast? = some ' ' ∨ isDevice stem

def safeRelative (path : String) : Except String Unit :=
  if path = "" ∨ 512 < path.utf8ByteSize ∨ '\\' ∈ path.toList ∨ ':' ∈ path.toList ∨
      path.toList.any isControl then
    .error "cache_path_invalid"
  else if (path.toList.splitOn '/').any unsafePart then .error "cache_path_invalid"
  else .ok ()

/-- A part of a path that only the router uses. -/
def reservedPart (part : List Char) : Bool :=
  ".tinyruntime-".toList <+: part.map Char.toLower

/-- A path a recipe may name. -/
def relative (path : String) : Except String Unit := do
  safeRelative path
  if (path.toList.splitOn '/').any reservedPart then throw "cache_path_invalid"

/-- The loop over the artifacts and the marker: the paths seen so far, and the bytes. -/
def artifactBytes : List CacheArtifact → List String → Nat → Except String Nat
  | [], _, bytes => .ok bytes
  | artifact :: rest, paths, bytes => do
      relative artifact.path
      if MAX_FILE < artifact.bytes.length ∨ artifact.path ∈ paths then throw "cache_artifact_limit"
      artifactBytes rest (artifact.path :: paths) (bytes + artifact.bytes.length)

/-- The paths of the required entries, up to the first that fails. -/
def requiredPaths : List CacheEntry → Except String Unit
  | [] => .ok ()
  | required :: rest => do
      relative required.path
      requiredPaths rest

def recipe (recipe : CacheRecipe) : Except String Unit :=
  if ¬ validId recipe.scope ∨ 16 < recipe.artifacts.length ∨ 32 < recipe.required.length ∨
      16 < recipe.steps.length ∨ recipe.timeoutMs = 0 ∨
      4 * 60 * 60 * 1000 < recipe.timeoutMs then
    .error "cache_recipe_limit"
  else do
    let bytes ← artifactBytes (recipe.artifacts ++ [recipe.marker]) [] 0
    if 1024 * 1024 < bytes then throw "cache_artifact_limit"
    requiredPaths recipe.required
    Validate.commands recipe.steps

end Cache

end TinyRuntime
