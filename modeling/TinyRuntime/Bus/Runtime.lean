import Mathlib.Data.List.DropRight
import Mathlib.Data.List.TakeWhile
import Mathlib.Tactic.Common

/-!
# Runtime Vocabulary

The wire types of resolving a language runtime, and the router's errors.

A `Language` cannot be built without being normalised: the constructor trims and
lowercases, decoding goes through it, and the field `normal` records the fact.
Trimming is by the Unicode `White_Space` property, lowercasing is of ASCII
letters only.

## Main definitions

* `Language`: The routing key.
* `RuntimeSettings`, `ResolveRequest`: What a host asks for.
* `Distribution`, `RuntimeLayout`, `ResolvedRuntime`: What it gets.
* `Error`, `Error.isRetryable`: What can go wrong.

## Theorems

* `normalise_idem`: Normalising twice is normalising once.
-/

namespace TinyRuntime

/-- `char::is_whitespace`. -/
def isWhitespace (c : Char) : Bool :=
  let n := c.toNat
  (9 ≤ n && n ≤ 13) || n = 32 || n = 0x85 || n = 0xA0 || n = 0x1680
    || (0x2000 ≤ n && n ≤ 0x200A) || n = 0x2028 || n = 0x2029 || n = 0x202F
    || n = 0x205F || n = 0x3000

/-- The characters of a trimmed string. -/
def trimmed (l : List Char) : List Char :=
  (l.dropWhile isWhitespace).rdropWhile isWhitespace

/-- `str::trim`. -/
def trim (s : String) : String :=
  String.ofList (trimmed s.toList)

/-- `str::to_ascii_lowercase`. -/
def toAsciiLowercase (s : String) : String :=
  String.ofList (s.toList.map Char.toLower)

/-- What `Language::new` makes of an identifier. -/
def Language.normalise (id : String) : String :=
  toAsciiLowercase (trim id)

/-- A letter is 32 below its lower case, and everything else is its own. -/
theorem toLower_cases (c : Char) :
    (65 ≤ c.toNat ∧ c.toNat ≤ 90 ∧ c.toLower.toNat = c.toNat + 32) ∨
      (¬ (65 ≤ c.toNat ∧ c.toNat ≤ 90) ∧ c.toLower = c) := by
  unfold Char.toLower
  split
  · rename_i h
    have hlow : 65 ≤ c.val.toNat := UInt32.le_iff_toNat_le.mp h.1
    have hhigh : c.val.toNat ≤ 90 := UInt32.le_iff_toNat_le.mp h.2
    refine .inl ⟨hlow, hhigh, ?_⟩
    change (c.val + 32).toNat = c.val.toNat + 32
    have hoffset : (32 : UInt32).toNat = 32 := rfl
    rw [UInt32.toNat_add, hoffset]
    omega
  · rename_i h
    refine .inr ⟨fun hr => h ⟨?_, ?_⟩, rfl⟩
    · exact UInt32.le_iff_toNat_le.mpr hr.1
    · exact UInt32.le_iff_toNat_le.mpr hr.2

theorem toLower_toLower (c : Char) : c.toLower.toLower = c.toLower := by
  rcases toLower_cases c with ⟨hlow, hhigh, hc⟩ | ⟨_, hc⟩
  · rcases toLower_cases c.toLower with ⟨_, hhigh', _⟩ | ⟨_, hc'⟩
    · omega
    · exact hc'
  · rw [hc, hc]

/-- ASCII case is no matter of white space. -/
theorem isWhitespace_toLower (c : Char) : isWhitespace c.toLower = isWhitespace c := by
  rcases toLower_cases c with ⟨hlow, hhigh, hc⟩ | ⟨_, hc⟩
  · simp only [isWhitespace, hc]
    grind
  · rw [hc]

theorem trimmed_map_toLower (l : List Char) :
    trimmed (l.map Char.toLower) = (trimmed l).map Char.toLower := by
  have hcomp : isWhitespace ∘ Char.toLower = isWhitespace := funext isWhitespace_toLower
  simp only [trimmed, List.rdropWhile, List.dropWhile_map, ← List.map_reverse, hcomp]

theorem trimmed_idem (l : List Char) : trimmed (trimmed l) = trimmed l := by
  -- The first character that is kept stays the first.
  have hfirst : (trimmed l).dropWhile isWhitespace = trimmed l := by
    rw [List.dropWhile_eq_self_iff]
    intro hpos
    have hpre : trimmed l <+: l.dropWhile isWhitespace := List.rdropWhile_prefix _ _
    rw [hpre.getElem hpos]
    exact (List.dropWhile_eq_self_iff.mp (List.dropWhile_idempotent _ l)) _
  rw [trimmed, hfirst]
  exact List.rdropWhile_idempotent _ _

theorem normalise_idem (id : String) :
    Language.normalise (Language.normalise id) = Language.normalise id := by
  simp only [Language.normalise, toAsciiLowercase, trim, String.toList_ofList,
    trimmed_map_toLower, trimmed_idem, List.map_map]
  congr 2
  exact funext toLower_toLower

/-- A language identifier, trimmed and lowercased. -/
structure Language where
  id : String
  normal : Language.normalise id = id
deriving DecidableEq

def Language.new (id : String) : Language :=
  { id := Language.normalise id, normal := normalise_idem id }

/-- The per-language settings of a request. -/
structure RuntimeSettings where
  enabled : Bool
  preferSystem : Bool
  version : String
  maximumVersion : String
  cacheDir : String
  releaseTag : String
  preferredCommand : String
deriving DecidableEq, Repr

structure ResolveRequest where
  language : Language
  settings : RuntimeSettings
  install : Bool
deriving DecidableEq

inductive RuntimeSource
  | system
  | managed
deriving DecidableEq, Repr

inductive ArchiveFormat
  | tarGz
  | tarXz
  | zip
deriving DecidableEq, Repr

/-- One downloadable archive. -/
structure Distribution where
  version : String
  archiveName : String
  url : String
  expectedSha256 : Option String
  format : ArchiveFormat
  installDirName : String
  headers : List (String × String)
deriving DecidableEq, Repr

/-- Where the executables of an install are. -/
structure RuntimeLayout where
  version : String
  binDir : String
  executables : List (String × String)
deriving DecidableEq, Repr

structure ResolvedRuntime where
  language : Language
  version : String
  source : RuntimeSource
  binDir : String
  executables : List (String × String)
  installDir : Option String
deriving DecidableEq

def ResolvedRuntime.fromLayout (language : Language) (source : RuntimeSource)
    (layout : RuntimeLayout) : ResolvedRuntime :=
  { language := language
    version := layout.version
    source := source
    binDir := layout.binDir
    executables := layout.executables
    installDir := none }

/-- The errors of the router. -/
inductive Error
  | cacheScope (reason : String)
  | unknownLanguage (language : Language)
  | providerUnavailable (language : Language) (reason : String)
  | providerContract (language : Language) (major minor : Nat)
  | languageDisabled (language : Language)
  | languageMissing
  | notProvisioned (language : Language)
  | download (language : Language) (reason : String)
  | digestMismatch (language : Language)
  | install (language : Language) (reason : String)
  | emptyInstall (language : Language)
  | poolSaturated (language : Language)
  | preDispatch (language : Language) (reason : String)
  | postDispatch (language : Language) (reason : String)
  | storage (reason : String)
deriving DecidableEq

/-- Whether a caller may submit the same request again. -/
def Error.isRetryable : Error → Bool
  | .poolSaturated _ => true
  | .preDispatch _ _ => true
  | .download _ _ => true
  | .providerUnavailable _ _ => true
  | _ => false

/-- The bind rule: the same major version and no older minor one. -/
def binds (own other : Nat × Nat) : Bool :=
  other.1 = own.1 && own.2 ≤ other.2

def PROVIDER_CONTRACT_VERSION : Nat × Nat := (1, 0)

def providerIsCompatible (other : Nat × Nat) : Bool :=
  binds PROVIDER_CONTRACT_VERSION other

end TinyRuntime
