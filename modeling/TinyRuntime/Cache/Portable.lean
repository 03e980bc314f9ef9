import TinyRuntime.Cache.Filesystem
import Mathlib.Data.List.DropRight

/-!
# Portable Paths

What the check of a relative path keeps out of a recipe, against the names another
system gives a meaning of its own.

A device of that system keeps its name with an extension and with spaces before it, and
the superscripts one, two and three count as its digits. The check looks at the part
before the first dot as it stands, and at ASCII digits only. Every other rule holds of
every path it accepts.

`parent` opens the components but the last, one below the other. It splits the path
itself, at the same character.

## Main definitions

* `Cache.stem`, `Cache.DeviceName`: The devices of another system.
* `Cache.PortablePart`: What a component is meant to be.
* `Cache.Overlooked`: The devices that are let through.

## Theorems

* `Cache.deviceName_iff`: What the check sees of a device.
* `Cache.parent_eq`: The components `parent` opens.
* `Cache.portable_iff`: The accepted paths that are portable.
-/

namespace TinyRuntime

open Prog (act)

namespace Cache

/-! ## Devices -/

/-- The part before the first dot. -/
def stem (part : List Char) : List Char :=
  (part.splitOn '.').head?.getD []

/-- Without the spaces at its end. -/
def trimmed (s : List Char) : List Char :=
  s.rdropWhile (· = ' ')

/-- The digits a device is numbered with elsewhere. -/
def superscripts : List Char :=
  ['¹', '²', '³']

/-- A port and one more character. -/
def Port (s : List Char) (c : Char) : Prop :=
  s.map Char.toUpper = "COM".toList ++ [c] ∨ s.map Char.toUpper = "LPT".toList ++ [c]

/-- A name another system keeps for a device, whatever the case. -/
def DeviceName (s : List Char) : Prop :=
  s.map Char.toUpper ∈ ["CON", "PRN", "AUX", "NUL"].map String.toList ∨
    ∃ c, Port s c ∧ (c.isDigit = true ∨ c ∈ superscripts)

/-- What a component of a portable path is. -/
structure PortablePart (part : List Char) : Prop where
  nonempty : part ≠ []
  current : part ≠ ['.']
  above : part ≠ ['.', '.']
  clean : ∀ c ∈ part, c ≠ '\\' ∧ c ≠ ':' ∧ isControl c = false
  ending : part.getLast? ≠ some '.' ∧ part.getLast? ≠ some ' '
  credential : forbidden part = false
  reserved : ¬ ".tinyruntime-".toList <+: part.map Char.toLower
  device : ¬ DeviceName (trimmed (stem part))

/-- A device whose name is followed by a space, or numbered with a superscript. -/
def Overlooked (part : List Char) : Prop :=
  (stem part).getLast? = some ' ' ∧ DeviceName (trimmed (stem part)) ∨
    ∃ c ∈ superscripts, Port (stem part) c

section Device

variable {s part : List Char} {c : Char}

theorem trimmed_of_last (h : s.getLast? ≠ some ' ') : trimmed s = s := by
  rw [trimmed, List.rdropWhile_eq_self_iff]
  intro hne hlast
  refine h ?_
  rw [List.getLast?_eq_some_getLast hne]
  exact congrArg some (of_decide_eq_true hlast)

theorem port_size (h : Port s c) : ((s.map Char.toUpper).map Char.utf8Size).sum =
    3 + c.utf8Size := by
  rcases h with h | h
  · rw [h, List.map_append, List.sum_append]
    rfl
  · rw [h, List.map_append, List.sum_append]
    rfl

theorem port_length (h : Port s c) : s.length = 4 := by
  have hmap : (s.map Char.toUpper).length = s.length := List.length_map _
  rw [← hmap]
  rcases h with h | h
  · rw [h]
    rfl
  · rw [h]
    rfl

theorem port_last (hport : Port s c) (hc : c ∈ superscripts) :
    s.getLast? ≠ some ' ' := by
  intro hlast
  have hend : (s.map Char.toUpper).getLast? = some ' ' := by
    rw [List.getLast?_map, hlast]
    rfl
  have hc' : c = ' ' := by
    rcases hport with h | h
    · rw [h, List.getLast?_append] at hend
      exact Option.some.inj hend
    · rw [h, List.getLast?_append] at hend
      exact Option.some.inj hend
  subst hc'
  exact absurd hc (by decide)

theorem size_digit (h : c.isDigit = true) : c.utf8Size = 1 := by
  rw [Char.isDigit, Bool.and_eq_true, decide_eq_true_eq, decide_eq_true_eq] at h
  rw [Char.utf8Size, if_pos]
  exact Nat.le_trans (UInt32.le_iff_toNat_le.mp h.2) (by decide)

/-- Four bytes, three of them a port: the fourth is one character. -/
theorem digit_last {port t : List Char} (hlen : port.length = 3)
    (hport : (port.map Char.utf8Size).sum = 3)
    (hsize : ((port ++ t).map Char.utf8Size).sum = 4)
    (hdigit : (port ++ t)[3]?.any Char.isDigit = true) : ∃ d, t = [d] ∧ d.isDigit = true := by
  rw [List.getElem?_append_right (by omega), hlen] at hdigit
  rw [List.map_append, List.sum_append, hport] at hsize
  cases t with
  | nil => cases hdigit
  | cons d t =>
      have hd : d.isDigit = true := hdigit
      refine ⟨d, ?_, hd⟩
      cases t with
      | nil => rfl
      | cons e t =>
          have he := e.utf8Size_pos
          have hone := size_digit hd
          simp only [List.map_cons, List.sum_cons] at hsize
          omega

/-- The check sees the devices that are numbered with a digit, as they stand. -/
theorem deviceName_iff : DeviceName s ↔
    isDevice (s.map Char.toUpper) = true ∨ ∃ c ∈ superscripts, Port s c := by
  refine ⟨fun h => ?_, fun h => ?_⟩
  · rcases h with h | ⟨c, hport, hc | hc⟩
    · exact .inl (decide_eq_true (.inl h))
    · refine .inl (decide_eq_true (.inr ⟨?_, ?_, ?_⟩))
      · rw [port_size hport, size_digit hc]
      · rcases hport with h | h
        · exact .inl ⟨[c], h.symm⟩
        · exact .inr ⟨[c], h.symm⟩
      · rcases hport with h | h
        · rw [h]
          exact hc
        · rw [h]
          exact hc
    · exact .inr ⟨c, hc, hport⟩
  · rcases h with h | ⟨c, hc, hport⟩
    · rcases of_decide_eq_true h with h | ⟨hsize, hpre, hdigit⟩
      · exact .inl h
      · right
        rcases hpre with ⟨t, ht⟩ | ⟨t, ht⟩
        · rcases digit_last rfl rfl (ht.symm ▸ hsize) (ht.symm ▸ hdigit) with ⟨d, rfl, hd⟩
          exact ⟨d, .inl ht.symm, .inl hd⟩
        · rcases digit_last rfl rfl (ht.symm ▸ hsize) (ht.symm ▸ hdigit) with ⟨d, rfl, hd⟩
          exact ⟨d, .inr ht.symm, .inl hd⟩
    · exact .inr ⟨c, hport, .inr hc⟩

end Device

/-! ## Components -/

section Part

variable {part : List Char}

/-- What is left of a component the check lets through, but for devices. -/
theorem overlooked_iff (h : unsafePart part = false) :
    Overlooked part ↔ DeviceName (trimmed (stem part)) := by
  have hclear : isDevice ((stem part).map Char.toUpper) = false := by
    cases hdevice : isDevice ((stem part).map Char.toUpper) with
    | false => rfl
    | true =>
        refine absurd (of_decide_eq_false h) (not_not_intro ?_)
        exact .inr (.inr (.inr (.inr (.inr (.inr hdevice)))))
  refine ⟨fun hover => ?_, fun hdevice => ?_⟩
  · rcases hover with ⟨-, hdevice⟩ | ⟨c, hc, hport⟩
    · exact hdevice
    · rw [trimmed_of_last (port_last hport hc)]
      exact deviceName_iff.mpr (.inr ⟨c, hc, hport⟩)
  · by_cases hlast : (stem part).getLast? = some ' '
    · exact .inl ⟨hlast, hdevice⟩
    · rw [trimmed_of_last hlast] at hdevice
      rcases deviceName_iff.mp hdevice with h | ⟨c, hc, hport⟩
      · rw [hclear] at h
        cases h
      · exact .inr ⟨c, hc, hport⟩

end Part

section Path

variable {path : String} {part : List Char}

theorem safeRelative_ok : safeRelative path = .ok () ↔
    ('\\' ∉ path.toList ∧ ':' ∉ path.toList ∧ path.toList.any isControl = false ∧
      path ≠ "" ∧ path.utf8ByteSize ≤ 512) ∧
    ∀ part ∈ path.toList.splitOn '/', unsafePart part = false := by
  rw [safeRelative]
  split
  · rename_i hbad
    refine ⟨nofun, fun ⟨⟨hback, hcolon, hcontrol, hempty, hsize⟩, _⟩ => ?_⟩
    rcases hbad with h | h | h | h | h
    · exact absurd h hempty
    · exact absurd h (by omega)
    · exact absurd h hback
    · exact absurd h hcolon
    · rw [h] at hcontrol
      cases hcontrol
  · rename_i hgood
    simp only [not_or, Nat.not_lt, Bool.not_eq_true] at hgood
    rcases hgood with ⟨hempty, hsize, hback, hcolon, hcontrol⟩
    split
    · rename_i hany
      rcases List.any_eq_true.mp hany with ⟨part, hpart, hunsafe⟩
      refine ⟨nofun, fun ⟨_, hall⟩ => ?_⟩
      rw [hall part hpart] at hunsafe
      cases hunsafe
    · rename_i hany
      refine ⟨fun _ => ⟨⟨hback, hcolon, hcontrol, hempty, hsize⟩, fun part hpart => ?_⟩,
        fun _ => rfl⟩
      exact Bool.eq_false_iff.mpr (List.any_eq_false.mp (Bool.eq_false_iff.mpr hany) part hpart)

theorem relative_ok : relative path = .ok () ↔
    safeRelative path = .ok () ∧ ∀ part ∈ path.toList.splitOn '/', reservedPart part = false := by
  rw [relative]
  cases hsafe : safeRelative path with
  | error e => exact ⟨nofun, fun h => nomatch h.1⟩
  | ok u =>
      by_cases hany : (path.toList.splitOn '/').any reservedPart = true
      · rcases List.any_eq_true.mp hany with ⟨part, hpart, hreserved⟩
        rw [if_pos hany]
        refine ⟨nofun, fun ⟨_, hall⟩ => ?_⟩
        rw [hall part hpart] at hreserved
        cases hreserved
      · rw [if_neg hany]
        refine ⟨fun _ => ⟨rfl, fun part hpart => ?_⟩, fun _ => rfl⟩
        exact Bool.eq_false_iff.mpr (List.any_eq_false.mp (Bool.eq_false_iff.mpr hany) part hpart)

/-- What is checked before the components are looked at is true of each. -/
theorem portable_or_overlooked (h : relative path = .ok ())
    (hpart : part ∈ path.toList.splitOn '/') : PortablePart part ↔ ¬ Overlooked part := by
  rcases relative_ok.mp h with ⟨hsafe, hreserved⟩
  rcases safeRelative_ok.mp hsafe with ⟨⟨hback, hcolon, hcontrol, -⟩, hparts⟩
  have hunsafe := of_decide_eq_false (hparts part hpart)
  simp only [not_or, Bool.not_eq_true] at hunsafe
  rcases hunsafe with ⟨hempty, hcurrent, habove, hforbidden, hdot, hspace, -⟩
  rw [overlooked_iff (hparts part hpart)]
  refine ⟨fun hport => hport.device, fun hdevice => ?_⟩
  constructor
  case nonempty => exact hempty
  case current => exact hcurrent
  case above => exact habove
  case clean =>
      intro c hc
      have hin := (mem_splitOn hpart).2 c hc
      refine ⟨fun h => hback (h ▸ hin), fun h => hcolon (h ▸ hin), ?_⟩
      exact Bool.eq_false_iff.mpr (List.any_eq_false.mp hcontrol c hin)
  case ending => exact ⟨hdot, hspace⟩
  case credential => exact hforbidden
  case reserved => exact of_decide_eq_false (hreserved part hpart)
  case device => exact hdevice

end Path

/-! ## Descending -/

section Descent

variable {α β : Type} [DecidableEq α] [DecidableEq β]

/-- A text is split alike under any other name of its characters. -/
theorem splitOn_map {f : α → β} (hf : Function.Injective f) (c : α) (text : List α) :
    (text.map f).splitOn (f c) = (text.splitOn c).map (List.map f) := by
  induction text with
  | nil => rw [List.map_nil, List.splitOn_nil, List.splitOn_nil, List.map_cons, List.map_nil,
      List.map_nil]
  | cons x text ih =>
      rw [List.map_cons, List.splitOn_cons_eq_if_modifyHead, List.splitOn_cons_eq_if_modifyHead, ih]
      by_cases hx : x = c
      · rw [if_pos (beq_iff_eq.mpr (congrArg f hx)), if_pos (beq_iff_eq.mpr hx)]
        rfl
      · rw [if_neg (fun h => hx (hf (eq_of_beq h))), if_neg (fun h => hx (eq_of_beq h))]
        rcases List.exists_cons_of_ne_nil (List.splitOn_ne_nil c text) with ⟨first, rest, hparts⟩
        rw [hparts]
        rfl

end Descent

theorem parts_eq (path : String) :
    parts path = (path.toList.splitOn '/').map (List.map .char) :=
  splitOn_map (fun _ _ h => OsChar.char.inj h) '/' path.toList

/-- All but the last are opened, each in the one before. -/
theorem parentFrom_eq (create : Bool) (names : List OsString) (last : OsString) : ∀ dir,
    parentFrom create (names ++ [last]) dir =
      (do let dir ← descendAll create names dir
          pure (dir, last)) := by
  induction names with
  | nil => exact fun dir => rfl
  | cons name names ih =>
      intro dir
      rw [descendAll, Prog.run_bind_assoc]
      cases names with
      | nil => rfl
      | cons next names =>
          have hstep : parentFrom create (name :: next :: names ++ [last]) dir =
              (do let child ← descend dir name create
                  parentFrom create (next :: names ++ [last]) child) := rfl
          rw [hstep]
          exact congrArg _ (funext ih)

/-- A safe path is walked below the directory, component by component. -/
theorem parent_eq {path : String} (h : safeRelative path = .ok ()) (dir : Nat) (create : Bool) :
    ∃ names last, (path.toList.splitOn '/').map (List.map .char) = names ++ [last] ∧
      parent dir path create =
        (do let root ← tryIo (.tryClone dir)
            let dir ← descendAll create names root
            pure (dir, last)) := by
  have hne : parts path ≠ [] := by
    rw [parts_eq]
    exact fun h => List.splitOn_ne_nil _ _ (List.map_eq_nil_iff.mp h)
  refine ⟨(parts path).dropLast, (parts path).getLast hne, ?_, ?_⟩
  · rw [List.dropLast_append_getLast hne, parts_eq]
  · rw [parent, h]
    refine congrArg (tryIo (.tryClone dir) >>= ·) (funext fun root => ?_)
    rw [← parentFrom_eq, List.dropLast_append_getLast hne]

/-! ## Accepted paths -/

/-- An accepted path is portable exactly if no component of it is a device that is let
    through. It is walked as it is split. -/
theorem portable_iff (path : String) (h : relative path = .ok ()) :
    ((∀ part ∈ path.toList.splitOn '/', PortablePart part) ∧
      ∀ dir create, ∃ names last,
        (path.toList.splitOn '/').map (List.map .char) = names ++ [last] ∧
        parent dir path create =
          (do let root ← tryIo (.tryClone dir)
              let dir ← descendAll create names root
              pure (dir, last))) ↔
    ¬ ∃ part ∈ path.toList.splitOn '/', Overlooked part := by
  refine ⟨fun hgood hover => ?_, fun hclear => ⟨fun part hpart => ?_, fun dir create => ?_⟩⟩
  · rcases hover with ⟨part, hpart, hover⟩
    exact (portable_or_overlooked h hpart).mp (hgood.1 part hpart) hover
  · exact (portable_or_overlooked h hpart).mpr fun hover => hclear ⟨part, hpart, hover⟩
  · exact parent_eq (relative_ok.mp h).1 dir create

/-- A path with a hidden file passes, and is portable. -/
theorem portable_iff_ready :
    (relative "dir/.ready-v1" = .ok () ∧
      ¬ ∃ part ∈ "dir/.ready-v1".toList.splitOn '/', Overlooked part) ∧
    ∀ part ∈ "dir/.ready-v1".toList.splitOn '/', PortablePart part := by
  have hok : relative "dir/.ready-v1" = .ok () := by decide +kernel
  have hclear : ¬ ∃ part ∈ "dir/.ready-v1".toList.splitOn '/', Overlooked part := by
    have hsplit : "dir/.ready-v1".toList.splitOn '/' = ["dir".toList, ".ready-v1".toList] := by
      decide +kernel
    rw [hsplit]
    refine fun ⟨part, hpart, hover⟩ => ?_
    -- Neither stem has the length of a port, or ends in a space.
    have hshort : (stem part).length ≠ 4 ∧ (stem part).getLast? ≠ some ' ' := by
      rcases List.mem_pair.mp hpart with rfl | rfl
      · decide +kernel
      · decide +kernel
    rcases hover with ⟨hspace, -⟩ | ⟨c, -, hport⟩
    · exact hshort.2 hspace
    · exact hshort.1 (port_length hport)
  exact ⟨⟨hok, hclear⟩, ((portable_iff _ hok).mpr hclear).1⟩

/-- A device with a space before its extension passes. -/
theorem accepts_device :
    relative "CON .txt" = .ok () ∧
      ¬ ∀ part ∈ "CON .txt".toList.splitOn '/', PortablePart part := by
  have hok : relative "CON .txt" = .ok () := by decide +kernel
  refine ⟨hok, fun hall => ?_⟩
  have hpart : "CON .txt".toList ∈ "CON .txt".toList.splitOn '/' := by decide +kernel
  refine (hall _ hpart).device (.inl ?_)
  decide +kernel

end Cache

end TinyRuntime
