import Fgcom.Lib.Strto
import Fgcom.Packet
import Mathlib.Logic.Function.Basic

/-! # Options

`_parseOption` reads one option, from the command line or from the config file, and stores its value
in the variable that the option's table entry points at. A result is `none` where the C++ code
throws: `std::string::substr` behind the end of its string.

* **`readArg`** — which entry an argument names, and with which value.
* **`setParameter`** — the branches over the entry's type: convert, store, compare, report.
* **`parseOption`** — both. -/

namespace Fgcom

open DecimalText Strto

/-! ## The table -/

/-- `enum OptionType`. -/
inductive OptionType
  | none | bool | string | float | double | freq | int | char
  deriving DecidableEq

/-- `struct OptionEntry`: what the parser reads of it. -/
structure OptionEntry where
  longOption : List Char
  option : Char
  hasParam : Bool
  type : OptionType
  /-- The address of the variable the option sets. -/
  parameter : ℕ
  deriving DecidableEq

/-- An option table with distinct long names and distinct letters. -/
structure OptionTable where
  entries : List OptionEntry
  names : (entries.map OptionEntry.longOption).Nodup
  letters : (entries.map OptionEntry.option).Nodup

/-- `fgcomOptionArray` of the client, its variables numbered in the order of the entries. -/
def fgcomOptionArray : List OptionEntry :=
  [⟨"debug".toList, 'd', false, .none, 0⟩, ⟨"voipserver".toList, 'S', true, .string, 1⟩,
    ⟨"fgserver".toList, 's', true, .string, 2⟩, ⟨"port".toList, 'p', true, .int, 3⟩,
    ⟨"airport".toList, 'a', true, .string, 4⟩, ⟨"frequency".toList, 'f', true, .double, 5⟩,
    ⟨"user".toList, 'U', true, .string, 6⟩, ⟨"password".toList, 'P', true, .string, 7⟩,
    ⟨"mic".toList, 'i', true, .double, 8⟩, ⟨"speaker".toList, 'o', true, .double, 9⟩,
    ⟨"mic-boost".toList, 'b', false, .bool, 10⟩, ⟨"list-audio".toList, 'l', false, .bool, 11⟩,
    ⟨"set-audio-in".toList, 'r', true, .string, 12⟩,
    ⟨"set-audio-out".toList, 'k', true, .string, 13⟩, ⟨"codec".toList, 'c', true, .char, 14⟩,
    ⟨"positions".toList, 'T', true, .string, 15⟩, ⟨"special".toList, 'Q', true, .string, 16⟩]

/-- The table the client hands to `fgcomInitOptions`. -/
def fgcomOptions : OptionTable where
  entries := fgcomOptionArray
  names := by decide
  letters := by decide

/-! ## The platform -/

/-- The two widths of `long`. -/
inductive LongWidth
  | w32 | w64
  deriving DecidableEq

/-- The number of bits. -/
def LongWidth.bits : LongWidth → ℕ
  | .w32 => 32
  | .w64 => 64

/-- A floating-point format: the value of a numeral, rounded; the numerals the conversion takes
without a range error; and the comparison `!=`, by which only the not-a-number differs from
itself. -/
structure FloatFormat (F : Type) where
  round : Numeral → F
  inRange : Numeral → Bool
  ne : F → F → Bool
  ne_self : ∀ x, ne x x = true ↔ x = round .nan
  nan_only : ∀ n, round n = round .nan → n = .nan

/-- What depends on the platform: the width of `long`, and the formats of `float` and `double`. -/
structure Platform (F : Type) where
  long : LongWidth
  single : FloatFormat F
  double : FloatFormat F

/-- What a variable holds. -/
inductive Cell (F : Type)
  | bool (b : Bool)
  | string (s : List Char)
  | real (x : F)
  | int (z : ℤ)
  | char (c : Char)
  deriving DecidableEq

/-- The variables, by address. -/
abbrev Memory (F : Type) : Type := ℕ → Cell F

/-- What `_parseOption` returns. -/
inductive Status
  | ok | help | error | verboseHelp
  deriving DecidableEq

/-! ## Storing a value -/

section Store

variable {F : Type}

/-- The branches for numbers: a value that is read to its end is stored, and then compared with what
was stored. -/
def storeNumber {V : Type} (convert : List Char → V × List Char) (stored : V → Cell F)
    (differs : V → Bool) (entry : OptionEntry) (argValue : List Char) (mem : Memory F) :
    Status × Memory F :=
  if argValue ≠ [] then
    let (temp, rest) := convert (cstr argValue)
    -- `errno` is cleared here, so the conversion's own range error is not noticed
    if rest ≠ [] then (.error, mem)
    else
      (if differs temp then .error else .ok, Function.update mem entry.parameter (stored temp))
  else (.error, mem)

/-- `OPTION_FLOAT`, `OPTION_DOUBLE` and `OPTION_FREQ`. -/
def storeFloat (format : FloatFormat F) : OptionEntry → List Char → Memory F → Status × Memory F :=
  storeNumber strtod (fun temp => .real (format.round temp))
    fun temp => format.ne (format.round temp) (format.round temp)

/-- `OPTION_INT`: a `long` is stored in an `int`, which keeps its lower 32 bits. -/
def storeInt (long : LongWidth) : OptionEntry → List Char → Memory F → Status × Memory F :=
  storeNumber (strtol long.bits) (fun temp => .int (temp.bmod (2 ^ 32)))
    fun temp => temp.bmod (2 ^ 32) ≠ temp

/-- `OPTION_STRING`: a copy of the C string. -/
def storeString (entry : OptionEntry) (argValue : List Char) (mem : Memory F) :
    Status × Memory F :=
  if entry.hasParam = true ∧ argValue ≠ [] then
    (.ok, Function.update mem entry.parameter (.string (cstr argValue)))
  else (.error, mem)

/-- `OPTION_CHAR`: a single character. -/
def storeChar (entry : OptionEntry) (argValue : List Char) (mem : Memory F) : Status × Memory F :=
  if entry.hasParam = true ∧ argValue ≠ [] then
    if 1 < argValue.length then (.error, mem)
    else (.ok, Function.update mem entry.parameter (.char (argValue.headD '\x00')))
  else (.error, mem)

/-- The `switch` over the entry's type. -/
def setParameter (p : Platform F) (entry : OptionEntry) (argValue : List Char) (mem : Memory F) :
    Status × Memory F :=
  match entry.type with
  | .none | .bool => (.ok, Function.update mem entry.parameter (.bool true))
  | .string => storeString entry argValue mem
  | .float => storeFloat p.single entry argValue mem
  | .double | .freq => storeFloat p.double entry argValue mem
  | .int => storeInt p.long entry argValue mem
  | .char => storeChar entry argValue mem

end Store

/-! ## Reading an argument -/

/-- What an argument is read as. -/
inductive Reading
  | help
  | verbose
  | unknown
  | thrown
  | entry (entry : OptionEntry) (argValue : List Char)
  deriving DecidableEq

/-- `arg.substr (pos, n)`: throws when the position lies behind the end. -/
def substr (s : List Char) (pos n : ℕ) : Option (List Char) :=
  if s.length < pos then none else some ((s.drop pos).take n)

/-- The entry `fgcomLongOptionMap` gives for a name. -/
def findLong (table : OptionTable) (name : List Char) : Option OptionEntry :=
  table.entries.find? fun e => e.longOption = name

/-- The entry found through `fgcomOptionMap` and then `fgcomLongOptionMap` for a letter. -/
def findShort (table : OptionTable) (c : Char) : Option OptionEntry :=
  (table.entries.find? fun e => e.option = c).bind fun e => findLong table e.longOption

/-- The value of `--name`: the next argument, unless there is none or it starts an option. -/
def nextValue (nextArg : List Char) : List Char :=
  if nextArg = [] then [] else if nextArg.head? = some '-' then [] else nextArg

/-- An entry was found, or the option is unknown. -/
def found (entry : Option OptionEntry) (argValue : List Char) : Reading :=
  match entry with
  | none => .unknown
  | some entry => .entry entry argValue

/-- The branch for an argument that starts with `--`. -/
def readLong (table : OptionTable) (arg nextArg : List Char) : Reading :=
  let pos := arg.idxOf '='
  -- `npos` is the length: no `=` was found
  let argName := if pos = arg.length then arg.drop 2 else (arg.drop 2).take (pos - 2)
  let argValue := if pos = arg.length then nextValue nextArg else arg.drop (pos + 1)
  found (findLong table argName) argValue

/-- The branch for any other argument, whether it starts with `-` or not. -/
def readShort (table : OptionTable) (arg : List Char) : Reading :=
  match substr arg 1 1 with
  | none => .thrown
  | some argName =>
      match substr arg 2 arg.length with
      | none => .thrown
      | some argValue =>
          match argName with
          | [] => .unknown
          | c :: _ => found (findShort table c) argValue

/-- The first part of `_parseOption`: help, or the entry and its value. -/
def readArg (table : OptionTable) (arg nextArg : List Char) : Reading :=
  if arg = "--help".toList ∨ arg = "-h".toList ∨ arg = "-?".toList then .help
  else if arg = "--verbose".toList ∨ arg = "-v".toList then .verbose
  else if "--".toList.isPrefixOf arg then readLong table arg nextArg
  else readShort table arg

example : readArg fgcomOptions "--port=16661".toList []
    = .entry ⟨"port".toList, 'p', true, .int, 3⟩ "16661".toList := by decide

/-- `_parseOption`. -/
def parseOption {F : Type} (p : Platform F) (table : OptionTable) (arg nextArg : List Char)
    (mem : Memory F) : Option (Status × Memory F) :=
  match readArg table arg nextArg with
  | .help => some (.help, mem)
  | .verbose => some (.verboseHelp, mem)
  | .unknown => some (.error, mem)
  | .thrown => none
  | .entry entry argValue => some (setParameter p entry argValue mem)

/-! ## Looking up an entry -/

section Find

variable {table : OptionTable} {e e' : OptionEntry}

/-- Of distinct keys, each finds its own entry. -/
theorem find?_eq_some_iff_of_nodup {α : Type*} [DecidableEq α] {key : OptionEntry → α}
    {entries : List OptionEntry} (hnodup : (entries.map key).Nodup) {k : α} :
    (entries.find? fun e => key e = k) = some e ↔ e ∈ entries ∧ key e = k := by
  constructor
  · intro h
    have hkey := List.find?_some h
    exact ⟨List.mem_of_find?_eq_some h, of_decide_eq_true hkey⟩
  · rintro ⟨hmem, rfl⟩
    induction entries with
    | nil => exact absurd hmem List.not_mem_nil
    | cons a entries ih =>
        rw [List.map_cons, List.nodup_cons] at hnodup
        rcases List.mem_cons.mp hmem with rfl | hmem
        · exact List.find?_cons_of_pos (decide_eq_true rfl)
        · have hne : key a ≠ key e := by
            intro heq
            exact hnodup.1 (heq ▸ List.mem_map_of_mem hmem)
          rw [List.find?_cons_of_neg (by simpa using hne)]
          exact ih hnodup.2 hmem

/-- A name finds the entry that has it. -/
theorem findLong_eq_some_iff {name : List Char} :
    findLong table name = some e ↔ e ∈ table.entries ∧ e.longOption = name :=
  find?_eq_some_iff_of_nodup table.names

/-- A letter finds the entry that has it. -/
theorem findShort_eq_some_iff {c : Char} :
    findShort table c = some e ↔ e ∈ table.entries ∧ e.option = c := by
  unfold findShort
  rw [Option.bind_eq_some_iff]
  constructor
  · rintro ⟨e', he', he⟩
    obtain ⟨hmem', hletter⟩ := (find?_eq_some_iff_of_nodup table.letters).mp he'
    -- the name of the entry found leads back to it
    have hback : findLong table e'.longOption = some e' :=
      findLong_eq_some_iff.mpr ⟨hmem', rfl⟩
    obtain rfl := Option.some.inj (hback.symm.trans he)
    exact ⟨hmem', hletter⟩
  · rintro ⟨hmem, hletter⟩
    exact ⟨e, (find?_eq_some_iff_of_nodup table.letters).mpr ⟨hmem, hletter⟩,
      findLong_eq_some_iff.mpr ⟨hmem, rfl⟩⟩

end Find

/-! ## What is taken -/

/-- The range of `int`. -/
def IntRange (z : ℤ) : Prop := -2 ^ 31 ≤ z ∧ z < 2 ^ 31

instance (z : ℤ) : Decidable (IntRange z) := inferInstanceAs (Decidable (_ ∧ _))

/-- The C strings `OPTION_INT` takes. A `long` of 32 bits has the range of `int`, and `strtol` cuts
every value down to it. -/
def IntTaken (long : LongWidth) (s : List Char) : Prop :=
  s = [] ∨ ∃ z, Denotes s z ∧ (IntRange z ∨ long = .w32)

/-- The C strings the floating-point types take. -/
def FloatTaken (s : List Char) : Prop := s = [] ∨ ∃ x, IsFloat s x ∧ x ≠ .nan

/-- The values an entry takes. -/
def Taken (long : LongWidth) (entry : OptionEntry) (argValue : List Char) : Prop :=
  match entry.type with
  | .none | .bool => True
  | .string => entry.hasParam = true ∧ argValue ≠ []
  | .float | .double | .freq => argValue ≠ [] ∧ FloatTaken (cstr argValue)
  | .int => argValue ≠ [] ∧ IntTaken long (cstr argValue)
  | .char => entry.hasParam = true ∧ argValue.length = 1

/-- Cutting to 32 bits keeps the integers in range. -/
theorem bmod_eq_self_iff {z : ℤ} : z.bmod (2 ^ 32) = z ↔ IntRange z := by
  unfold IntRange
  rw [Int.bmod_def]
  split <;> omega

/-- A `long` of 32 bits always fits. -/
theorem intRange_saturate_iff {long : LongWidth} {z : ℤ} :
    IntRange (saturate long.bits z) ↔ IntRange z ∨ long = .w32 := by
  unfold IntRange saturate
  cases long with
  | w32 =>
      have hfits : -2 ^ 31 ≤ max (-2 ^ 31) (min (2 ^ 31 - 1) z) ∧
          max (-2 ^ 31) (min (2 ^ 31 - 1) z) < 2 ^ 31 := by omega
      exact ⟨fun _ => Or.inr rfl, fun _ => hfits⟩
  | w64 =>
      have hiff : -2 ^ 31 ≤ max (-2 ^ 63) (min (2 ^ 63 - 1) z) ∧
          max (-2 ^ 63) (min (2 ^ 63 - 1) z) < 2 ^ 31 ↔ -2 ^ 31 ≤ z ∧ z < 2 ^ 31 := by omega
      exact hiff.trans ⟨Or.inl, fun h => h.resolve_right LongWidth.noConfusion⟩

/-- `OPTION_INT` takes what is read to its end and fits. -/
theorem intTaken_iff {long : LongWidth} {s : List Char} :
    IntTaken long s ↔ (strtol long.bits s).2 = [] ∧ IntRange (strtol long.bits s).1 := by
  unfold IntTaken
  rw [strtol_snd_eq_nil_iff]
  constructor
  · rintro (rfl | ⟨z, hz, hfits⟩)
    · exact ⟨Or.inl rfl, by rw [strtol_nil]; decide⟩
    · rw [strtol_of_denotes hz]
      exact ⟨Or.inr ⟨z, hz⟩, intRange_saturate_iff.mpr hfits⟩
  · rintro ⟨rfl | ⟨z, hz⟩, hrange⟩
    · exact Or.inl rfl
    · rw [strtol_of_denotes hz] at hrange
      exact Or.inr ⟨z, hz, intRange_saturate_iff.mp hrange⟩

/-- The floating-point types take what is read to its end and is a number. -/
theorem floatTaken_iff {s : List Char} :
    FloatTaken s ↔ (strtod s).2 = [] ∧ (strtod s).1 ≠ .nan := by
  unfold FloatTaken
  rw [strtod_snd_eq_nil_iff]
  constructor
  · rintro (rfl | ⟨x, hx, hnan⟩)
    · exact ⟨Or.inl rfl, by rw [strtod_nil]; decide⟩
    · rw [strtod_of_isFloat hx]
      exact ⟨Or.inr ⟨x, hx⟩, hnan⟩
  · rintro ⟨rfl | ⟨x, hx⟩, hnan⟩
    · exact Or.inl rfl
    · rw [strtod_of_isFloat hx] at hnan
      exact Or.inr ⟨x, hx, hnan⟩

/-- Only the not-a-number differs from what was stored. -/
theorem FloatFormat.ne_round_iff {F : Type} (format : FloatFormat F) (n : Numeral) :
    format.ne (format.round n) (format.round n) = true ↔ n = .nan := by
  rw [format.ne_self]
  exact ⟨format.nan_only n, fun h => by rw [h]⟩

/-! ## One specification for each type -/

section Spec

variable {F V : Type} {p : Platform F} {format : FloatFormat F} {long : LongWidth}
  {convert : List Char → V × List Char} {stored : V → Cell F} {differs : V → Bool}
  {entry : OptionEntry} {argValue : List Char} {mem : Memory F}

/-- No value, or one that is not read to its end, is refused before anything is stored. -/
theorem storeNumber_refused (h : argValue ≠ [] → (convert (cstr argValue)).2 ≠ []) :
    storeNumber convert stored differs entry argValue mem = (.error, mem) := by
  unfold storeNumber
  by_cases hne : argValue = []
  · exact if_neg (not_not.mpr hne)
  · rw [if_pos hne]
    exact if_pos (h hne)

/-- A value that is read to its end is stored first. -/
theorem storeNumber_stored (hne : argValue ≠ []) (h : (convert (cstr argValue)).2 = []) :
    storeNumber convert stored differs entry argValue mem
      = (if differs (convert (cstr argValue)).1 then .error else .ok,
          Function.update mem entry.parameter (stored (convert (cstr argValue)).1)) := by
  unfold storeNumber
  rw [if_pos hne]
  exact if_neg (not_not.mpr h)

/-- What the branches for numbers take. -/
theorem storeNumber_ok_iff :
    (storeNumber convert stored differs entry argValue mem).1 = .ok ↔
      argValue ≠ [] ∧ (convert (cstr argValue)).2 = [] ∧
        differs (convert (cstr argValue)).1 = false := by
  by_cases hread : argValue ≠ [] ∧ (convert (cstr argValue)).2 = []
  · rw [storeNumber_stored hread.1 hread.2, and_iff_right hread.1, and_iff_right hread.2]
    cases differs (convert (cstr argValue)).1 with
    | true => exact iff_of_false Status.noConfusion Bool.noConfusion
    | false => exact iff_of_true rfl rfl
  · rw [storeNumber_refused fun hne hrest => hread ⟨hne, hrest⟩]
    exact iff_of_false Status.noConfusion fun h => hread ⟨h.1, h.2.1⟩

/-- What `OPTION_INT` takes. -/
theorem storeInt_ok_iff :
    (storeInt long entry argValue mem).1 = .ok ↔
      argValue ≠ [] ∧ IntTaken long (cstr argValue) := by
  rw [storeInt, storeNumber_ok_iff, intTaken_iff, decide_eq_false_iff_not, not_not,
    bmod_eq_self_iff]

/-- What the floating-point types take. -/
theorem storeFloat_ok_iff :
    (storeFloat format entry argValue mem).1 = .ok ↔
      argValue ≠ [] ∧ FloatTaken (cstr argValue) := by
  rw [storeFloat, storeNumber_ok_iff, floatTaken_iff, Ne, Ne, ← format.ne_round_iff,
    Bool.not_eq_true]

/-- What `OPTION_STRING` takes. -/
theorem storeString_ok_iff :
    (storeString entry argValue mem).1 = .ok ↔ entry.hasParam = true ∧ argValue ≠ [] := by
  unfold storeString
  split
  · rename_i h
    exact ⟨fun _ => h, fun _ => rfl⟩
  · rename_i h
    exact ⟨fun hok => Status.noConfusion hok, fun hok => absurd hok h⟩

/-- What `OPTION_CHAR` takes. -/
theorem storeChar_ok_iff :
    (storeChar entry argValue mem).1 = .ok ↔ entry.hasParam = true ∧ argValue.length = 1 := by
  unfold storeChar
  split
  · rename_i h
    have hpos : 0 < argValue.length := List.length_pos_of_ne_nil h.2
    split
    · exact ⟨fun hok => Status.noConfusion hok, fun hok => by omega⟩
    · exact ⟨fun _ => ⟨h.1, by omega⟩, fun _ => rfl⟩
  · rename_i h
    refine ⟨fun hok => Status.noConfusion hok, fun hok => absurd ⟨hok.1, ?_⟩ h⟩
    exact List.ne_nil_of_length_pos (by omega)

/-- **What an entry takes**, type by type. -/
theorem setParameter_ok_iff :
    (setParameter p entry argValue mem).1 = .ok ↔ Taken p.long entry argValue := by
  unfold setParameter Taken
  cases entry.type with
  | none => exact ⟨fun _ => trivial, fun _ => rfl⟩
  | bool => exact ⟨fun _ => trivial, fun _ => rfl⟩
  | string => exact storeString_ok_iff
  | float => exact storeFloat_ok_iff
  | double => exact storeFloat_ok_iff
  | freq => exact storeFloat_ok_iff
  | int => exact storeInt_ok_iff
  | char => exact storeChar_ok_iff

/-- What a branch may do: succeed or fail, and write the entry's own variable. -/
def OwnVariable (entry : OptionEntry) (mem : Memory F) (r : Status × Memory F) : Prop :=
  (r.1 = .ok ∨ r.1 = .error) ∧ ∀ a, a ≠ entry.parameter → r.2 a = mem a

theorem ownVariable_refused : OwnVariable entry mem (.error, mem) := ⟨Or.inr rfl, fun _ _ => rfl⟩

theorem ownVariable_update {r : Status} (hr : r = .ok ∨ r = .error) (x : Cell F) :
    OwnVariable entry mem (r, Function.update mem entry.parameter x) :=
  ⟨hr, fun _ ha => Function.update_of_ne ha x mem⟩

/-- Numbers. -/
theorem ownVariable_storeNumber :
    OwnVariable entry mem (storeNumber convert stored differs entry argValue mem) := by
  unfold storeNumber
  split
  · dsimp only
    split
    · exact ownVariable_refused
    · refine ownVariable_update ?_ _
      split
      · exact Or.inr rfl
      · exact Or.inl rfl
  · exact ownVariable_refused

/-- Texts and characters. -/
theorem ownVariable_storeString : OwnVariable entry mem (storeString entry argValue mem) := by
  unfold storeString
  split
  · exact ownVariable_update (Or.inl rfl) _
  · exact ownVariable_refused

theorem ownVariable_storeChar : OwnVariable entry mem (storeChar entry argValue mem) := by
  unfold storeChar
  split
  · split
    · exact ownVariable_refused
    · exact ownVariable_update (Or.inl rfl) _
  · exact ownVariable_refused

/-- **Only the entry's own variable is written**, whatever its type. -/
theorem ownVariable_setParameter :
    OwnVariable entry mem (setParameter p entry argValue mem) := by
  unfold setParameter
  cases entry.type with
  | none => exact ownVariable_update (Or.inl rfl) _
  | bool => exact ownVariable_update (Or.inl rfl) _
  | string => exact ownVariable_storeString
  | float => exact ownVariable_storeNumber
  | double => exact ownVariable_storeNumber
  | freq => exact ownVariable_storeNumber
  | int => exact ownVariable_storeNumber
  | char => exact ownVariable_storeChar

end Spec

end Fgcom
