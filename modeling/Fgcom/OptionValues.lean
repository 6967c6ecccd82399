import Fgcom.OptionGrammar

/-! # The values options leave behind

A number is stored before it is compared with what was stored, and `errno` is cleared behind the
conversion that sets it. So an integer out of range is refused with its lower 32 bits already in
the variable, and where `long` has 32 bits it is not refused at all.

* **`ValuesKept`** — a refused option changes nothing, and `OPTION_INT` takes exactly the integers
  in range, as they are.
* **`Harmless`** — no integer out of range, no NUL behind a numeral, no not-a-number, unless the
  variable holds what is stored already.
* **`option_values_iff`** — the two agree. -/

namespace Fgcom

open DecimalText Strto

/-! ## What should hold -/

/-- **A call keeps the values**: with `error` no variable has changed; and for an `OPTION_INT` entry
the status is `ok` exactly when the value denotes an integer in range, which is then stored. -/
def ValuesKept {F : Type} (p : Platform F) (table : OptionTable) (arg nextArg : List Char)
    (mem : Memory F) : Prop :=
  ∀ status mem', parseOption p table arg nextArg mem = some (status, mem') →
    (status = .error → mem' = mem) ∧
    ∀ x e value, ¬ IsHelp arg → ¬ IsVerbose arg → Spells table nextArg x arg e value →
      e.type = .int →
        (status = .ok ↔ ∃ z, Denotes value z ∧ IntRange z) ∧
        ∀ z, Denotes value z → IntRange z → mem' e.parameter = .int z

/-! ## When it does -/

/-- No integer out of the range of `int` is cut to it, unless the variable holds that already. -/
def IntKept {F : Type} (long : LongWidth) (mem : Memory F) (e : OptionEntry)
    (value : List Char) : Prop :=
  ∀ z, Denotes (cstr value) z → ¬ IntRange z → long = .w64 →
    mem e.parameter = .int ((saturate 64 z).bmod (2 ^ 32))

/-- The not-a-number is stored only where it stands already. -/
def FloatKept {F : Type} (format : FloatFormat F) (mem : Memory F) (e : OptionEntry)
    (value : List Char) : Prop :=
  IsFloat (cstr value) .nan → mem e.parameter = .real (format.round .nan)

/-- A value that does no harm to the variable of an entry. -/
def ValueHarmless {F : Type} (p : Platform F) (mem : Memory F) (e : OptionEntry)
    (value : List Char) : Prop :=
  match e.type with
  | .none | .bool | .string | .char => True
  | .float => FloatKept p.single mem e value
  | .double | .freq => FloatKept p.double mem e value
  | .int => IntKept p.long mem e value ∧ IntRight p.long value

/-- **An argument that does no harm**: help, or no value it spells does. -/
def Harmless {F : Type} (p : Platform F) (table : OptionTable) (arg nextArg : List Char)
    (mem : Memory F) : Prop :=
  IsHelp arg ∨ IsVerbose arg ∨
    ∀ x e value, Spells table nextArg x arg e value → ValueHarmless p mem e value

/-! ## One type -/

section Types

variable {F V : Type} {p : Platform F} {format : FloatFormat F} {long : LongWidth}
  {convert : List Char → V × List Char} {stored : V → Cell F} {differs : V → Bool}
  {mem : Memory F} {e : OptionEntry} {value : List Char}

/-- What a branch does to the variables when it refuses. -/
def KeptOnError (mem : Memory F) (r : Status × Memory F) : Prop := r.1 = .error → r.2 = mem

/-- A branch that refuses before it stores changes nothing. -/
theorem keptOnError_refused : KeptOnError mem (.error, mem) := fun _ => rfl

/-- A branch that stores and then refuses changes nothing only where the value stood already. -/
theorem keptOnError_update_iff {r : Status} {x : Cell F} :
    KeptOnError mem (r, Function.update mem e.parameter x) ↔
      (r = .error → mem e.parameter = x) :=
  imp_congr_right fun _ => Function.update_eq_self_iff.trans eq_comm

/-- **Numbers** are stored before they are refused. -/
theorem keptOnError_storeNumber_iff :
    KeptOnError mem (storeNumber convert stored differs e value mem) ↔
      (value ≠ [] → (convert (cstr value)).2 = [] → differs (convert (cstr value)).1 = true →
        mem e.parameter = stored (convert (cstr value)).1) := by
  by_cases hread : value ≠ [] ∧ (convert (cstr value)).2 = []
  · rw [storeNumber_stored hread.1 hread.2, keptOnError_update_iff, imp_iff_right hread.1,
      imp_iff_right hread.2]
    cases differs (convert (cstr value)).1 with
    | true => simp
    | false => simp
  · rw [storeNumber_refused fun hne hrest => hread ⟨hne, hrest⟩]
    exact iff_of_true keptOnError_refused fun hne hrest => absurd ⟨hne, hrest⟩ hread

/-- **Integers**: a refused one has been stored if it does not fit. -/
theorem keptOnError_storeInt_iff :
    KeptOnError mem (storeInt long e value mem) ↔ IntKept long mem e value := by
  rw [storeInt, keptOnError_storeNumber_iff]
  constructor
  · intro h z hz hout hlong
    subst hlong
    have hne : value ≠ [] := by
      rintro rfl
      exact not_denotes_nil hz
    rw [strtol_of_denotes hz] at h
    refine h hne rfl (decide_eq_true fun heq => ?_)
    rcases intRange_saturate_iff.mp (bmod_eq_self_iff.mp heq) with hin | hlong
    · exact hout hin
    · exact LongWidth.noConfusion hlong
  · intro h hne hrest hdiffers
    have hout : ¬ IntRange (strtol long.bits (cstr value)).1 :=
      fun hin => of_decide_eq_true hdiffers (bmod_eq_self_iff.mpr hin)
    rcases strtol_snd_eq_nil_iff.mp hrest with hempty | ⟨z, hz⟩
    · -- a NUL comes first: it is read as 0, which fits
      rw [hempty, strtol_nil] at hout
      exact absurd (by decide) hout
    · rw [strtol_of_denotes hz] at hout ⊢
      rw [intRange_saturate_iff, not_or] at hout
      cases long with
      | w32 => exact absurd rfl hout.2
      | w64 => exact h z hz hout.1 rfl

/-- **Floating-point types**: the not-a-number has been stored when it is refused. -/
theorem keptOnError_storeFloat_iff :
    KeptOnError mem (storeFloat format e value mem) ↔ FloatKept format mem e value := by
  rw [storeFloat, keptOnError_storeNumber_iff]
  simp only [format.ne_round_iff]
  constructor
  · intro h hnan
    have hne : value ≠ [] := by
      rintro rfl
      exact not_isFloat_nil hnan
    rw [strtod_of_isFloat hnan] at h
    exact h hne rfl rfl
  · intro h hne hrest hnan
    rcases strtod_snd_eq_nil_iff.mp hrest with hempty | ⟨x, hx⟩
    · rw [hempty, strtod_nil] at hnan
      exact Numeral.noConfusion hnan
    · rw [strtod_of_isFloat hx] at hnan ⊢
      obtain rfl : x = .nan := hnan
      exact h hx

/-- Texts and characters are stored last. -/
theorem keptOnError_storeString : KeptOnError mem (storeString e value mem) := by
  unfold storeString
  split
  · exact fun h => Status.noConfusion h
  · exact keptOnError_refused

theorem keptOnError_storeChar : KeptOnError mem (storeChar e value mem) := by
  unfold storeChar
  split
  · split
    · exact keptOnError_refused
    · exact fun h => Status.noConfusion h
  · exact keptOnError_refused

/-- An integer in range is stored as it is. -/
theorem storeInt_of_intRange {z : ℤ} (hz : Denotes value z) (hin : IntRange z) :
    (storeInt long e value mem).2 e.parameter = .int z := by
  have hne : value ≠ [] := by
    rintro rfl
    exact not_denotes_nil hz
  have hsame : saturate long.bits z = z := by
    unfold IntRange at hin
    cases long with
    | w32 => exact saturate_of_mem hin.1 hin.2
    | w64 =>
        have hlow : -2 ^ (LongWidth.w64.bits - 1) ≤ z := le_trans (by decide) hin.1
        have hhigh : z < 2 ^ (LongWidth.w64.bits - 1) := lt_of_lt_of_le hin.2 (by decide)
        exact saturate_of_mem hlow hhigh
  have hread : strtol long.bits (cstr value) = (z, []) := by
    rw [cstr_of_notMem hz.notMem, strtol_of_denotes hz, hsame]
  rw [storeInt, storeNumber_stored hne (by rw [hread]), hread, bmod_eq_self_iff.mpr hin]
  exact Function.update_self _ _ _

/-- What is asked of one entry and its value. -/
def EntryKept (p : Platform F) (mem : Memory F) (e : OptionEntry) (value : List Char) : Prop :=
  KeptOnError mem (setParameter p e value mem) ∧
    (e.type = .int → ((setParameter p e value mem).1 = .ok ↔ ∃ z, Denotes value z ∧ IntRange z) ∧
      ∀ z, Denotes value z → IntRange z → (setParameter p e value mem).2 e.parameter = .int z)

/-- **One entry and its value**, type by type. -/
theorem entryKept_iff : EntryKept p mem e value ↔ ValueHarmless p mem e value := by
  unfold EntryKept ValueHarmless setParameter
  cases e.type with
  | none => exact iff_of_true ⟨fun h => Status.noConfusion h, OptionType.noConfusion⟩ trivial
  | bool => exact iff_of_true ⟨fun h => Status.noConfusion h, OptionType.noConfusion⟩ trivial
  | string => exact iff_of_true ⟨keptOnError_storeString, OptionType.noConfusion⟩ trivial
  | char => exact iff_of_true ⟨keptOnError_storeChar, OptionType.noConfusion⟩ trivial
  | float => exact (and_iff_left OptionType.noConfusion).trans keptOnError_storeFloat_iff
  | double => exact (and_iff_left OptionType.noConfusion).trans keptOnError_storeFloat_iff
  | freq => exact (and_iff_left OptionType.noConfusion).trans keptOnError_storeFloat_iff
  | int =>
      refine and_congr keptOnError_storeInt_iff ?_
      have hok : (storeInt p.long e value mem).1 = .ok ↔
          value ≠ [] ∧ IntTaken p.long (cstr value) := storeInt_ok_iff
      rw [intRight_iff, ← hok]
      exact ⟨fun h => (h rfl).1, fun h _ => ⟨h, fun z hz hin => storeInt_of_intRange hz hin⟩⟩

end Types

/-! ## The condition -/

/-- **When the values are kept**, for every platform, table, argument, next argument and state of
the variables. -/
theorem option_values_iff {F : Type} (p : Platform F) (table : OptionTable)
    (arg nextArg : List Char) (mem : Memory F) :
    ValuesKept p table arg nextArg mem ↔ Harmless p table arg nextArg mem := by
  unfold Harmless
  by_cases hhelp : IsHelp arg
  · refine iff_of_true (fun status mem' hparse => ?_) (Or.inl hhelp)
    rw [parseOption_of_isHelp hhelp] at hparse
    obtain ⟨rfl, rfl⟩ := Prod.mk.inj (Option.some.inj hparse)
    exact ⟨fun h => Status.noConfusion h, fun x e value hno => absurd hhelp hno⟩
  · by_cases hverbose : IsVerbose arg
    · refine iff_of_true (fun status mem' hparse => ?_) (Or.inr (Or.inl hverbose))
      rw [parseOption_of_isVerbose hhelp hverbose] at hparse
      obtain ⟨rfl, rfl⟩ := Prod.mk.inj (Option.some.inj hparse)
      exact ⟨fun h => Status.noConfusion h, fun x e value _ hno => absurd hverbose hno⟩
    · rw [or_iff_right hhelp, or_iff_right hverbose]
      constructor
      · intro h x e value hspells
        obtain ⟨herror, hint⟩ := h _ _ (parseOption_of_spells hhelp hverbose hspells mem)
        exact entryKept_iff.mp ⟨herror, hint x e value hhelp hverbose hspells⟩
      · intro h status mem' hparse
        by_cases hlen : arg.length < 2
        · rw [parseOption_of_length hhelp hverbose hlen] at hparse
          exact absurd hparse (by simp)
        rcases parseOption_eq_some p table nextArg hhelp hverbose (not_lt.mp hlen) mem with
          ⟨herror, hno⟩ | ⟨x, e, value, hspells, hentry⟩
        · -- an unknown option
          obtain ⟨rfl, rfl⟩ := Prod.mk.inj (Option.some.inj (hparse.symm.trans herror))
          exact ⟨fun _ => rfl, fun x e value _ _ hspells => absurd hspells (hno x e value)⟩
        · have hstatus := Option.some.inj (hparse.symm.trans hentry)
          obtain ⟨herror, hint⟩ := entryKept_iff.mpr (h x e value hspells)
          rw [KeptOnError, ← hstatus] at herror
          rw [← hstatus] at hint
          refine ⟨herror, fun y e' value' _ _ hspells' => ?_⟩
          obtain ⟨-, rfl, rfl⟩ := hspells.unique hhelp hverbose hspells'
          exact hint

/-- The port of the client, set to 4294967297: the option is refused, and the port is 1. -/
theorem port_overwritten :
    parseOption exactPlatform fgcomOptions "--port=4294967297".toList [] (fun _ => .int 16661)
        = some (.error, Function.update (fun _ => .int 16661) 3 (.int 1)) ∧
      ¬ ValuesKept exactPlatform fgcomOptions "--port=4294967297".toList []
        (fun _ => .int 16661) := by
  have hparse : parseOption exactPlatform fgcomOptions "--port=4294967297".toList []
      (fun _ => .int 16661)
        = some (.error, Function.update (fun _ => .int 16661) 3 (.int 1)) := by rfl
  refine ⟨hparse, fun h => ?_⟩
  have hkept := congrFun ((h _ _ hparse).1 rfl) 3
  exact absurd hkept (by decide)

end Fgcom
