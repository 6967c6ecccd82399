import Fgcom.ConfigFile
import Fgcom.Lib.Scanf
import Fgcom.Options

/-! # The grammar of options

Which arguments `_parseOption` takes. The function checks the leading dash nowhere, reads the text
behind the second character before it asks whether there is one, and converts numbers without
noticing that they are out of range.

* **`Spells`** — an argument spells an entry and a value; behind a dash that is the grammar.
* **`Acceptable`** — the values that suit an entry.
* **`ParsesRight`** — a status comes back, `ok` exactly for the grammar, and then only the entry's
  variable has changed.
* **`option_grammar_iff`** — the arguments for which it does. -/

namespace Fgcom

open DecimalText Strto

/-! ## What is handed over -/

/-- `_fgcomParseArgs`: the arguments behind the program's name that are handed to `_parseOption`,
each with the next one, as long as none is refused. -/
def fgcomParseArgs : List (List Char) → List (List Char × List Char)
  | [] => []
  | arg :: rest =>
      if arg.head? = some '-' ∧ arg ≠ "--".toList then
        (arg, rest.headD []) :: fgcomParseArgs rest
      else fgcomParseArgs rest

/-- What the two callers can hand over: C strings of a command line, and lines of a config file. -/
def HandedOver (arg nextArg : List Char) : Prop :=
  (∃ argv : List (List Char), (∀ s ∈ argv, '\x00' ∉ s) ∧ (arg, nextArg) ∈ fgcomParseArgs argv) ∨
    (nextArg = [] ∧ ∃ isError content lines,
      fgcomParseOptions isError content = some lines ∧ arg ∈ lines)

/-! ## The grammar -/

/-- The help forms. -/
def IsHelp (arg : List Char) : Prop :=
  arg = "--help".toList ∨ arg = "-h".toList ∨ arg = "-?".toList

instance (arg : List Char) : Decidable (IsHelp arg) := inferInstanceAs (Decidable (_ ∨ _))

/-- The verbose forms. -/
def IsVerbose (arg : List Char) : Prop := arg = "--verbose".toList ∨ arg = "-v".toList

instance (arg : List Char) : Decidable (IsVerbose arg) := inferInstanceAs (Decidable (_ ∨ _))

/-- An argument that starts with a character spells an entry and a value. -/
inductive Spells (table : OptionTable) (nextArg : List Char) :
    Char → List Char → OptionEntry → List Char → Prop
  /-- `--name`, with the value in the next argument. -/
  | long {e : OptionEntry} (he : e ∈ table.entries) (hname : '=' ∉ e.longOption) :
      Spells table nextArg '-' ('-' :: '-' :: e.longOption) e (nextValue nextArg)
  /-- `--name=value`. -/
  | longValue {e : OptionEntry} (he : e ∈ table.entries) (hname : '=' ∉ e.longOption)
      (value : List Char) :
      Spells table nextArg '-' ('-' :: '-' :: (e.longOption ++ '=' :: value)) e value
  /-- `-c` and the value. -/
  | short {e : OptionEntry} (he : e ∈ table.entries) (x : Char)
      (hdash : ¬ (x = '-' ∧ e.option = '-')) (value : List Char) :
      Spells table nextArg x (x :: e.option :: value) e value

/-- A text that is a number of a floating-point type. -/
def FloatAcceptable {F : Type} (format : FloatFormat F) (value : List Char) : Prop :=
  '\x00' ∉ value ∧ ∃ x, IsFloat value x ∧ x ≠ .nan ∧ format.inRange x = true

/-- The values that suit an entry's type. -/
def Acceptable {F : Type} (p : Platform F) (e : OptionEntry) (value : List Char) : Prop :=
  match e.type with
  | .none | .bool => True
  | .string => e.hasParam = true ∧ value ≠ []
  | .float => FloatAcceptable p.single value
  | .double | .freq => FloatAcceptable p.double value
  | .int => ∃ z, Denotes value z ∧ IntRange z
  | .char => e.hasParam = true ∧ value.length = 1

/-- The arguments of the grammar: a dash, an entry, and a value that suits it. -/
def InGrammar {F : Type} (p : Platform F) (table : OptionTable) (arg nextArg : List Char) : Prop :=
  ∃ e value, Spells table nextArg '-' arg e value ∧ Acceptable p e value

/-- **An argument is parsed right**: a status comes back; it is `ok` for the grammar and `error`
for everything else; and with `ok` only the variable of the entry named has changed. -/
def ParsesRight {F : Type} (p : Platform F) (table : OptionTable) (arg nextArg : List Char) :
    Prop :=
  ∀ mem, ∃ status mem', parseOption p table arg nextArg mem = some (status, mem') ∧
    (IsHelp arg → status = .help) ∧ (¬ IsHelp arg → IsVerbose arg → status = .verboseHelp) ∧
    (¬ IsHelp arg → ¬ IsVerbose arg →
      (status = .ok ∧ InGrammar p table arg nextArg ∨
        status = .error ∧ ¬ InGrammar p table arg nextArg) ∧
      (status = .ok → ∀ e value, Spells table nextArg '-' arg e value →
        ∀ a, a ≠ e.parameter → mem' a = mem a))

/-! ## When it is -/

/-- A text whose conversion to a floating-point type is right: no NUL hides behind a numeral, and
the numeral is in range, or the not-a-number, which the comparison refuses. -/
def FloatRight {F : Type} (format : FloatFormat F) (value : List Char) : Prop :=
  if '\x00' ∈ value then ¬ FloatTaken (cstr value)
  else ∀ x, IsFloat value x → x = .nan ∨ format.inRange x = true

/-- A text whose conversion to `int` is right: no NUL hides behind a numeral, and where `long` has
32 bits the numeral fits. -/
def IntRight (long : LongWidth) (value : List Char) : Prop :=
  if '\x00' ∈ value then ¬ IntTaken long (cstr value)
  else long = .w32 → ∀ z, Denotes value z → IntRange z

/-- A value whose conversion to the entry's type is right. -/
def ValueRight {F : Type} (p : Platform F) (e : OptionEntry) (value : List Char) : Prop :=
  match e.type with
  | .none | .bool | .string | .char => True
  | .float => FloatRight p.single value
  | .double | .freq => FloatRight p.double value
  | .int => IntRight p.long value

/-- **The arguments that are parsed right**: help, or at least two characters; behind a dash the
value must be converted right, and without one no entry may take the value. -/
def WellHandled {F : Type} (p : Platform F) (table : OptionTable) (arg nextArg : List Char) :
    Prop :=
  IsHelp arg ∨ IsVerbose arg ∨
    (2 ≤ arg.length ∧ ∀ x e value, Spells table nextArg x arg e value →
      if x = '-' then ValueRight p e value else ¬ Taken p.long e value)

/-! ## Reading an argument -/

section Read

variable {table : OptionTable} {nextArg : List Char} {arg : List Char} {e : OptionEntry}
  {value : List Char}

/-- A search that finds an entry. -/
theorem found_eq_entry_iff {it : Option OptionEntry} {v : List Char} :
    found it v = .entry e value ↔ it = some e ∧ v = value := by
  cases it with
  | none => simp [found]
  | some e' => simp [found]

/-- A search finds an entry, or the option is unknown. -/
theorem found_unknown_or (it : Option OptionEntry) (v : List Char) :
    found it v = .unknown ∨ ∃ e v', found it v = .entry e v' := by
  cases it with
  | none => exact Or.inl rfl
  | some e => exact Or.inr ⟨e, v, rfl⟩

/-- `--name`. -/
theorem readLong_of_notMem {name : List Char} (h : '=' ∉ name) :
    readLong table ('-' :: '-' :: name) nextArg
      = found (findLong table name) (nextValue nextArg) := by
  have hno : '=' ∉ '-' :: '-' :: name := by simpa using h
  simp only [readLong, List.idxOf_eq_length hno, if_pos, List.drop_succ_cons, List.drop_zero]

/-- `--name=value`. -/
theorem readLong_of_split {name : List Char} (h : '=' ∉ name) :
    readLong table ('-' :: '-' :: (name ++ '=' :: value)) nextArg
      = found (findLong table name) value := by
  have hno : '=' ∉ '-' :: '-' :: name := by simpa using h
  have hpos : ('-' :: '-' :: (name ++ '=' :: value)).idxOf '=' = name.length + 2 := by
    rw [← List.cons_append, ← List.cons_append, List.idxOf_append_of_notMem hno,
      List.idxOf_cons_self]
    rfl
  have hlen : ¬ name.length + 2 = ('-' :: '-' :: (name ++ '=' :: value)).length := by
    simp only [List.length_cons, List.length_append]
    omega
  have hvalue : ('-' :: '-' :: (name ++ '=' :: value)).drop (name.length + 2 + 1) = value := by
    simp [List.drop_length_add_append]
  simp only [readLong, hpos, if_neg hlen, hvalue]
  simp

/-- Any other argument of two characters. -/
theorem readShort_cons_cons (x c : Char) (v : List Char) :
    readShort table (x :: c :: v) = found (findShort table c) v := by
  have hname : substr (x :: c :: v) 1 1 = some [c] := by simp [substr]
  have hvalue : substr (x :: c :: v) 2 (x :: c :: v).length = some v := by
    have hpos : ¬ (x :: c :: v).length < 2 := by simp
    have hall : v.length ≤ (x :: c :: v).length := by simp [Nat.le_add_right_of_le]
    rw [substr, if_neg hpos]
    exact congrArg some (List.take_of_length_le hall)
  simp only [readShort, hname, hvalue]

/-- A shorter argument: `substr` throws. -/
theorem readShort_of_short (h : arg.length < 2) : readShort table arg = .thrown := by
  match arg, h with
  | [], _ => rfl
  | [_], _ => rfl

/-- An argument that starts with two dashes. -/
theorem readLong_eq_entry_iff {rest : List Char} :
    readLong table ('-' :: '-' :: rest) nextArg = .entry e value ↔
      ∃ x, Spells table nextArg x ('-' :: '-' :: rest) e value := by
  by_cases heq : '=' ∈ rest
  · obtain ⟨name, v, rfl, hname⟩ := List.eq_append_cons_of_mem heq
    rw [readLong_of_split hname, found_eq_entry_iff, findLong_eq_some_iff]
    constructor
    · rintro ⟨⟨he, rfl⟩, rfl⟩
      exact ⟨'-', .longValue he hname v⟩
    · rintro ⟨x, hspells⟩
      generalize harg : '-' :: '-' :: (name ++ '=' :: v) = arg at hspells
      cases hspells with
      | long he hno =>
          have hrest := (List.cons.inj (List.cons.inj harg).2).2
          exact absurd (hrest ▸ heq) hno
      | longValue he hno v' =>
          have hsplit := (List.cons.inj (List.cons.inj harg).2).2
          obtain ⟨hname', hvalue⟩ := Scanf.append_cons_inj hname hno hsplit
          exact ⟨⟨he, hname'.symm⟩, hvalue⟩
      | short he x hdash v' =>
          obtain ⟨rfl, htail⟩ := List.cons.inj harg
          exact absurd ⟨rfl, (List.cons.inj htail).1.symm⟩ hdash
  · rw [readLong_of_notMem heq, found_eq_entry_iff, findLong_eq_some_iff]
    constructor
    · rintro ⟨⟨he, rfl⟩, rfl⟩
      exact ⟨'-', .long he heq⟩
    · rintro ⟨x, hspells⟩
      generalize harg : '-' :: '-' :: rest = arg at hspells
      cases hspells with
      | long he hno => exact ⟨⟨he, (List.cons.inj (List.cons.inj harg).2).2.symm⟩, rfl⟩
      | longValue he hno v' =>
          obtain rfl := (List.cons.inj (List.cons.inj harg).2).2
          exact absurd (by simp) heq
      | short he x hdash v' =>
          obtain ⟨rfl, htail⟩ := List.cons.inj harg
          exact absurd ⟨rfl, (List.cons.inj htail).1.symm⟩ hdash

/-- What an argument spells has at least two characters, and starts as it says. -/
theorem Spells.exists_eq_cons {x : Char} (h : Spells table nextArg x arg e value) :
    ∃ c t, arg = x :: c :: t := by
  cases h with
  | long he hname => exact ⟨_, _, rfl⟩
  | longValue he hname v => exact ⟨_, _, rfl⟩
  | short he x hdash v => exact ⟨_, _, rfl⟩

/-- What is spelled behind one character. -/
theorem spells_short_iff {x c : Char} {v : List Char} (hdash : ¬ (x = '-' ∧ c = '-')) :
    (∃ y, Spells table nextArg y (x :: c :: v) e value) ↔
      (e ∈ table.entries ∧ e.option = c) ∧ v = value := by
  constructor
  · rintro ⟨y, hspells⟩
    generalize harg : x :: c :: v = arg at hspells
    cases hspells with
    | long he hname =>
        obtain ⟨hx, htail⟩ := List.cons.inj harg
        exact absurd ⟨hx, (List.cons.inj htail).1⟩ hdash
    | longValue he hname v' =>
        obtain ⟨hx, htail⟩ := List.cons.inj harg
        exact absurd ⟨hx, (List.cons.inj htail).1⟩ hdash
    | short he y hdash' v' =>
        obtain ⟨-, htail⟩ := List.cons.inj harg
        exact ⟨⟨he, (List.cons.inj htail).1.symm⟩, (List.cons.inj htail).2⟩
  · rintro ⟨⟨he, rfl⟩, rfl⟩
    exact ⟨x, .short he x hdash v⟩

/-- Behind the help forms the reading goes by the first two characters. -/
theorem readArg_of_not (hhelp : ¬ IsHelp arg) (hverbose : ¬ IsVerbose arg) :
    readArg table arg nextArg
      = if "--".toList.isPrefixOf arg then readLong table arg nextArg else readShort table arg :=
  (if_neg hhelp).trans (if_neg hverbose)

/-- **What an argument is read as**: the entry and the value it spells. -/
theorem readArg_eq_entry_iff (hhelp : ¬ IsHelp arg) (hverbose : ¬ IsVerbose arg) :
    readArg table arg nextArg = .entry e value ↔
      ∃ x, Spells table nextArg x arg e value := by
  rw [readArg_of_not hhelp hverbose]
  by_cases hlen : arg.length < 2
  · have hno : ¬ ∃ x, Spells table nextArg x arg e value := by
      rintro ⟨x, hspells⟩
      obtain ⟨c, t, rfl⟩ := hspells.exists_eq_cons
      rw [List.length_cons, List.length_cons] at hlen
      omega
    have hprefix : ¬ "--".toList.isPrefixOf arg = true := by
      intro h
      exact absurd (List.isPrefixOf_iff_prefix.mp h).length_le (by simpa using hlen)
    rw [if_neg hprefix, readShort_of_short hlen]
    exact ⟨fun h => Reading.noConfusion h, fun h => absurd h hno⟩
  · obtain ⟨x, c, v, rfl⟩ : ∃ x c v, arg = x :: c :: v := by
      match arg, hlen with
      | x :: c :: v, _ => exact ⟨x, c, v, rfl⟩
      | [_], h => simp at h
      | [], h => simp at h
    by_cases hdash : x = '-' ∧ c = '-'
    · obtain ⟨rfl, rfl⟩ := hdash
      exact readLong_eq_entry_iff
    · have hprefix : ¬ "--".toList.isPrefixOf (x :: c :: v) = true := by
        intro h
        obtain ⟨hx, htail⟩ := List.cons_prefix_cons.mp (List.isPrefixOf_iff_prefix.mp h)
        exact hdash ⟨hx.symm, (List.cons_prefix_cons.mp htail).1.symm⟩
      rw [if_neg hprefix, readShort_cons_cons, found_eq_entry_iff, findShort_eq_some_iff,
        spells_short_iff hdash]

/-- **What an argument is read as**, behind the help forms: a single character throws. -/
theorem readArg_cases (table : OptionTable) (nextArg : List Char) (hhelp : ¬ IsHelp arg)
    (hverbose : ¬ IsVerbose arg) :
    (arg.length < 2 ∧ readArg table arg nextArg = .thrown) ∨
      (2 ≤ arg.length ∧ (readArg table arg nextArg = .unknown ∨
        ∃ e v, readArg table arg nextArg = .entry e v)) := by
  rw [readArg_of_not hhelp hverbose]
  by_cases hprefix : "--".toList.isPrefixOf arg = true
  · have hlen : 2 ≤ arg.length := (List.isPrefixOf_iff_prefix.mp hprefix).length_le
    rw [if_pos hprefix]
    exact Or.inr ⟨hlen, found_unknown_or _ _⟩
  · rw [if_neg hprefix]
    match arg with
    | [] => exact Or.inl ⟨by simp, rfl⟩
    | [_] => exact Or.inl ⟨by simp, rfl⟩
    | x :: c :: v =>
        rw [readShort_cons_cons]
        exact Or.inr ⟨by simp, found_unknown_or _ _⟩

end Read

/-! ## Values -/

section Values

variable {F : Type} {p : Platform F} {format : FloatFormat F} {long : LongWidth}
  {e : OptionEntry} {value : List Char}

/-- A conversion to `int` is right when it takes what denotes an `int`. -/
theorem intRight_iff :
    IntRight long value ↔
      (value ≠ [] ∧ IntTaken long (cstr value) ↔ ∃ z, Denotes value z ∧ IntRange z) := by
  unfold IntRight
  by_cases hnul : '\x00' ∈ value
  · -- behind a NUL nothing is read, and a numeral holds none
    have hne : value ≠ [] := List.ne_nil_of_mem hnul
    have hno : ¬ ∃ z, Denotes value z ∧ IntRange z := fun ⟨z, hz, _⟩ => hz.notMem hnul
    rw [if_pos hnul, iff_false_right hno, not_and]
    exact ⟨fun h _ => h, fun h => h hne⟩
  · rw [if_neg hnul, cstr_of_notMem hnul]
    constructor
    · intro h
      constructor
      · rintro ⟨hne, hnil | ⟨z, hz, hfits | hlong⟩⟩
        · exact absurd hnil hne
        · exact ⟨z, hz, hfits⟩
        · exact ⟨z, hz, h hlong z hz⟩
      · rintro ⟨z, hz, hfits⟩
        refine ⟨?_, Or.inr ⟨z, hz, Or.inl hfits⟩⟩
        rintro rfl
        exact not_denotes_nil hz
    · intro h hlong z hz
      have hne : value ≠ [] := by
        rintro rfl
        exact not_denotes_nil hz
      obtain ⟨z', hz', hfits⟩ := h.mp ⟨hne, Or.inr ⟨z, hz, Or.inr hlong⟩⟩
      exact hz.unique hz' ▸ hfits

/-- A conversion to a floating-point type is right when it takes what is a number of the type. -/
theorem floatRight_iff :
    FloatRight format value ↔
      (value ≠ [] ∧ FloatTaken (cstr value) ↔ FloatAcceptable format value) := by
  unfold FloatRight FloatAcceptable
  by_cases hnul : '\x00' ∈ value
  · have hne : value ≠ [] := List.ne_nil_of_mem hnul
    have hno : ¬ ('\x00' ∉ value ∧ ∃ x, IsFloat value x ∧ x ≠ .nan ∧ format.inRange x = true) :=
      fun h => h.1 hnul
    rw [if_pos hnul, iff_false_right hno, not_and]
    exact ⟨fun h _ => h, fun h => h hne⟩
  · rw [if_neg hnul, cstr_of_notMem hnul]
    constructor
    · intro h
      constructor
      · rintro ⟨hne, hnil | ⟨x, hx, hnan⟩⟩
        · exact absurd hnil hne
        · exact ⟨hnul, x, hx, hnan, (h x hx).resolve_left hnan⟩
      · rintro ⟨-, x, hx, hnan, -⟩
        refine ⟨?_, Or.inr ⟨x, hx, hnan⟩⟩
        rintro rfl
        exact not_isFloat_nil hx
    · intro h x hx
      by_cases hnan : x = .nan
      · exact Or.inl hnan
      · have hne : value ≠ [] := by
          rintro rfl
          exact not_isFloat_nil hx
        obtain ⟨-, y, hy, -, hrange⟩ := h.mp ⟨hne, Or.inr ⟨x, hx, hnan⟩⟩
        exact Or.inr (hx.unique hy ▸ hrange)

/-- **A value is converted right** when the entry takes it exactly if it suits. -/
theorem valueRight_iff :
    ValueRight p e value ↔ (Taken p.long e value ↔ Acceptable p e value) := by
  unfold ValueRight Taken Acceptable
  cases e.type with
  | none => simp
  | bool => simp
  | string => simp
  | float => exact floatRight_iff
  | double => exact floatRight_iff
  | freq => exact floatRight_iff
  | int => exact intRight_iff
  | char => simp

end Values

/-! ## The condition -/

section Condition

variable {F : Type} {p : Platform F} {table : OptionTable} {arg nextArg : List Char}

/-- The help forms are answered at once. -/
theorem parseOption_of_isHelp (h : IsHelp arg) {mem : Memory F} :
    parseOption p table arg nextArg mem = some (.help, mem) := by
  have hread : readArg table arg nextArg = .help := if_pos h
  rw [parseOption, hread]

theorem parseOption_of_isVerbose (hhelp : ¬ IsHelp arg) (h : IsVerbose arg) {mem : Memory F} :
    parseOption p table arg nextArg mem = some (.verboseHelp, mem) := by
  have hread : readArg table arg nextArg = .verbose := (if_neg hhelp).trans (if_pos h)
  rw [parseOption, hread]

/-- On a single character the call throws. -/
theorem parseOption_of_length (hhelp : ¬ IsHelp arg) (hverbose : ¬ IsVerbose arg)
    (h : arg.length < 2) {mem : Memory F} : parseOption p table arg nextArg mem = none := by
  rcases readArg_cases table nextArg hhelp hverbose with
    ⟨-, hthrown⟩ | ⟨hlen, -⟩
  · rw [parseOption, hthrown]
  · omega

/-- What happens to an argument that spells an entry and a value. -/
theorem parseOption_of_spells (hhelp : ¬ IsHelp arg) (hverbose : ¬ IsVerbose arg) {x : Char}
    {e : OptionEntry} {value : List Char} (h : Spells table nextArg x arg e value)
    (mem : Memory F) :
    parseOption p table arg nextArg mem = some (setParameter p e value mem) := by
  have hread := (readArg_eq_entry_iff hhelp hverbose).mpr ⟨x, h⟩
  rw [parseOption, hread]

/-- An argument spells one entry and one value, behind one character. -/
theorem Spells.unique (hhelp : ¬ IsHelp arg) (hverbose : ¬ IsVerbose arg) {x y : Char}
    {e e' : OptionEntry} {value value' : List Char} (h : Spells table nextArg x arg e value)
    (h' : Spells table nextArg y arg e' value') : x = y ∧ e = e' ∧ value = value' := by
  have hread := (readArg_eq_entry_iff hhelp hverbose).mpr ⟨x, h⟩
  rw [(readArg_eq_entry_iff hhelp hverbose).mpr ⟨y, h'⟩] at hread
  obtain ⟨rfl, rfl⟩ := Reading.entry.inj hread
  obtain ⟨c, t, rfl⟩ := h.exists_eq_cons
  obtain ⟨c', t', heq⟩ := h'.exists_eq_cons
  exact ⟨(List.cons.inj heq).1, rfl, rfl⟩

/-- Of what an argument spells, the dash and the value decide. -/
theorem inGrammar_iff_of_spells (hhelp : ¬ IsHelp arg) (hverbose : ¬ IsVerbose arg) {x : Char}
    {e : OptionEntry} {value : List Char} (h : Spells table nextArg x arg e value) :
    InGrammar p table arg nextArg ↔ x = '-' ∧ Acceptable p e value := by
  constructor
  · rintro ⟨e', value', h', hacceptable⟩
    obtain ⟨hx, rfl, rfl⟩ := h.unique hhelp hverbose h'
    exact ⟨hx, hacceptable⟩
  · rintro ⟨rfl, hacceptable⟩
    exact ⟨e, value, h, hacceptable⟩

/-- What is taken is what is of the grammar, under the condition on the value. -/
theorem taken_iff_inGrammar_iff (hhelp : ¬ IsHelp arg) (hverbose : ¬ IsVerbose arg) {x : Char}
    {e : OptionEntry} {value : List Char} (h : Spells table nextArg x arg e value) :
    (Taken p.long e value ↔ InGrammar p table arg nextArg) ↔
      if x = '-' then ValueRight p e value else ¬ Taken p.long e value := by
  rw [inGrammar_iff_of_spells hhelp hverbose h]
  by_cases hx : x = '-'
  · rw [if_pos hx, valueRight_iff, and_iff_right hx]
  · have hno : ¬ (x = '-' ∧ Acceptable p e value) := fun hand => hx hand.1
    rw [if_neg hx, iff_false_right hno]

/-- An argument of two characters or more is answered with a status. -/
theorem parseOption_eq_some (p : Platform F) (table : OptionTable) (nextArg : List Char)
    (hhelp : ¬ IsHelp arg) (hverbose : ¬ IsVerbose arg)
    (hlen : 2 ≤ arg.length) (mem : Memory F) :
    (parseOption p table arg nextArg mem = some (.error, mem) ∧
        ∀ x e value, ¬ Spells table nextArg x arg e value) ∨
      ∃ x e value, Spells table nextArg x arg e value ∧
        parseOption p table arg nextArg mem = some (setParameter p e value mem) := by
  rcases readArg_cases table nextArg hhelp hverbose with
    ⟨hshort, -⟩ | ⟨-, hunknown | ⟨e, value, hentry⟩⟩
  · omega
  · left
    refine ⟨by rw [parseOption, hunknown], fun x e value h => ?_⟩
    have hread := (readArg_eq_entry_iff hhelp hverbose).mpr ⟨x, h⟩
    exact Reading.noConfusion (hunknown.symm.trans hread)
  · right
    obtain ⟨x, h⟩ := (readArg_eq_entry_iff hhelp hverbose).mp hentry
    exact ⟨x, e, value, h, parseOption_of_spells hhelp hverbose h mem⟩

/-- Behind the help forms: two characters, and the condition on the value spelled. -/
theorem parsesRight_iff_of_not (hhelp : ¬ IsHelp arg) (hverbose : ¬ IsVerbose arg) :
    ParsesRight p table arg nextArg ↔
      2 ≤ arg.length ∧ ∀ x e value, Spells table nextArg x arg e value →
        if x = '-' then ValueRight p e value else ¬ Taken p.long e value := by
  constructor
  · intro h
    obtain ⟨status, mem', hparse, -, -, hrest⟩ := h fun _ => .bool false
    have hgrammar := (hrest hhelp hverbose).1
    constructor
    · by_contra hlen
      rw [parseOption_of_length hhelp hverbose (not_le.mp hlen)] at hparse
      exact absurd hparse (by simp)
    · intro x e value hspells
      rw [parseOption_of_spells hhelp hverbose hspells] at hparse
      have hstatus : status = .ok ↔ Taken p.long e value := by
        have hok : (setParameter p e value fun _ => .bool false).1 = .ok ↔ Taken p.long e value :=
          setParameter_ok_iff
        rw [Option.some.inj hparse] at hok
        exact hok
      rw [← taken_iff_inGrammar_iff hhelp hverbose hspells, ← hstatus]
      rcases hgrammar with ⟨rfl, hin⟩ | ⟨rfl, hout⟩
      · exact iff_of_true rfl hin
      · exact iff_of_false Status.noConfusion hout
  · rintro ⟨hlen, hvalue⟩ mem
    rcases parseOption_eq_some p table nextArg hhelp hverbose hlen mem with
      ⟨hparse, hno⟩ | ⟨x, e, value, hspells, hparse⟩
    · -- an unknown option
      refine ⟨.error, mem, hparse, fun h => absurd h hhelp, fun _ h => absurd h hverbose,
        fun _ _ => ⟨Or.inr ⟨rfl, ?_⟩, fun h => Status.noConfusion h⟩⟩
      rintro ⟨e, value, hspells, -⟩
      exact hno _ _ _ hspells
    · -- an entry and its value
      have hagree := (taken_iff_inGrammar_iff hhelp hverbose hspells).mpr (hvalue x e value hspells)
      have hown : OwnVariable e mem (setParameter p e value mem) := ownVariable_setParameter
      refine ⟨_, _, hparse, fun h => absurd h hhelp, fun _ h => absurd h hverbose,
        fun _ _ => ⟨?_, fun _ e' value' hspells' => ?_⟩⟩
      · rcases hown.1 with hok | herror
        · exact Or.inl ⟨hok, hagree.mp (setParameter_ok_iff.mp hok)⟩
        · refine Or.inr ⟨herror, fun hin => ?_⟩
          have hok : (setParameter p e value mem).1 = .ok :=
            setParameter_ok_iff.mpr (hagree.mpr hin)
          exact Status.noConfusion (hok.symm.trans herror)
      · obtain ⟨-, rfl, -⟩ := hspells.unique hhelp hverbose hspells'
        exact hown.2

/-- **The arguments that are parsed right**, for every table, every argument and every next one:
the help forms, and the arguments of two characters or more whose value is converted right behind a
dash, and taken by no entry without one. -/
theorem option_grammar_iff (p : Platform F) (table : OptionTable) (arg nextArg : List Char) :
    ParsesRight p table arg nextArg ↔ WellHandled p table arg nextArg := by
  unfold WellHandled
  by_cases hhelp : IsHelp arg
  · refine iff_of_true (fun mem => ?_) (Or.inl hhelp)
    exact ⟨.help, mem, parseOption_of_isHelp hhelp, fun _ => rfl, fun hno => absurd hhelp hno,
      fun hno => absurd hhelp hno⟩
  · by_cases hverbose : IsVerbose arg
    · refine iff_of_true (fun mem => ?_) (Or.inr (Or.inl hverbose))
      exact ⟨.verboseHelp, mem, parseOption_of_isVerbose hhelp hverbose,
        fun h => absurd h hhelp, fun _ _ => rfl, fun _ hno => absurd hverbose hno⟩
    · rw [parsesRight_iff_of_not hhelp hverbose, or_iff_right hhelp, or_iff_right hverbose]

end Condition

/-! ## A lone dash -/

/-- Numerals themselves as floating-point numbers. -/
def exactFormat : FloatFormat Numeral where
  round := id
  inRange _ := true
  ne x y := x = .nan || y = .nan || x ≠ y
  ne_self x := by simp
  nan_only _ h := h

/-- A platform with such numbers and a `long` of 64 bits. -/
def exactPlatform : Platform Numeral := ⟨.w64, exactFormat, exactFormat⟩

/-- A lone dash on the command line throws, and a line of the config file sets an option without a
dash. -/
theorem lone_dash_throws :
    (HandedOver "-".toList [] ∧ ¬ ParsesRight exactPlatform fgcomOptions "-".toList []) ∧
      HandedOver "xd".toList [] ∧ ¬ ParsesRight exactPlatform fgcomOptions "xd".toList [] := by
  refine ⟨⟨Or.inl ⟨["-".toList], by decide, by decide⟩, fun h => ?_⟩,
    Or.inr ⟨rfl, fun _ => false, "xd\n".toList, ["xd".toList], by decide, by decide⟩, fun h => ?_⟩
  · obtain ⟨status, mem', hparse, -⟩ := h fun _ => .bool false
    have hthrown : parseOption exactPlatform fgcomOptions "-".toList [] (fun _ => .bool false)
        = none := rfl
    exact absurd (hthrown.symm.trans hparse) (by simp)
  · obtain ⟨status, mem', hparse, -, -, hrest⟩ := h fun _ => .bool false
    have hok : parseOption exactPlatform fgcomOptions "xd".toList [] (fun _ => .bool false)
        = some (.ok, Function.update (fun _ => .bool false) 0 (.bool true)) := rfl
    rcases (hrest (by decide) (by decide)).1 with ⟨-, e, value, hspells, -⟩ | ⟨herror, -⟩
    · obtain ⟨c, t, heq⟩ := hspells.exists_eq_cons
      exact absurd (List.cons.inj heq).1 (by decide)
    · have hstatus := (Prod.mk.inj (Option.some.inj (hok.symm.trans hparse))).1
      exact Status.noConfusion (hstatus.trans herror)

end Fgcom
