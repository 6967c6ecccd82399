import Fgcom.Lib.DecimalText
import Mathlib.Data.List.TakeWhile

/-! # The numerals of `strtol` and `strtod`

What the two C functions read off the front of a text, with exact values.

* **`readInteger`** — an integer in base 0: white space, a sign, and a magnitude in hexadecimal
  behind `0x`, in octal behind `0`, else in decimal. `strtol` cuts the value down to the range of
  `long`; `strtol_of_none` and `strtol_of_some` are its two cases.
* **`Denotes`** — the numerals of base 0 as a grammar, with their values. `readInteger_eq_some_iff`:
  a text read to its end is one of these.
* **`readFloat`** — a floating-point numeral: decimal or hexadecimal, `inf` or `nan`. -/

namespace Strto

open DecimalText

/-! ## Digits -/

/-- The octal digits. -/
def isOctDigit (c : Char) : Bool := '0' ≤ c && c ≤ '7'

/-- The hexadecimal digits. -/
def isHexDigit (c : Char) : Bool :=
  c.isDigit || ('a' ≤ c && c ≤ 'f') || ('A' ≤ c && c ≤ 'F')

/-- The value of a digit. -/
def digitValue (c : Char) : ℕ :=
  if c.isDigit then c.toNat - 48 else if 'a' ≤ c then c.toNat - 87 else c.toNat - 55

/-- The value of a text of digits in a base. -/
def valueIn (base : ℕ) (ds : List Char) : ℕ := ds.foldl (fun n c => base * n + digitValue c) 0

/-! ## Integers -/

/-- A text that starts with `0x` and a hexadecimal digit. -/
def hexPrefix : List Char → Bool
  | '0' :: x :: c :: _ => (x = 'x' || x = 'X') && isHexDigit c
  | _ => false

/-- The magnitude at the front of a text, in the base its prefix names, and the text behind it. -/
def readMagnitude (s : List Char) : Option (ℕ × List Char) :=
  if hexPrefix s then
    some (valueIn 16 ((s.drop 2).takeWhile isHexDigit), (s.drop 2).dropWhile isHexDigit)
  else if s.head? = some '0' then
    some (valueIn 8 (s.takeWhile isOctDigit), s.dropWhile isOctDigit)
  else if s.takeWhile Char.isDigit ≠ [] then
    some (valueIn 10 (s.takeWhile Char.isDigit), s.dropWhile Char.isDigit)
  else none

/-- The integer at the front of a text, and the text behind it. -/
def readInteger (s : List Char) : Option (ℤ × List Char) :=
  let (neg, t) := readSign (s.dropWhile isSpace)
  (readMagnitude t).map fun (n, rest) => (if neg then -(n : ℤ) else n, rest)

/-- A value cut down to the range of a signed type of `bits` bits. -/
def saturate (bits : ℕ) (z : ℤ) : ℤ := max (-2 ^ (bits - 1)) (min (2 ^ (bits - 1) - 1) z)

/-- `strtol (s, &end, 0)` for a `long` of `bits` bits: the value, and the text at `end`. Where no
number stands that is the whole text. -/
def strtol (bits : ℕ) (s : List Char) : ℤ × List Char :=
  match readInteger s with
  | none => (0, s)
  | some (z, rest) => (saturate bits z, rest)

theorem strtol_of_none {bits : ℕ} {s : List Char} (h : readInteger s = none) :
    strtol bits s = (0, s) := by
  rw [strtol, h]

theorem strtol_of_some {bits : ℕ} {s rest : List Char} {z : ℤ}
    (h : readInteger s = some (z, rest)) : strtol bits s = (saturate bits z, rest) := by
  rw [strtol, h]

/-- A value in range is kept. -/
theorem saturate_of_mem {bits : ℕ} {z : ℤ} (hlow : -2 ^ (bits - 1) ≤ z)
    (hhigh : z < 2 ^ (bits - 1)) : saturate bits z = z := by
  unfold saturate
  rw [min_eq_right (by omega), max_eq_right hlow]

/-! ## The grammar of integers -/

/-- The magnitudes of base 0. -/
inductive Magnitude : List Char → ℕ → Prop
  | decimal {c : Char} {ds : List Char} (hc : c.isDigit = true) (h0 : c ≠ '0')
      (hds : ∀ d ∈ ds, d.isDigit = true) : Magnitude (c :: ds) (valueIn 10 (c :: ds))
  | octal {ds : List Char} (hds : ∀ d ∈ ds, isOctDigit d = true) :
      Magnitude ('0' :: ds) (valueIn 8 ('0' :: ds))
  | hex {x : Char} {ds : List Char} (hx : x = 'x' ∨ x = 'X') (hne : ds ≠ [])
      (hds : ∀ d ∈ ds, isHexDigit d = true) : Magnitude ('0' :: x :: ds) (valueIn 16 ds)

/-- A numeral of base 0, white space in front of it included, and the integer it denotes. -/
def Denotes (s : List Char) (z : ℤ) : Prop :=
  ∃ blanks sign digits n, s = blanks ++ sign ++ digits ∧ (∀ c ∈ blanks, isSpace c = true) ∧
    Magnitude digits n ∧
    ((sign = ['-'] ∧ z = -(n : ℤ)) ∨ ((sign = ['+'] ∨ sign = []) ∧ z = n))

/-- A magnitude starts with a digit. -/
theorem Magnitude.head_isDigit {s : List Char} {n : ℕ} (h : Magnitude s n) :
    ∃ c t, s = c :: t ∧ c.isDigit = true := by
  cases h with
  | decimal hc h0 hds => exact ⟨_, _, rfl, hc⟩
  | octal hds => exact ⟨_, _, rfl, rfl⟩
  | hex hx hne hds => exact ⟨_, _, rfl, rfl⟩

/-- A text of one kind of characters is taken whole. -/
theorem takeWhile_of_forall {p : Char → Bool} {s : List Char} (h : ∀ c ∈ s, p c = true) :
    s.takeWhile p = s ∧ s.dropWhile p = [] :=
  ⟨List.takeWhile_eq_self_iff.mpr h, List.dropWhile_eq_nil_iff.mpr h⟩

/-- A prefix `0x` starts with these two characters. -/
theorem exists_of_hexPrefix {s : List Char} (h : hexPrefix s = true) :
    ∃ x c t, s = '0' :: x :: c :: t ∧ (x = 'x' ∨ x = 'X') ∧ isHexDigit c = true := by
  unfold hexPrefix at h
  split at h
  · rename_i x c t
    rw [Bool.and_eq_true, Bool.or_eq_true, decide_eq_true_eq, decide_eq_true_eq] at h
    exact ⟨x, c, t, rfl, h.1, h.2⟩
  · exact absurd h Bool.false_ne_true

/-- What is read to the end of the text is of the grammar. -/
theorem magnitude_of_readMagnitude {s : List Char} {n : ℕ} (h : readMagnitude s = some (n, [])) :
    Magnitude s n := by
  unfold readMagnitude at h
  split at h
  · -- hexadecimal
    rename_i hprefix
    obtain ⟨x, c, t, rfl, hx, -⟩ := exists_of_hexPrefix hprefix
    obtain ⟨rfl, hrest⟩ := Prod.mk.inj (Option.some.inj h)
    have hall : ∀ d ∈ c :: t, isHexDigit d = true := List.dropWhile_eq_nil_iff.mp hrest
    show Magnitude _ (valueIn 16 ((c :: t).takeWhile isHexDigit))
    rw [(takeWhile_of_forall hall).1]
    exact Magnitude.hex hx (List.cons_ne_nil c t) hall
  · split at h
    · -- octal
      rename_i hzero
      obtain ⟨rfl, hrest⟩ := Prod.mk.inj (Option.some.inj h)
      have hall := List.dropWhile_eq_nil_iff.mp hrest
      rw [(takeWhile_of_forall hall).1]
      obtain ⟨t, rfl⟩ := List.head?_eq_some_iff.mp hzero
      exact Magnitude.octal fun d hd => hall d (List.mem_cons_of_mem _ hd)
    · rename_i hzero
      split at h
      · -- decimal
        rename_i hne
        obtain ⟨rfl, hrest⟩ := Prod.mk.inj (Option.some.inj h)
        have hall := List.dropWhile_eq_nil_iff.mp hrest
        rw [(takeWhile_of_forall hall).1] at hne ⊢
        obtain ⟨c, t, rfl⟩ := List.exists_cons_of_ne_nil hne
        refine Magnitude.decimal (hall c List.mem_cons_self) ?_ fun d hd =>
          hall d (List.mem_cons_of_mem _ hd)
        rintro rfl
        exact hzero rfl
      · exact absurd h (by simp)

/-- What is of the grammar is read to the end of the text. -/
theorem readMagnitude_of_magnitude {s : List Char} {n : ℕ} (h : Magnitude s n) :
    readMagnitude s = some (n, []) := by
  unfold readMagnitude
  cases h with
  | @decimal c ds hc h0 hds =>
      have hhex : ¬ hexPrefix (c :: ds) = true := by
        intro hprefix
        obtain ⟨x, d, t, heq, -, -⟩ := exists_of_hexPrefix hprefix
        exact h0 (List.cons.inj heq).1
      have hzero : ¬ (c :: ds).head? = some '0' := by simpa using h0
      obtain ⟨htake, hdrop⟩ := takeWhile_of_forall (List.forall_mem_cons.mpr ⟨hc, hds⟩)
      rw [if_neg hhex, if_neg hzero, htake, hdrop, if_pos (List.cons_ne_nil c ds)]
  | @octal ds hds =>
      have hhex : ¬ hexPrefix ('0' :: ds) = true := by
        intro hprefix
        obtain ⟨x, d, t, heq, hx, -⟩ := exists_of_hexPrefix hprefix
        obtain rfl := (List.cons.inj heq).2
        have hoct := hds x List.mem_cons_self
        rcases hx with rfl | rfl <;> exact absurd hoct (by decide)
      obtain ⟨htake, hdrop⟩ :=
        takeWhile_of_forall (List.forall_mem_cons.mpr ⟨(rfl : isOctDigit '0' = true), hds⟩)
      have hzero : ('0' :: ds).head? = some '0' := rfl
      rw [if_neg hhex, if_pos hzero, htake, hdrop]
  | @hex x ds hx hne hds =>
      obtain ⟨c, t, rfl⟩ := List.exists_cons_of_ne_nil hne
      have hhex : hexPrefix ('0' :: x :: c :: t) = true := by
        have hc := hds c List.mem_cons_self
        rcases hx with rfl | rfl <;> simp [hexPrefix, hc]
      obtain ⟨htake, hdrop⟩ := takeWhile_of_forall hds
      rw [if_pos hhex, List.drop_succ_cons, List.drop_succ_cons, List.drop_zero, htake, hdrop]

/-- **A magnitude read to the end of the text** is one of the grammar. -/
theorem readMagnitude_eq_some_iff {s : List Char} {n : ℕ} :
    readMagnitude s = some (n, []) ↔ Magnitude s n :=
  ⟨magnitude_of_readMagnitude, readMagnitude_of_magnitude⟩

/-- A sign read off, and what was in front of it. -/
theorem readSign_eq {t u : List Char} {neg : Bool} (h : readSign t = (neg, u)) :
    ∃ sign, t = sign ++ u ∧
      ((sign = ['-'] ∧ neg = true) ∨ ((sign = ['+'] ∨ sign = []) ∧ neg = false)) := by
  unfold readSign at h
  split at h
  · obtain ⟨rfl, rfl⟩ := Prod.mk.inj h
    exact ⟨['-'], rfl, Or.inl ⟨rfl, rfl⟩⟩
  · obtain ⟨rfl, rfl⟩ := Prod.mk.inj h
    exact ⟨['+'], rfl, Or.inr ⟨Or.inl rfl, rfl⟩⟩
  · obtain ⟨rfl, rfl⟩ := Prod.mk.inj h
    exact ⟨[], rfl, Or.inr ⟨Or.inr rfl, rfl⟩⟩

/-- White space is skipped up to a character that is none. -/
theorem dropWhile_isSpace_of_head {blanks : List Char} {c : Char} {t : List Char}
    (hblanks : ∀ d ∈ blanks, isSpace d = true) (hc : isSpace c = false) :
    (blanks ++ c :: t).dropWhile isSpace = c :: t := by
  rw [List.dropWhile_append_of_pos hblanks, List.dropWhile_cons_of_neg (by simp [hc])]

/-- A digit is no white space. -/
theorem isSpace_of_isDigit {c : Char} (h : c.isDigit = true) : isSpace c = false := by
  rw [Bool.eq_false_iff]
  intro hspace
  have hcases : c = ' ' ∨ c = '\t' ∨ c = '\n' ∨ c = '\x0b' ∨ c = '\x0c' ∨ c = '\r' := by
    simpa [isSpace, or_assoc] using hspace
  rcases hcases with rfl | rfl | rfl | rfl | rfl | rfl <;> exact absurd h (by decide)

/-- Reading behind the sign. -/
theorem readInteger_of_readSign {s t : List Char} {neg : Bool}
    (h : readSign (s.dropWhile isSpace) = (neg, t)) :
    readInteger s = (readMagnitude t).map fun x => (if neg then -(x.1 : ℤ) else x.1, x.2) := by
  unfold readInteger
  rw [h]

/-- **An integer read to the end of the text** is a numeral of base 0, with its value. -/
theorem readInteger_eq_some_iff {s : List Char} {z : ℤ} :
    readInteger s = some (z, []) ↔ Denotes s z := by
  constructor
  · intro h
    obtain ⟨neg, t, hread⟩ : ∃ neg t, readSign (s.dropWhile isSpace) = (neg, t) := ⟨_, _, rfl⟩
    rw [readInteger_of_readSign hread] at h
    obtain ⟨⟨n, rest⟩, hn, heq⟩ := Option.map_eq_some_iff.mp h
    obtain ⟨hz, rfl⟩ := Prod.mk.inj heq
    obtain ⟨sign, hsign, hcase⟩ := readSign_eq hread
    refine ⟨s.takeWhile isSpace, sign, t, n, ?_, ?_, readMagnitude_eq_some_iff.mp hn, ?_⟩
    · rw [List.append_assoc, ← hsign, List.takeWhile_append_dropWhile]
    · exact fun c hc => List.mem_takeWhile_imp hc
    · rcases hcase with ⟨hs, rfl⟩ | ⟨hs, rfl⟩
      · exact Or.inl ⟨hs, hz.symm⟩
      · exact Or.inr ⟨hs, hz.symm⟩
  · rintro ⟨blanks, sign, digits, n, rfl, hblanks, hdigits, hcase⟩
    have hread := readMagnitude_eq_some_iff.mpr hdigits
    obtain ⟨c, t, rfl, hc⟩ := hdigits.head_isDigit
    -- white space and sign are taken off, and the magnitude is left
    have hsign : ∀ c' : Char, isSpace c' = false →
        (blanks ++ [c'] ++ c :: t).dropWhile isSpace = c' :: c :: t := by
      intro c' hc'
      rw [List.append_assoc]
      exact dropWhile_isSpace_of_head hblanks hc'
    rcases hcase with ⟨rfl, rfl⟩ | ⟨rfl | rfl, rfl⟩
    · have hminus : readSign ((blanks ++ ['-'] ++ c :: t).dropWhile isSpace) = (true, c :: t) := by
        rw [hsign '-' rfl]
        rfl
      rw [readInteger_of_readSign hminus, hread]
      rfl
    · have hplus : readSign ((blanks ++ ['+'] ++ c :: t).dropWhile isSpace) = (false, c :: t) := by
        rw [hsign '+' rfl]
        rfl
      rw [readInteger_of_readSign hplus, hread]
      rfl
    · have hnone : readSign ((blanks ++ [] ++ c :: t).dropWhile isSpace) = (false, c :: t) := by
        rw [List.append_nil, dropWhile_isSpace_of_head hblanks (isSpace_of_isDigit hc)]
        exact @readSign_digits [c] t (List.cons_ne_nil c []) fun d hd =>
          (List.mem_singleton.mp hd) ▸ hc
      rw [readInteger_of_readSign hnone, hread]
      rfl

/-- A numeral denotes one integer. -/
theorem Denotes.unique {s : List Char} {z z' : ℤ} (h : Denotes s z) (h' : Denotes s z') :
    z = z' := by
  have hread := readInteger_eq_some_iff.mpr h
  rw [readInteger_eq_some_iff.mpr h'] at hread
  exact (Prod.mk.inj (Option.some.inj hread)).1.symm

/-- The empty text is no numeral. -/
theorem not_denotes_nil {z : ℤ} : ¬ Denotes [] z := by
  rw [← readInteger_eq_some_iff]
  exact fun h => absurd h (by simp [readInteger, readSign, readMagnitude, hexPrefix])

/-- A magnitude holds no NUL. -/
theorem Magnitude.notMem {s : List Char} {n : ℕ} (h : Magnitude s n) : '\x00' ∉ s := by
  intro hmem
  cases h with
  | decimal hc h0 hds =>
      rcases List.mem_cons.mp hmem with rfl | hmem
      · exact absurd hc (by decide)
      · exact absurd (hds _ hmem) (by decide)
  | octal hds =>
      rcases List.mem_cons.mp hmem with h0 | hmem
      · exact absurd h0 (by decide)
      · exact absurd (hds _ hmem) (by decide)
  | hex hx hne hds =>
      rcases List.mem_cons.mp hmem with h0 | hmem
      · exact absurd h0 (by decide)
      · rcases List.mem_cons.mp hmem with rfl | hmem
        · exact absurd hx (by decide)
        · exact absurd (hds _ hmem) (by decide)

/-- A numeral holds no NUL. -/
theorem Denotes.notMem {s : List Char} {z : ℤ} (h : Denotes s z) : '\x00' ∉ s := by
  obtain ⟨blanks, sign, digits, n, rfl, hblanks, hdigits, hcase⟩ := h
  have hsign : '\x00' ∉ sign := by
    rcases hcase with ⟨rfl, -⟩ | ⟨rfl | rfl, -⟩ <;> decide
  rw [List.mem_append, List.mem_append, not_or, not_or]
  exact ⟨⟨fun hmem => absurd (hblanks _ hmem) (by decide), hsign⟩, hdigits.notMem⟩

/-- `strtol` on the empty text. -/
theorem strtol_nil (bits : ℕ) : strtol bits [] = (0, []) := rfl

/-- `strtol` on a numeral. -/
theorem strtol_of_denotes {bits : ℕ} {s : List Char} {z : ℤ} (h : Denotes s z) :
    strtol bits s = (saturate bits z, []) :=
  strtol_of_some (readInteger_eq_some_iff.mpr h)

/-- **`strtol` reads to the end** of a numeral, and of the empty text. -/
theorem strtol_snd_eq_nil_iff {bits : ℕ} {s : List Char} :
    (strtol bits s).2 = [] ↔ s = [] ∨ ∃ z, Denotes s z := by
  constructor
  · intro h
    cases hread : readInteger s with
    | none =>
        rw [strtol_of_none hread] at h
        exact Or.inl h
    | some x =>
        obtain ⟨z, rest⟩ := x
        rw [strtol_of_some hread] at h
        obtain rfl : rest = [] := h
        exact Or.inr ⟨z, readInteger_eq_some_iff.mp hread⟩
  · rintro (rfl | ⟨z, hz⟩)
    · rfl
    · rw [strtol_of_denotes hz]

/-! ## Floating-point numerals -/

/-- What a floating-point numeral stands for. -/
inductive Numeral
  | finite (q : ℚ)
  | infinite (neg : Bool)
  | nan
  deriving DecidableEq

/-- A text starts with a word, in capitals or not. -/
def startsWithWord (word s : List Char) : Bool := (s.take word.length).map Char.toLower == word

/-- `v * 2 ^ e` for an integer exponent. -/
def scaleTwo (v : ℚ) : ℤ → ℚ
  | .ofNat n => v * ((2 ^ n : ℕ) : ℚ)
  | .negSucc n => v / ((2 ^ (n + 1) : ℕ) : ℚ)

/-- An optional binary exponent: its value and the text behind it. -/
def readBinaryExponent (s : List Char) : ℤ × List Char :=
  match s with
  | c :: t =>
      if c = 'p' ∨ c = 'P' then
        let (neg, u) := readSign t
        let ds := u.takeWhile Char.isDigit
        if ds = [] then (0, s)
        else
          let n : ℤ := valueIn 10 ds
          (if neg then -n else n, u.dropWhile Char.isDigit)
      else (0, s)
  | [] => (0, s)

/-- The hexadecimal numeral behind `0x`: its digits, an optional fraction, an optional exponent. -/
def readHexadecimal (s : List Char) : Option (ℚ × List Char) :=
  let int := s.takeWhile isHexDigit
  let (frac, s) :=
    match s.dropWhile isHexDigit with
    | '.' :: t => (t.takeWhile isHexDigit, t.dropWhile isHexDigit)
    | t => ([], t)
  if int = [] ∧ frac = [] then none
  else
    let (e, rest) := readBinaryExponent s
    some (scaleTwo (valueIn 16 (int ++ frac) : ℕ) (e - 4 * frac.length), rest)

/-- What may stand between the brackets of `nan(..)`. -/
def isNanChar (c : Char) : Bool := c.isAlphanum || c = '_'

/-- An optional bracket behind `nan`: the text behind it. -/
def skipNanBracket (s : List Char) : List Char :=
  match s with
  | '(' :: t =>
      match t.dropWhile isNanChar with
      | ')' :: rest => rest
      | _ => s
  | _ => s

/-- The floating-point numeral at the front of a text, and the text behind it. -/
def readFloat (s : List Char) : Option (Numeral × List Char) :=
  let (neg, t) := readSign s
  if startsWithWord "infinity".toList t then some (.infinite neg, t.drop 8)
  else if startsWithWord "inf".toList t then some (.infinite neg, t.drop 3)
  else if startsWithWord "nan".toList t then some (.nan, skipNanBracket (t.drop 3))
  else
    -- `0x` with no digit behind it is read as the decimal `0`
    match (if startsWithWord "0x".toList t then readHexadecimal (t.drop 2) else none) with
    | some (v, rest) => some (.finite (if neg then -v else v), rest)
    | none => (readDecimal s).map fun (v, rest) => (.finite v, rest)

/-- `strtod (s, &end)`, before rounding: the numeral, and the text at `end`. -/
def strtod (s : List Char) : Numeral × List Char :=
  (readFloat (s.dropWhile isSpace)).getD (.finite 0, s)

/-- A text that is one floating-point numeral, white space in front of it included. -/
def IsFloat (s : List Char) (x : Numeral) : Prop := readFloat (s.dropWhile isSpace) = some (x, [])

/-- The empty text is no numeral. -/
theorem not_isFloat_nil {x : Numeral} : ¬ IsFloat [] x := by
  intro h
  have hnone : readFloat (([] : List Char).dropWhile isSpace) = none := rfl
  rw [IsFloat, hnone] at h
  exact absurd h (by simp)

/-- A numeral stands for one number. -/
theorem IsFloat.unique {s : List Char} {x y : Numeral} (h : IsFloat s x) (h' : IsFloat s y) :
    x = y :=
  (Prod.mk.inj (Option.some.inj (h.symm.trans h'))).1

/-- `strtod` on the empty text. -/
theorem strtod_nil : strtod [] = (.finite 0, []) := rfl

/-- `strtod` on a numeral. -/
theorem strtod_of_isFloat {s : List Char} {x : Numeral} (h : IsFloat s x) :
    strtod s = (x, []) := by
  unfold strtod
  rw [h, Option.getD_some]

/-- **`strtod` reads to the end** of a numeral, and of the empty text. -/
theorem strtod_snd_eq_nil_iff {s : List Char} :
    (strtod s).2 = [] ↔ s = [] ∨ ∃ x, IsFloat s x := by
  constructor
  · intro h
    unfold strtod at h
    cases hread : readFloat (s.dropWhile isSpace) with
    | none =>
        rw [hread, Option.getD_none] at h
        exact Or.inl h
    | some y =>
        obtain ⟨x, rest⟩ := y
        rw [hread, Option.getD_some] at h
        obtain rfl : rest = [] := h
        exact Or.inr ⟨x, hread⟩
  · rintro (rfl | ⟨x, hx⟩)
    · rfl
    · rw [strtod_of_isFloat hx]

end Strto
