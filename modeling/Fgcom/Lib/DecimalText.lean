import Mathlib.Algebra.Order.Ring.Rat
import Mathlib.Tactic.Ring
import Mathlib.Tactic.FieldSimp
import Mathlib.Tactic.Linarith

/-! # Decimal numerals as text

Writing and reading numbers the way `printf` and `strtod` do, over character lists and with exact
values:

* **`padded w n`** — `%0wd` of a natural number, and **`printfD w z`** — `%0wd` of an integer. For
  numbers of at most `w` digits the field is exactly `w` wide and determines the number.
* **`readDecimal`** — the longest numeral at the front of a text (sign, digits, fraction, exponent),
  with its exact rational value and the text behind it; **`atof`** skips blanks first and reads `0`
  where no numeral stands.
* **`IsDecimal`** — the plain numerals `-?d+.d+`; reading one back off the front of a text consumes
  exactly the numeral (`readDecimal_append`). -/

namespace DecimalText

/-! ## Writing -/

/-- `%0wd` of a natural number: its decimal digits, padded on the left with zeros to width `w`. -/
def padded (w n : ℕ) : List Char := (Nat.toDigits 10 n).leftpad w '0'

/-- `%0wd` of an integer: the sign counts towards the width. -/
def printfD (w : ℕ) : ℤ → List Char
  | .ofNat n => padded w n
  | .negSucc n => '-' :: padded (w - 1) (n + 1)

@[simp] theorem printfD_natCast (w n : ℕ) : printfD w (n : ℤ) = padded w n := rfl

/-- A padded numeral is zeros followed by the plain digits. -/
theorem padded_eq (w n : ℕ) :
    padded w n = List.replicate (w - (Nat.toDigits 10 n).length) '0' ++ Nat.toDigits 10 n := rfl

/-- The value of a padded numeral is the number written. -/
@[simp] theorem ofDigitChars_padded (w n : ℕ) : Nat.ofDigitChars 10 (padded w n) 0 = n := by
  rw [padded_eq, Nat.ofDigitChars_append, Nat.ofDigitChars_replicate_zero, Nat.mul_zero,
    Nat.ofDigitChars_ten_toDigits]

/-- Padding never merges two numbers. -/
theorem padded_injective (w : ℕ) : Function.Injective (padded w) := by
  intro m n h
  rw [← ofDigitChars_padded w m, h, ofDigitChars_padded]

/-- As many digits as places: the value stays below the power of ten. -/
theorem ofDigitChars_lt {s : List Char} (hs : ∀ c ∈ s, c.isDigit = true) :
    Nat.ofDigitChars 10 s 0 < 10 ^ s.length := by
  induction s with
  | nil => simp
  | cons c s ih =>
      have hrest : Nat.ofDigitChars 10 s 0 < 10 ^ s.length :=
        ih fun d hd => hs d (List.mem_cons_of_mem c hd)
      have hdigit : c.toNat - '0'.toNat ≤ 9 := by
        have hc := hs c List.mem_cons_self
        rw [Char.isDigit_iff_toNat] at hc
        have h0 : '0'.toNat = 48 := rfl
        have h9 : '9'.toNat = 57 := rfl
        omega
      rw [Nat.ofDigitChars_cons, Nat.ofDigitChars_eq_ofDigitChars_zero, List.length_cons, pow_succ,
        Nat.mul_zero, Nat.zero_add]
      calc 10 ^ s.length * (c.toNat - '0'.toNat) + Nat.ofDigitChars 10 s 0
          < 10 ^ s.length * (c.toNat - '0'.toNat) + 10 ^ s.length := Nat.add_lt_add_left hrest _
        _ = 10 ^ s.length * (c.toNat - '0'.toNat + 1) := by ring
        _ ≤ 10 ^ s.length * 10 := Nat.mul_le_mul_left _ (by omega)

/-- A number of at most `w` digits fills the field exactly. -/
theorem length_padded {w n : ℕ} (hw : 0 < w) (hn : n < 10 ^ w) : (padded w n).length = w := by
  have hle : (Nat.toDigits 10 n).length ≤ w := (Nat.length_toDigits_le_iff (by decide) hw).mpr hn
  rw [padded_eq, List.length_append, List.length_replicate]
  omega

/-- A padded numeral is never narrower than its field. -/
theorem le_length_padded (w n : ℕ) : w ≤ (padded w n).length := by
  rw [padded_eq, List.length_append, List.length_replicate]
  omega

/-- The characters of a padded numeral are digits. -/
theorem isDigit_of_mem_padded {w n : ℕ} {c : Char} (hc : c ∈ padded w n) : c.isDigit = true := by
  rw [padded_eq, List.mem_append] at hc
  rcases hc with hc | hc
  · rw [List.eq_of_mem_replicate hc]; decide
  · exact Nat.isDigit_of_mem_toDigits (by decide) (by decide) hc

/-- A number with a digit in every place of the field needs no padding. -/
theorem padded_eq_toDigits {w n : ℕ} (hn : 10 ^ w ≤ n) :
    padded (w + 1) n = Nat.toDigits 10 n := by
  have hlt : ¬ (Nat.toDigits 10 n).length ≤ w := by
    intro hle
    rcases Nat.eq_zero_or_pos w with rfl | hw
    · exact absurd (List.length_eq_zero_iff.mp (Nat.le_zero.mp hle)) Nat.toDigits_ne_nil
    · exact absurd ((Nat.length_toDigits_le_iff (by decide) hw).mp hle) (by omega)
  rw [padded_eq, show w + 1 - (Nat.toDigits 10 n).length = 0 by omega]
  rfl

/-- The last digit of a padded numeral. -/
theorem padded_succ {w : ℕ} (hw : 0 < w) (n : ℕ) :
    padded (w + 1) n = padded w (n / 10) ++ [(n % 10).digitChar] := by
  rw [padded_eq, padded_eq]
  rcases Nat.lt_or_ge n 10 with hn | hn
  · -- one digit: all but the last place are padding
    obtain ⟨v, rfl⟩ : ∃ v, w = v + 1 := ⟨w - 1, by omega⟩
    rw [Nat.div_eq_of_lt hn, Nat.mod_eq_of_lt hn, Nat.toDigits_of_lt_base hn, Nat.toDigits_zero,
      List.length_singleton, List.length_singleton, Nat.add_sub_cancel, Nat.add_sub_cancel,
      List.replicate_succ', List.append_assoc]
  · rw [Nat.toDigits_of_base_le (by decide) hn, List.length_append, List.length_singleton,
      Nat.add_sub_add_right, List.append_assoc]

/-- Numerals of one width written one after the other: the shorter of two lists with a common text
is the front of the other. -/
theorem flatMap_padded_prefix {w : ℕ} (hw : 0 < w) {s t : List ℕ} {u v : List Char}
    (hs : ∀ n ∈ s, n < 10 ^ w) (ht : ∀ n ∈ t, n < 10 ^ w) (hlen : s.length ≤ t.length)
    (h : s.flatMap (padded w) ++ u = t.flatMap (padded w) ++ v) :
    ∃ r, t = s ++ r ∧ u = r.flatMap (padded w) ++ v := by
  induction s generalizing t with
  | nil => exact ⟨t, rfl, h⟩
  | cons a s ih =>
      cases t with
      | nil => exact absurd hlen (by simp)
      | cons b t =>
          rw [List.flatMap_cons, List.flatMap_cons, List.append_assoc, List.append_assoc] at h
          have hwidth : (padded w a).length = (padded w b).length := by
            rw [length_padded hw (hs a List.mem_cons_self),
              length_padded hw (ht b List.mem_cons_self)]
          obtain ⟨hab, hrest⟩ := List.append_inj h hwidth
          obtain rfl := padded_injective w hab
          obtain ⟨r, rfl, hu⟩ := ih (fun n hn => hs n (List.mem_cons_of_mem a hn))
            (fun n hn => ht n (List.mem_cons_of_mem a hn)) (Nat.le_of_succ_le_succ hlen) hrest
          exact ⟨r, rfl, hu⟩

/-- Numerals of one width fill their places. -/
theorem length_flatMap_padded {w : ℕ} (hw : 0 < w) {s : List ℕ} (hs : ∀ n ∈ s, n < 10 ^ w) :
    (s.flatMap (padded w)).length = s.length * w := by
  rw [List.length_flatMap]
  have hmap : s.map (fun n => (padded w n).length) = s.map fun _ => w :=
    List.map_congr_left fun n hn => length_padded hw (hs n hn)
  rw [hmap, List.map_const', List.sum_replicate_nat]

/-- A padded numeral is at least as wide as its field, also behind a sign. -/
theorem le_length_printfD (w : ℕ) (z : ℤ) : w ≤ (printfD w z).length := by
  cases z with
  | ofNat n => exact le_length_padded w n
  | negSucc n =>
      have := le_length_padded (w - 1) (n + 1)
      simp only [printfD, List.length_cons]
      omega

/-! ## Reading -/

/-- The blanks `isspace` accepts in the C locale. -/
def isSpace (c : Char) : Bool :=
  c = ' ' || c = '\t' || c = '\n' || c = '\x0b' || c = '\x0c' || c = '\r'

/-- An optional sign: whether it was a minus, and the text behind it. -/
def readSign : List Char → Bool × List Char
  | '-' :: s => (true, s)
  | '+' :: s => (false, s)
  | s => (false, s)

/-- An optional fraction: its digits and the text behind them. -/
def readFraction : List Char → List Char × List Char
  | '.' :: s => (s.takeWhile Char.isDigit, s.dropWhile Char.isDigit)
  | s => ([], s)

/-- An optional exponent: its value and the text behind it. A letter `e` with no digits after it
belongs to the text behind the numeral. -/
def readExponent (s : List Char) : ℤ × List Char :=
  match s with
  | c :: t =>
      if c = 'e' ∨ c = 'E' then
        let (neg, u) := readSign t
        let ds := u.takeWhile Char.isDigit
        if ds = [] then (0, s)
        else
          let n : ℤ := Nat.ofDigitChars 10 ds 0
          (if neg then -n else n, u.dropWhile Char.isDigit)
      else (0, s)
  | [] => (0, s)

/-- `v · 10 ^ e` for an integer exponent. -/
def scale (v : ℚ) : ℤ → ℚ
  | .ofNat n => v * ((10 ^ n : ℕ) : ℚ)
  | .negSucc n => v / ((10 ^ (n + 1) : ℕ) : ℚ)

/-- The value of a numeral from its parts. -/
def numeralValue (neg : Bool) (int frac : List Char) (e : ℤ) : ℚ :=
  let m : ℚ := scale (Nat.ofDigitChars 10 (int ++ frac) 0 : ℕ) (e - frac.length)
  if neg then -m else m

/-- The decimal numeral at the front of a text: its exact value and the text behind it, or `none`
when no digit stands there. -/
def readDecimal (s : List Char) : Option (ℚ × List Char) :=
  let (neg, s) := readSign s
  let int := s.takeWhile Char.isDigit
  let (frac, s) := readFraction (s.dropWhile Char.isDigit)
  if int = [] ∧ frac = [] then none
  else
    let (e, rest) := readExponent s
    some (numeralValue neg int frac e, rest)

theorem readSign_suffix (s : List Char) : (readSign s).2 <:+ s := by
  unfold readSign
  split
  · exact List.suffix_cons _ _
  · exact List.suffix_cons _ _
  · exact List.suffix_refl _

theorem readFraction_suffix (s : List Char) : (readFraction s).2 <:+ s := by
  unfold readFraction
  split
  · exact (List.dropWhile_suffix _).trans (List.suffix_cons _ _)
  · exact List.suffix_refl _

theorem readExponent_suffix (s : List Char) : (readExponent s).2 <:+ s := by
  unfold readExponent
  split
  · rename_i c t
    split
    · simp only
      split
      · exact List.suffix_refl _
      · exact ((List.dropWhile_suffix _).trans (readSign_suffix t)).trans (List.suffix_cons c t)
    · exact List.suffix_refl _
  · exact List.suffix_refl _

/-- What stands behind a numeral is the end of the text. -/
theorem readDecimal_suffix {s rest : List Char} {q : ℚ} (h : readDecimal s = some (q, rest)) :
    rest <:+ s := by
  unfold readDecimal at h
  simp only at h
  split at h
  · exact absurd h (by simp)
  · obtain ⟨-, rfl⟩ := Prod.mk.inj (Option.some.inj h)
    exact (((readExponent_suffix _).trans (readFraction_suffix _)).trans
      (List.dropWhile_suffix _)).trans (readSign_suffix s)

/-- `atof`: the value of the numeral behind leading blanks, `0` when there is none. -/
def atof (s : List Char) : ℚ :=
  match readDecimal (s.dropWhile isSpace) with
  | some (v, _) => v
  | none => 0

/-- Scaling keeps the sign. -/
theorem scale_nonneg {v : ℚ} (hv : 0 ≤ v) (e : ℤ) : 0 ≤ scale v e := by
  cases e with
  | ofNat n => exact mul_nonneg hv (Nat.cast_nonneg _)
  | negSucc n => exact div_nonneg hv (Nat.cast_nonneg _)

/-- Without a sign in front a value is not negative. -/
theorem atof_nonneg {c : Char} {t : List Char} (hc : c.isDigit = true) : 0 ≤ atof (c :: t) := by
  have hspace : isSpace c = false := by
    rw [Bool.eq_false_iff]
    intro h
    simp only [isSpace, Bool.or_eq_true, decide_eq_true_eq] at h
    rcases h with ((((rfl | rfl) | rfl) | rfl) | rfl) | rfl <;> revert hc <;> decide
  have hsign : readSign (c :: t) = (false, c :: t) := by
    have h1 : c ≠ '-' := by rintro rfl; exact absurd hc (by decide)
    have h2 : c ≠ '+' := by rintro rfl; exact absurd hc (by decide)
    rw [readSign]
    · exact fun s h => h1 (List.cons.inj h).1
    · exact fun s h => h2 (List.cons.inj h).1
  rw [atof, List.dropWhile_cons_of_neg (by simp [hspace])]
  cases hread : readDecimal (c :: t) with
  | none => exact le_rfl
  | some x =>
      unfold readDecimal at hread
      rw [hsign] at hread
      simp only at hread
      split at hread
      · exact absurd hread (by simp)
      · obtain rfl := Option.some.inj hread
        exact scale_nonneg (Nat.cast_nonneg _) _

/-! ## Plain numerals -/

/-- The plain numerals `-?d+.d+`. -/
def IsDecimal (s : List Char) : Prop :=
  ∃ (neg : Bool) (int frac : List Char),
    int ≠ [] ∧ (∀ c ∈ int, c.isDigit = true) ∧ frac ≠ [] ∧ (∀ c ∈ frac, c.isDigit = true) ∧
      s = (if neg then ['-'] else []) ++ int ++ '.' :: frac

/-- A text that a numeral can end before: it goes on with neither a digit nor an exponent letter. -/
def EndsNumeral (rest : List Char) : Prop :=
  ∀ c ∈ rest.head?, c.isDigit = false ∧ c ≠ 'e' ∧ c ≠ 'E'

@[simp] theorem endsNumeral_nil : EndsNumeral [] := by simp [EndsNumeral]

theorem endsNumeral_cons {c : Char} {rest : List Char}
    (hd : c.isDigit = false) (he : c ≠ 'e') (hE : c ≠ 'E') : EndsNumeral (c :: rest) := by
  simp [EndsNumeral, hd, he, hE]

/-- A digit run is taken off the front of any text that does not go on with a digit. -/
theorem takeWhile_digits {ds : List Char} (rest : List Char) (hds : ∀ c ∈ ds, c.isDigit = true)
    (hrest : ∀ c ∈ rest.head?, c.isDigit = false) :
    (ds ++ rest).takeWhile Char.isDigit = ds ∧ (ds ++ rest).dropWhile Char.isDigit = rest := by
  have hr : rest.takeWhile Char.isDigit = [] ∧ rest.dropWhile Char.isDigit = rest := by
    cases rest with
    | nil => simp
    | cons c t => simp [hrest c (by simp)]
  rw [List.takeWhile_append_of_pos hds, List.dropWhile_append_of_pos hds, hr.1, hr.2,
    List.append_nil]
  exact ⟨rfl, rfl⟩

/-- Where a numeral can end there is no exponent. -/
theorem readExponent_of_endsNumeral {rest : List Char} (h : EndsNumeral rest) :
    readExponent rest = (0, rest) := by
  cases rest with
  | nil => rfl
  | cons c t =>
      obtain ⟨-, he, hE⟩ := h c (by simp)
      simp [readExponent, he, hE]

/-- A digit is not a sign. -/
theorem readSign_digits {ds : List Char} (rest : List Char) (hne : ds ≠ [])
    (hds : ∀ c ∈ ds, c.isDigit = true) :
    readSign (ds ++ rest) = (false, ds ++ rest) := by
  cases ds with
  | nil => exact absurd rfl hne
  | cons c t =>
      have hc : c.isDigit = true := hds c (by simp)
      have h1 : c ≠ '-' := by rintro rfl; exact absurd hc (by decide)
      have h2 : c ≠ '+' := by rintro rfl; exact absurd hc (by decide)
      rw [List.cons_append, readSign]
      · exact fun s h => h1 (List.cons.inj h).1
      · exact fun s h => h2 (List.cons.inj h).1

/-- **Reading a plain numeral back.** Off the front of a text that can end a numeral,
`readDecimal` takes exactly the numeral, with the value of its parts. -/
theorem readDecimal_parts (neg : Bool) {int frac rest : List Char}
    (hint : int ≠ []) (hintd : ∀ c ∈ int, c.isDigit = true)
    (hfracd : ∀ c ∈ frac, c.isDigit = true) (hrest : EndsNumeral rest) :
    readDecimal ((if neg then ['-'] else []) ++ int ++ '.' :: frac ++ rest)
      = some (numeralValue neg int frac 0, rest) := by
  have hsign : readSign ((if neg then ['-'] else []) ++ int ++ '.' :: frac ++ rest)
      = (neg, int ++ '.' :: (frac ++ rest)) := by
    cases neg with
    | true => simp [readSign]
    | false => simpa using readSign_digits ('.' :: (frac ++ rest)) hint hintd
  have hi := takeWhile_digits ('.' :: (frac ++ rest)) hintd (by simp)
  have hf := takeWhile_digits rest hfracd (fun c hc => (hrest c hc).1)
  rw [readDecimal, hsign]
  simp only [hi.1, hi.2, readFraction, hf.1, hf.2, readExponent_of_endsNumeral hrest, hint,
    false_and, if_false]

/-- A plain numeral starts with neither a blank nor anything `atof` would skip. -/
theorem dropWhile_isSpace_append {s : List Char} (hs : IsDecimal s) (rest : List Char) :
    (s ++ rest).dropWhile isSpace = s ++ rest := by
  obtain ⟨neg, int, frac, hint, hintd, -, -, rfl⟩ := hs
  cases neg with
  | true => rfl
  | false =>
      cases int with
      | nil => exact absurd rfl hint
      | cons c t =>
          have hc : c.isDigit = true := hintd c (by simp)
          have : isSpace c = false := by
            rw [Bool.eq_false_iff]
            intro h
            simp only [isSpace, Bool.or_eq_true, decide_eq_true_eq] at h
            rcases h with ((((rfl | rfl) | rfl) | rfl) | rfl) | rfl <;> revert hc <;> decide
          simp [this]

/-- The value `atof` gives a plain numeral. -/
theorem atof_parts {neg : Bool} {int frac : List Char}
    (hint : int ≠ []) (hintd : ∀ c ∈ int, c.isDigit = true)
    (hfrac : frac ≠ []) (hfracd : ∀ c ∈ frac, c.isDigit = true) :
    atof ((if neg then ['-'] else []) ++ int ++ '.' :: frac) = numeralValue neg int frac 0 := by
  have hdrop := dropWhile_isSpace_append ⟨neg, int, frac, hint, hintd, hfrac, hfracd, rfl⟩ []
  have hread := readDecimal_parts neg hint hintd hfracd endsNumeral_nil
  rw [List.append_nil] at hdrop hread
  rw [atof, hdrop, hread]

/-- **A plain numeral is read off the front of a text whole**, with the value `atof` gives it. -/
theorem readDecimal_append {s rest : List Char} (hs : IsDecimal s) (hrest : EndsNumeral rest) :
    readDecimal (s ++ rest) = some (atof s, rest) := by
  obtain ⟨neg, int, frac, hint, hintd, hfrac, hfracd, rfl⟩ := hs
  rw [readDecimal_parts neg hint hintd hfracd hrest, atof_parts hint hintd hfrac hfracd]

end DecimalText
