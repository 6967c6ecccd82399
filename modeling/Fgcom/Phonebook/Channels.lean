import Fgcom.Phonebook.Lines
import Fgcom.Phonebook.Numbers

/-! # Frequencies and their aliases in whole kHz

The generator handles frequencies as texts. Here they are read as whole numbers of kHz:

* **`mhzText`** — the text of a frequency: MHz with three decimals. Every frequency the script
  reads is of this form (`comFrq_eq`, `fixedText_three`), and so is every alias it writes
  (`aliasFrqs_mhzText`).
* **`extension`** — the number of a code on a frequency. The extensions written for a base are
  those of the base and its aliases (`aliasExtensions_mhzText`). -/

namespace Fgcom.Phonebook

open DecimalText

/-! ## Texts of frequencies -/

/-- A frequency in MHz with three decimals. -/
def mhzText (m : ℕ) : List Char := Nat.toDigits 10 (m / 1000) ++ '.' :: padded 3 (m % 1000)

/-- A padded numeral is not empty. -/
theorem padded_three_ne_nil (n : ℕ) : padded 3 n ≠ [] := by
  intro h
  have hle := le_length_padded 3 n
  rw [h] at hle
  exact absurd hle (by decide)

/-- The text of a frequency is a plain numeral. -/
theorem isDecimal_mhzText (m : ℕ) : IsDecimal (mhzText m) :=
  ⟨false, Nat.toDigits 10 (m / 1000), padded 3 (m % 1000), Nat.toDigits_ne_nil,
    fun _ hc => Nat.isDigit_of_mem_toDigits (by decide) (by decide) hc, padded_three_ne_nil _,
    fun _ hc => isDigit_of_mem_padded hc, rfl⟩

/-- The value of the text of a frequency. -/
theorem atof_mhzText (m : ℕ) : atof (mhzText m) = (m : ℚ) / 1000 := by
  have hlen : (padded 3 (m % 1000)).length = 3 :=
    length_padded (by decide) (Nat.mod_lt m (by decide))
  have hvalue : Nat.ofDigitChars 10 (Nat.toDigits 10 (m / 1000) ++ padded 3 (m % 1000)) 0 = m := by
    rw [Nat.ofDigitChars_append, Nat.ofDigitChars_ten_toDigits,
      Nat.ofDigitChars_eq_ofDigitChars_zero, hlen, ofDigitChars_padded]
    omega
  have hparts : atof (mhzText m)
      = numeralValue false (Nat.toDigits 10 (m / 1000)) (padded 3 (m % 1000)) 0 :=
    @atof_parts false (Nat.toDigits 10 (m / 1000)) (padded 3 (m % 1000)) Nat.toDigits_ne_nil
      (fun _ hc => Nat.isDigit_of_mem_toDigits (by decide) (by decide) hc) (padded_three_ne_nil _)
      (fun _ hc => isDigit_of_mem_padded hc)
  -- three decimals: the digits' value is divided by 1000
  have hscale : (0 : ℤ) - ((3 : ℕ) : ℤ) = Int.negSucc 2 := rfl
  rw [hparts]
  unfold numeralValue
  simp only [hvalue, hlen, hscale, scale]
  norm_num

/-- The text of a frequency determines it. -/
theorem mhzText_injective : Function.Injective mhzText := by
  intro m n h
  have hvalue := congrArg atof h
  rw [atof_mhzText, atof_mhzText] at hvalue
  have hcast : (m : ℚ) = n := by linarith
  exact_mod_cast hcast

/-- Half a unit added to a whole number is rounded off again. -/
theorem floor_add_half (k : ℕ) : ⌊(k : ℚ) + 1 / 2⌋.toNat = k := by
  have hfloor : ⌊(k : ℚ) + 1 / 2⌋ = k := by
    rw [Int.floor_eq_iff]
    constructor
    · push_cast; linarith
    · push_cast; linarith
  rw [hfloor, Int.toNat_natCast]

/-- A text of at least three characters fills the width 3. -/
theorem leftpad_three {s : List Char} (h : 3 ≤ s.length) : s.leftpad 3 ' ' = s := by
  rw [List.leftpad, Nat.sub_eq_zero_of_le h]
  rfl

/-- `sprintf("%3.3f", n/100)`. -/
theorem fixedText_three (n : ℕ) : fixedText 3 3 ((n : ℚ) / 100) = mhzText (10 * n) := by
  have hcast : (n : ℚ) / 100 * ((10 ^ 3 : ℕ) : ℚ) = ((10 * n : ℕ) : ℚ) := by push_cast; ring
  unfold fixedText
  rw [hcast, floor_add_half]
  apply leftpad_three
  have hle := le_length_padded 3 (10 * n % 10 ^ 3)
  rw [List.length_append, List.length_cons]
  omega

/-- `sprintf("%3.2f5", n/100)`. -/
theorem fixedText_two (n : ℕ) :
    fixedText 3 2 ((n : ℚ) / 100) ++ ['5'] = mhzText (10 * n + 5) := by
  have hcast : (n : ℚ) / 100 * ((10 ^ 2 : ℕ) : ℚ) = (n : ℚ) := by push_cast; ring
  have hpad : (Nat.toDigits 10 (n / 10 ^ 2) ++ '.' :: padded 2 (n % 10 ^ 2)).leftpad 3 ' '
      = Nat.toDigits 10 (n / 10 ^ 2) ++ '.' :: padded 2 (n % 10 ^ 2) := by
    apply leftpad_three
    have hle := le_length_padded 2 (n % 10 ^ 2)
    rw [List.length_append, List.length_cons]
    omega
  have hint : (10 * n + 5) / 1000 = n / 10 ^ 2 := by omega
  have hfrac : (10 * n + 5) % 1000 / 10 = n % 10 ^ 2 := by omega
  have hlast : (10 * n + 5) % 1000 % 10 = 5 := by omega
  have hdigits : padded 3 ((10 * n + 5) % 1000) = padded 2 (n % 10 ^ 2) ++ ['5'] := by
    rw [padded_succ (by decide), hfrac, hlast]
    rfl
  unfold fixedText mhzText
  rw [hcast, floor_add_half]
  show (Nat.toDigits 10 (n / 10 ^ 2) ++ '.' :: padded 2 (n % 10 ^ 2)).leftpad 3 ' ' ++ ['5'] = _
  rw [hpad, hint, hdigits, List.append_assoc, List.cons_append]

/-- The last character of a digit text is the last digit of its value. -/
theorem getLast_eq_iff {freq : List Char} (hne : freq ≠ []) (hdigit : ∀ c ∈ freq, c.isDigit = true)
    (d : ℕ) (hd : d < 10) :
    freq.getLast? = some d.digitChar ↔ Nat.ofDigitChars 10 freq 0 % 10 = d := by
  obtain ⟨pre, c, rfl⟩ := (List.eq_nil_or_concat' freq).resolve_left hne
  have hc : 48 ≤ c.toNat ∧ c.toNat ≤ 57 := by
    have hc : c.isDigit = true := hdigit c (by simp)
    rw [Char.isDigit, Bool.and_eq_true, decide_eq_true_eq, decide_eq_true_eq] at hc
    exact hc
  have hvalue : Nat.ofDigitChars 10 (pre ++ [c]) 0 % 10 = c.toNat - 48 := by
    rw [Nat.ofDigitChars_append, Nat.ofDigitChars_cons, Nat.ofDigitChars_nil]
    show (10 * _ + (c.toNat - 48)) % 10 = _
    omega
  rw [hvalue, List.getLast?_concat, Option.some_inj, ← Char.toNat_inj,
    Nat.toNat_digitChar_of_lt_ten hd]
  omega

/-- **The key of a COM line**: the frequency of its five digits, plus 5 kHz behind a 2 or a 7. -/
theorem comFrq_eq {freq : List Char} (hlen : freq.length = 5)
    (hdigit : ∀ c ∈ freq, c.isDigit = true) :
    ∃ n, comFrq freq = mhzText (if n % 10 = 2 ∨ n % 10 = 7 then 10 * n + 5 else 10 * n) := by
  have hne : freq ≠ [] := by
    rintro rfl
    exact absurd hlen (by decide)
  refine ⟨Nat.ofDigitChars 10 freq 0, ?_⟩
  have h2 : freq.getLast? = some '2' ↔ Nat.ofDigitChars 10 freq 0 % 10 = 2 :=
    getLast_eq_iff hne hdigit 2 (by decide)
  have h7 : freq.getLast? = some '7' ↔ Nat.ofDigitChars 10 freq 0 % 10 = 7 :=
    getLast_eq_iff hne hdigit 7 (by decide)
  unfold comFrq
  simp only [h2, h7]
  split
  · exact fixedText_two _
  · exact fixedText_three _

/-- The three decimals of a frequency digit by digit. -/
theorem padded_three_eq (r : ℕ) :
    padded 3 r = padded 1 (r / 10 / 10) ++ [(r / 10 % 10).digitChar] ++ [(r % 10).digitChar] := by
  rw [padded_succ (by decide), padded_succ (by decide)]

/-- The last two digits of the text of a frequency. -/
theorem ssf_mhzText (m : ℕ) : ssf (mhzText m) = m % 100 := by
  have htext : ∃ x, mhzText m
      = x ++ [(m % 1000 / 10 % 10).digitChar, (m % 1000 % 10).digitChar] := by
    refine ⟨Nat.toDigits 10 (m / 1000) ++ '.' :: padded 1 (m % 1000 / 10 / 10), ?_⟩
    rw [mhzText, padded_three_eq, List.append_assoc, List.append_assoc]
    rfl
  obtain ⟨x, hx⟩ := htext
  unfold ssf
  rw [hx, List.length_append, List.length_cons, List.length_singleton, Nat.add_sub_cancel,
    List.drop_left, Nat.ofDigitChars_cons_digitChar_of_lt_ten (by omega),
    Nat.ofDigitChars_cons_digitChar_of_lt_ten (by omega), Nat.ofDigitChars_nil]
  omega

/-! ## Numbers in strings -/

/-- What a frequency prints as: its digits with the zeros at the end of the fraction cut off. -/
theorem perlNumber_eq (m : ℕ) :
    perlNumber ((m : ℚ) / 1000)
      = Nat.toDigits 10 (m / 1000)
        ++ if (padded 3 (m % 1000)).rdropWhile (· = '0') = [] then []
          else '.' :: (padded 3 (m % 1000)).rdropWhile (· = '0') := by
  have hfloor : ⌊(m : ℚ) / 1000 * 1000⌋.toNat = m := by
    have hcast : (m : ℚ) / 1000 * 1000 = ((m : ℕ) : ℚ) := by field_simp
    rw [hcast, Int.floor_natCast, Int.toNat_natCast]
  unfold perlNumber
  simp only [hfloor]

/-- A digit other than 0 is not printed as a 0. -/
theorem digitChar_ne_zero : ∀ d < 10, d ≠ 0 → ¬ decide (d.digitChar = '0') = true := by decide

/-- A frequency that is no multiple of 10 kHz is printed with three decimals. -/
theorem perlNumber_three {m : ℕ} (h : m % 10 ≠ 0) : perlNumber ((m : ℚ) / 1000) = mhzText m := by
  have hlast : ¬ decide ((m % 1000 % 10).digitChar = '0') = true :=
    digitChar_ne_zero _ (by omega) (by omega)
  have hkeep : (padded 3 (m % 1000)).rdropWhile (· = '0') = padded 3 (m % 1000) := by
    rw [padded_three_eq]
    exact List.rdropWhile_concat_neg _ _ _ hlast
  rw [perlNumber_eq, hkeep, if_neg (padded_three_ne_nil _)]
  rfl

/-- A multiple of 10 kHz that is no multiple of 100 kHz is printed with two decimals. -/
theorem perlNumber_two {m : ℕ} (h : m % 10 = 0) (h' : m % 100 ≠ 0) :
    perlNumber ((m : ℚ) / 1000) ++ ['0'] = mhzText m := by
  have hzero : m % 1000 % 10 = 0 := by omega
  have hlast : ¬ decide ((m % 1000 / 10 % 10).digitChar = '0') = true :=
    digitChar_ne_zero _ (by omega) (by omega)
  have hcut : (padded 3 (m % 1000)).rdropWhile (· = '0')
      = padded 1 (m % 1000 / 10 / 10) ++ [(m % 1000 / 10 % 10).digitChar] := by
    rw [padded_three_eq, hzero, List.rdropWhile_concat_pos _ _ _ (by decide)]
    exact List.rdropWhile_concat_neg _ _ _ hlast
  rw [perlNumber_eq, hcut, if_neg (by simp), mhzText, padded_three_eq, hzero, List.append_assoc]
  rfl

/-! ## Bases and aliases -/

/-- The aliases written for a base: 5 kHz above one ending in 00 or 50, 5 kHz above and below one
ending in 25 or 75. -/
def IsAlias (b k : ℕ) : Prop :=
  (b % 100 = 0 ∨ b % 100 = 50) ∧ k = b + 5 ∨
    (b % 100 = 25 ∨ b % 100 = 75) ∧ (k = b + 5 ∨ k + 5 = b)

/-- The number of a code on a frequency of `k` kHz. -/
def extension (code : List Char) (k : ℕ) : List Char :=
  "01".toList ++ icao2number code ++ Nat.toDigits 10 k

/-- The number the script writes for a whole number of kHz. -/
theorem radioNumber_natCast (code : List Char) (k : ℕ) :
    radioNumber code (k : ℚ) = extension code k := by
  rw [radioNumber, perlNumber_natCast]
  rfl

/-- The value of a frequency's text in kHz. -/
theorem atof_mhzText_mul (m : ℕ) : atof (mhzText m) * 1000 = (m : ℚ) := by
  rw [atof_mhzText]
  field_simp

/-- 5 kHz more, in MHz and in kHz. -/
theorem atof_mhzText_add (m : ℕ) :
    atof (mhzText m) + 5 / 1000 = ((m + 5 : ℕ) : ℚ) / 1000 ∧
      atof (mhzText m) * 1000 + 5 = ((m + 5 : ℕ) : ℚ) := by
  rw [atof_mhzText]
  constructor
  · push_cast; ring
  · push_cast; ring

/-- 5 kHz less, in MHz and in kHz. -/
theorem atof_mhzText_sub {m k : ℕ} (h : k + 5 = m) :
    atof (mhzText m) - 5 / 1000 = (k : ℚ) / 1000 ∧ atof (mhzText m) * 1000 - 5 = (k : ℚ) := by
  subst h
  rw [atof_mhzText]
  constructor
  · push_cast; ring
  · push_cast; ring

/-- The aliases of a base in the order of fgcom.conf. -/
def aliasKhz (b : ℕ) : List ℕ :=
  if b % 100 = 0 ∨ b % 100 = 50 then [b + 5]
  else if b % 100 = 25 ∨ b % 100 = 75 then [b - 5, b + 5]
  else []

theorem mem_aliasKhz {b k : ℕ} : k ∈ aliasKhz b ↔ IsAlias b k := by
  unfold aliasKhz IsAlias
  split
  · rw [List.mem_singleton]
    omega
  · split
    · rw [List.mem_cons, List.mem_singleton]
      omega
    · simp only [List.not_mem_nil, false_iff]
      omega

/-- **The aliases in positions.txt**, in the other order. -/
theorem aliasFrqs_mhzText (b : ℕ) : aliasFrqs (mhzText b) = (aliasKhz b).reverse.map mhzText := by
  have hup := (atof_mhzText_add b).1
  unfold aliasFrqs aliasKhz
  rw [ssf_mhzText, hup]
  by_cases h0 : b % 100 = 0 ∨ b % 100 = 50
  · -- only the alias above, with three decimals of its own
    have hthree : perlNumber (((b + 5 : ℕ) : ℚ) / 1000) = mhzText (b + 5) :=
      perlNumber_three (by omega)
    rw [if_pos h0, hthree]
    rcases h0 with h0 | h0
    · rw [if_pos h0]
      rfl
    · rw [if_neg (by omega), if_neg (by omega), if_pos h0]
      rfl
  · rw [if_neg h0]
    by_cases h25 : b % 100 = 25 ∨ b % 100 = 75
    · -- both aliases, with two decimals and a zero added
      have hdown := (atof_mhzText_sub (k := b - 5) (m := b) (by omega)).1
      have htwo : perlNumber (((b + 5 : ℕ) : ℚ) / 1000) ++ ['0'] = mhzText (b + 5) :=
        perlNumber_two (by omega) (by omega)
      have htwo' : perlNumber (((b - 5 : ℕ) : ℚ) / 1000) ++ ['0'] = mhzText (b - 5) :=
        perlNumber_two (by omega) (by omega)
      rw [if_pos h25, hdown, htwo, htwo']
      rcases h25 with h25 | h25
      · rw [if_neg (by omega), if_pos h25]
        rfl
      · rw [if_neg (by omega), if_neg (by omega), if_neg (by omega), if_pos h25]
        rfl
    · rw [if_neg h25, if_neg (by omega), if_neg (by omega), if_neg (by omega), if_neg (by omega)]
      rfl

/-- **The aliases in fgcom.conf**: each dials the extension of the base. -/
theorem aliasExtensions_mhzText (a : List Char) (b : ℕ) :
    aliasExtensions a (mhzText b)
      = (aliasKhz b).map fun k => ⟨extension a k, .first, .dialLocal (extension a b)⟩ := by
  have hup := (atof_mhzText_add b).2
  unfold aliasExtensions aliasKhz
  rw [ssf_mhzText, hup]
  simp only [atof_mhzText_mul, radioNumber_natCast]
  by_cases h0 : b % 100 = 0 ∨ b % 100 = 50
  · rw [if_pos h0]
    rcases h0 with h0 | h0
    · rw [if_pos h0]
      rfl
    · rw [if_neg (by omega), if_neg (by omega), if_pos h0]
      rfl
  · rw [if_neg h0]
    by_cases h25 : b % 100 = 25 ∨ b % 100 = 75
    · -- the number is made in kHz, so no decimals are lost
      have hdown : (b : ℚ) - 5 = ((b - 5 : ℕ) : ℚ) := by
        have hsub := (atof_mhzText_sub (k := b - 5) (m := b) (by omega)).2
        rwa [atof_mhzText_mul] at hsub
      rw [if_pos h25, hdown, radioNumber_natCast]
      rcases h25 with h25 | h25
      · rw [if_neg (by omega), if_pos h25]
        rfl
      · rw [if_neg (by omega), if_neg (by omega), if_neg (by omega), if_pos h25]
        rfl
    · rw [if_neg h25, if_neg (by omega), if_neg (by omega), if_neg (by omega), if_neg (by omega)]
      rfl

/-- The frequencies of the lines of positions.txt for a base: the base and its aliases. -/
theorem mem_airportPositions {a : List Char} {e : AptEntry} {b : ℕ} {type : List Char}
    {p : PosLine} :
    p ∈ airportPositions a e (mhzText b) type ↔
      ∃ k, (k = b ∨ IsAlias b k) ∧ p = ⟨a, mhzText k, e.lat, e.lon, type, e.text⟩ := by
  unfold airportPositions
  rw [aliasFrqs_mhzText, ← List.map_cons, List.map_map, List.mem_map]
  constructor
  · rintro ⟨k, hk, rfl⟩
    rw [List.mem_cons, List.mem_reverse, mem_aliasKhz] at hk
    exact ⟨k, hk, rfl⟩
  · rintro ⟨k, hk, rfl⟩
    refine ⟨k, ?_, rfl⟩
    rw [List.mem_cons, List.mem_reverse, mem_aliasKhz]
    exact hk

end Fgcom.Phonebook
