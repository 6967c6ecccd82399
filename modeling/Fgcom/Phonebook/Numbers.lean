import Fgcom.Phonebook.Output
import Fgcom.Position

/-! # Station numbers on both sides

The client builds the number of a station from its code and frequency with `sprintf`, the generator
with a padding loop and string concatenation. For codes of at most four of the characters
`[A-Z0-9]` and frequencies of six digits in kHz both build the same 16 digits (`stationNumber_eq`),
and different stations get different numbers (`radioNumber_inj`). -/

namespace Fgcom

open DecimalText Phonebook

/-! ## Codes and frequencies -/

/-- A station code: one to four characters of `[A-Z0-9]`. -/
abbrev StationCode : Type :=
  {s : List Char // s ≠ [] ∧ s.length ≤ 4 ∧ ∀ c ∈ s, codeChar c = true}

/-- A frequency of six digits in kHz. -/
abbrev SixDigitKhz : Type := {k : ℕ // 100000 ≤ k ∧ k ≤ 999999}

/-- A station code as the client holds it. -/
def StationCode.cstr (c : StationCode) : CStr 4 := ⟨c.val, c.property.2.1⟩

/-- The number of a code character has two digits. -/
theorem toNat_of_codeChar {c : Char} (h : codeChar c = true) : 48 ≤ c.toNat ∧ c.toNat < 91 := by
  have hupper : c.isUpper = decide (c.val ≥ 'A'.val ∧ c.val ≤ 'Z'.val) := rfl
  rw [codeChar, Bool.or_eq_true, hupper, Char.isDigit] at h
  simp only [Bool.and_eq_true, decide_eq_true_eq, ge_iff_le, UInt32.le_iff_toNat_le] at h
  show 48 ≤ c.val.toNat ∧ c.val.toNat < 91
  have h0 : '0'.val.toNat = 48 := rfl
  have h9 : '9'.val.toNat = 57 := rfl
  have hA : 'A'.val.toNat = 65 := rfl
  have hZ : 'Z'.val.toNat = 90 := rfl
  omega

/-- A code character is not a blank. -/
theorem ne_space_of_codeChar {c : Char} (h : codeChar c = true) : c ≠ ' ' := by
  rintro rfl
  exact absurd h (by decide)

/-- The characters of a padded code have numbers of two digits. -/
theorem toNat_lt_of_mem_leftpad {s : List Char} (hs : ∀ c ∈ s, codeChar c = true) :
    ∀ n ∈ (s.leftpad 4 ' ').map Char.toNat, n < 10 ^ 2 := by
  intro n hn
  obtain ⟨c, hc, rfl⟩ := List.mem_map.mp hn
  rw [List.leftpad, List.mem_append] at hc
  rcases hc with hc | hc
  · rw [List.eq_of_mem_replicate hc]
    decide
  · have := toNat_of_codeChar (hs c hc)
    omega

/-- Padding loses nothing of a code. -/
theorem leftpad_inj {s t : List Char} (hs : ∀ c ∈ s, codeChar c = true)
    (ht : ∀ c ∈ t, codeChar c = true) (h : s.leftpad 4 ' ' = t.leftpad 4 ' ') : s = t := by
  have hdrop : ∀ u : List Char, (∀ c ∈ u, codeChar c = true) →
      (u.leftpad 4 ' ').dropWhile (· = ' ') = u := by
    intro u hu
    rw [List.leftpad, List.dropWhile_append_of_pos (by simp +contextual)]
    cases u with
    | nil => rfl
    | cons c u => simp [ne_space_of_codeChar (hu c List.mem_cons_self)]
  rw [← hdrop s hs, h, hdrop t ht]

/-- The generator's text of a code as numerals of two digits. -/
theorem phonebook_icao2number_eq (s : List Char) :
    Phonebook.icao2number s = ((s.leftpad 4 ' ').map Char.toNat).flatMap (padded 2) := by
  rw [Phonebook.icao2number, List.flatMap_map]

/-- The generator's text of a code of at most four characters has eight digits. -/
theorem length_phonebook_icao2number {s : List Char} (hlen : s.length ≤ 4)
    (hs : ∀ c ∈ s, codeChar c = true) : (Phonebook.icao2number s).length = 8 := by
  rw [phonebook_icao2number_eq, length_flatMap_padded (by decide) (toNat_lt_of_mem_leftpad hs),
    List.length_map, List.length_leftpad]
  omega

/-- The client prints the characters of a code like the generator. -/
theorem flatMap_printfD_eq {s : List Char} (hs : ∀ c ∈ s, codeChar c = true) :
    ((s.leftpad 4 ' ').flatMap fun c => printfD 2 (schar c)) = Phonebook.icao2number s := by
  unfold Phonebook.icao2number
  apply List.flatMap_congr
  intro c hc
  have hlt := toNat_lt_of_mem_leftpad hs c.toNat (List.mem_map_of_mem hc)
  rw [schar, if_pos (by omega), printfD_natCast]

/-! ## Frequencies as texts -/

/-- A whole number is printed as its digits. -/
theorem perlNumber_natCast (k : ℕ) : perlNumber (k : ℚ) = Nat.toDigits 10 k := by
  have hfloor : ⌊(k : ℚ) * 1000⌋.toNat = k * 1000 := by
    have hcast : (k : ℚ) * 1000 = ((k * 1000 : ℕ) : ℚ) := by push_cast; ring
    rw [hcast, Int.floor_natCast, Int.toNat_natCast]
  have hzero : (padded 3 0).rdropWhile (· = '0') = [] := by decide
  unfold perlNumber
  simp only [hfloor, Nat.mul_mod_left, hzero, if_true, List.append_nil,
    Nat.mul_div_cancel k (by decide : 0 < 1000)]

/-- The kHz of an exact frequency. -/
theorem khzOfFloat_exact (k : ℕ) : khzOfFloat ((k : ℚ) / 1000) = k := by
  have hmul : (k : ℚ) / 1000 * 1000 = k := by field_simp
  rw [khzOfFloat, toFloat_exact, lit_exact, lit_exact, mul_exact, add_exact, toInt_exact, hmul,
    truncate_add_half]

/-- **Client and generator agree on the number** of a code on a frequency of six digits. -/
theorem stationNumber_eq (n : ℕ) (c : StationCode) {k : ℕ} (hk : 100000 ≤ k ∧ k ≤ 999999)
    (hn : n < 100) :
    (stationNumber n c.cstr ((k : ℚ) / 1000)).2
      = padded 2 n ++ Phonebook.icao2number c.val ++ Nat.toDigits 10 k := by
  obtain ⟨hne, hlen, hchars⟩ := c.property
  have hcode : c.cstr.val.length ≠ 0 := fun h => hne (List.length_eq_zero_iff.mp h)
  have hdigits : padded 6 k = Nat.toDigits 10 k := padded_eq_toDigits (by omega)
  have hlength : (padded 2 n ++ Phonebook.icao2number c.val ++ padded 6 k).length = 16 := by
    rw [List.length_append, List.length_append, length_padded (by decide) (by omega),
      length_phonebook_icao2number hlen hchars, length_padded (by decide) (by omega)]
  unfold stationNumber
  rw [toFloat_exact, if_neg hcode]
  show (printfD 2 (n : ℤ) ++ (c.val.leftpad 4 ' ').flatMap (fun c => printfD 2 (schar c))
    ++ printfD 6 (khzOfFloat ((k : ℚ) / 1000))).take 16 = _
  rw [khzOfFloat_exact, printfD_natCast, printfD_natCast, flatMap_printfD_eq hchars,
    List.take_of_length_le hlength.le, hdigits]

/-! ## Different stations, different numbers -/

/-- A six-digit number below 200000 starts with a 1. -/
theorem head_toDigits {k : ℕ} (hk : 100000 ≤ k ∧ k < 200000) :
    ∃ u, Nat.toDigits 10 k = '1' :: u := by
  have hlead : k / 10 / 10 / 10 / 10 / 10 = 1 := by omega
  have hone : padded 1 1 = ['1'] := by decide
  have hdigits : padded 6 k = Nat.toDigits 10 k := padded_eq_toDigits (by omega)
  rw [← hdigits, padded_succ (by decide), padded_succ (by decide), padded_succ (by decide),
    padded_succ (by decide), padded_succ (by decide), hlead, hone]
  exact ⟨_, rfl⟩

/-- Behind a code of at most four characters, the text of a longer code goes on with the two digits
of a code character, the first of them at least a 4. -/
theorem icao2number_prefix {a b u v : List Char} (ha : a.length ≤ 4)
    (hac : ∀ c ∈ a, codeChar c = true) (hbc : ∀ c ∈ b, codeChar c = true)
    (h : Phonebook.icao2number a ++ u = Phonebook.icao2number b ++ v) :
    a = b ∧ u = v ∨ 4 < b.length ∧ ∃ d w, u = d :: w ∧ d ≠ '1' := by
  rw [phonebook_icao2number_eq, phonebook_icao2number_eq] at h
  have hlen : ((a.leftpad 4 ' ').map Char.toNat).length
      ≤ ((b.leftpad 4 ' ').map Char.toNat).length := by
    rw [List.length_map, List.length_map, List.length_leftpad, List.length_leftpad]
    omega
  obtain ⟨r, hr, hu⟩ := flatMap_padded_prefix (by decide) (toNat_lt_of_mem_leftpad hac)
    (toNat_lt_of_mem_leftpad hbc) hlen h
  cases r with
  | nil =>
      rw [List.append_nil] at hr
      have hinj : Function.Injective Char.toNat := fun c d h => by
        rw [← Char.ofNat_toNat c, h, Char.ofNat_toNat]
      have hpad : b.leftpad 4 ' ' = a.leftpad 4 ' ' := List.map_injective_iff.mpr hinj hr
      exact Or.inl ⟨leftpad_inj hac hbc hpad.symm, hu⟩
  | cons m r =>
      have hlong : 4 < b.length := by
        have := congrArg List.length hr
        rw [List.length_append, List.length_map, List.length_map, List.length_leftpad,
          List.length_leftpad, List.length_cons] at this
        omega
      -- the character behind the first four belongs to the code and not to its padding
      have hm : m ∈ b.map Char.toNat := by
        have hpad : b.leftpad 4 ' ' = b := by
          rw [List.leftpad, Nat.sub_eq_zero_of_le hlong.le]
          rfl
        rw [hpad] at hr
        rw [hr]
        simp
      obtain ⟨c, hc, rfl⟩ := List.mem_map.mp hm
      have hrange := toNat_of_codeChar (hbc c hc)
      have hfirst : ∀ n < 91, 48 ≤ n → ∃ d e, padded 2 n = [d, e] ∧ d ≠ '1' := by
        intro n hn hn'
        have hall : ∀ n < 91, 48 ≤ n → (padded 2 n).length = 2 ∧ (padded 2 n).head? ≠ some '1' := by
          decide
        obtain ⟨h2, hne⟩ := hall n hn hn'
        obtain ⟨d, e, hde⟩ := List.length_eq_two.mp h2
        rw [hde] at hne
        exact ⟨d, e, hde, fun hd => hne (by rw [hd]; rfl)⟩
      obtain ⟨d, e, hde, hd⟩ := hfirst c.toNat hrange.2 hrange.1
      refine Or.inr ⟨hlong, d, e :: (r.flatMap (padded 2) ++ v), ?_, hd⟩
      rw [hu, List.flatMap_cons, hde]
      rfl

/-- Among codes of at most four characters the number determines the code and the frequency. -/
theorem icao2number_append_inj {a b u v : List Char} (ha : a.length ≤ 4)
    (hac : ∀ c ∈ a, codeChar c = true) (hb : b.length ≤ 4) (hbc : ∀ c ∈ b, codeChar c = true)
    (h : Phonebook.icao2number a ++ u = Phonebook.icao2number b ++ v) : a = b ∧ u = v := by
  rcases icao2number_prefix ha hac hbc h with heq | ⟨hlong, -⟩
  · exact heq
  · omega

/-- The digits of a number determine it. -/
theorem toDigits_inj {k m : ℕ} (h : Nat.toDigits 10 k = Nat.toDigits 10 m) : k = m := by
  rw [← Nat.ofDigitChars_ten_toDigits (n := k), h, Nat.ofDigitChars_ten_toDigits]

/-- Different stations have different numbers, whatever the prefix. -/
theorem stationNumber_injective {n : ℕ} (hn : n < 100) :
    Function.Injective fun p : StationCode × SixDigitKhz =>
      (stationNumber n p.1.cstr ((p.2.val : ℚ) / 1000)).2 := by
  rintro ⟨c, k⟩ ⟨c', k'⟩ h
  simp only [stationNumber_eq n c k.property hn, stationNumber_eq n c' k'.property hn] at h
  rw [List.append_assoc, List.append_assoc, List.append_cancel_left_eq] at h
  obtain ⟨hcode, hkhz⟩ := icao2number_append_inj c.property.2.1 c.property.2.2 c'.property.2.1
    c'.property.2.2 h
  rw [Prod.mk.injEq]
  exact ⟨Subtype.ext hcode, Subtype.ext (toDigits_inj hkhz)⟩

/-- Every character of a station's number is a digit. -/
theorem isDigit_of_mem_stationNumber {n : ℕ} (hn : n < 100) (c : StationCode) (k : SixDigitKhz)
    {d : Char} (hd : d ∈ (stationNumber n c.cstr ((k.val : ℚ) / 1000)).2) : d.isDigit = true := by
  rw [stationNumber_eq n c k.property hn, List.mem_append, List.mem_append] at hd
  rcases hd with (hd | hd) | hd
  · exact isDigit_of_mem_padded hd
  · obtain ⟨e, -, he⟩ := List.mem_flatMap.mp hd
    exact isDigit_of_mem_padded he
  · exact Nat.isDigit_of_mem_toDigits (by decide) (by decide) hd

/-- **Client and generator encode code and frequency alike, and without collisions.** -/
theorem client_and_generator_numbers_agree :
    (∀ (c : StationCode) (k : SixDigitKhz),
      (icao2number c.cstr ((k.val : ℚ) / 1000)).2 = radioNumber c.val ((k.val : ℚ) / 1000 * 1000) ∧
        (icao2atisnumber c.cstr ((k.val : ℚ) / 1000)).2
          = atisNumber c.val ((k.val : ℚ) / 1000 * 1000) ∧
        ∀ number ∈ [(icao2number c.cstr ((k.val : ℚ) / 1000)).2,
            (icao2atisnumber c.cstr ((k.val : ℚ) / 1000)).2],
          number.length = 16 ∧ ∀ d ∈ number, d.isDigit = true) ∧
      (Function.Injective fun p : StationCode × SixDigitKhz =>
        (icao2number p.1.cstr ((p.2.val : ℚ) / 1000)).2) ∧
      Function.Injective fun p : StationCode × SixDigitKhz =>
        (icao2atisnumber p.1.cstr ((p.2.val : ℚ) / 1000)).2 := by
  refine ⟨fun c k => ?_, stationNumber_injective (n := 1) (by decide),
    stationNumber_injective (n := 99) (by decide)⟩
  have hmul : (k.val : ℚ) / 1000 * 1000 = k.val := by field_simp
  refine ⟨?_, ?_, ?_⟩
  · rw [radioNumber, hmul, perlNumber_natCast]
    exact stationNumber_eq 1 c k.property (by decide)
  · rw [atisNumber, hmul, perlNumber_natCast]
    exact stationNumber_eq 99 c k.property (by decide)
  · intro number hnumber
    rcases List.mem_cons.mp hnumber with rfl | hnumber
    · exact ⟨length_stationNumber _ _ _,
        fun d hd => isDigit_of_mem_stationNumber (n := 1) (by decide) c k hd⟩
    · obtain rfl := List.mem_singleton.mp hnumber
      exact ⟨length_stationNumber _ _ _,
        fun d hd => isDigit_of_mem_stationNumber (n := 99) (by decide) c k hd⟩

end Fgcom
