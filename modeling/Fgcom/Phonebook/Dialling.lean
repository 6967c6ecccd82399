import Fgcom.Client
import Fgcom.Phonebook.Tables

/-! # What the client dials and what the server knows

A tuned frequency goes through the client's lookup (`icaobypos`), its number (`icao2number`) and
the rewriting in `do_iaxc_call`, all in whole kHz here; the server knows the extensions that the
generator wrote.

* **`icaobypos_khz`** — what it means that the lookup yields a station;
  **`rewriteNumber_extension`** — what the rewriting does to a number.
* **`exten_iff`** — which frequencies of a code have an extension. -/

namespace Fgcom

open DecimalText Phonebook

/-! ## The lookup in whole kHz -/

/-- The frequency the lookup compares with: a frequency ending in 5 kHz is lowered by 5 kHz. -/
def searchKhz (t : ℕ) : ℕ := if t % 10 = 5 then t - 5 else t

/-- Rounding up to kHz leaves a whole number of kHz as it is. -/
theorem ceilKhz_exact (k : ℕ) : ceilKhz ((k : ℚ) / 1000) = (k : ℚ) / 1000 := by
  have hmul : (k : ℚ) / 1000 * 1000 = k := by field_simp
  rw [ceilKhz, lit_exact, mul_exact, toFloat_exact, ceilf_exact, div_exact, hmul, Int.ceil_natCast]
  rfl

/-- The frequency looked for. -/
theorem searchFrequency_exact (t : ℕ) :
    searchFrequency ((t : ℚ) / 1000) = (searchKhz t : ℚ) / 1000 := by
  have hmul : (t : ℚ) / 1000 * 1000 = t := by field_simp
  have hhalf : truncate ((t : ℚ) + 1 / 2) = t := truncate_add_half t
  have hfive : ((t : ℤ) % 10 ≠ 0 ∧ (t : ℤ) % 5 = 0) ↔ t % 10 = 5 := by omega
  unfold searchFrequency searchKhz
  simp only [lit_exact, mul_exact, add_exact, toInt_exact, sub_exact, hmul, hhalf, hfive]
  by_cases h : t % 10 = 5
  · obtain ⟨k, rfl⟩ : ∃ k, t = k + 5 := ⟨t - 5, by omega⟩
    have hsub : ((k + 5 : ℕ) : ℚ) / 1000 - 5 / 1000 = (k : ℚ) / 1000 := by push_cast; ring
    rw [if_pos h, if_pos h, hsub, ceilKhz_exact, Nat.add_sub_cancel]
  · rw [if_neg h, if_neg h]

/-- The band in which the lookup searches. -/
theorem band_exact (s : ℕ) :
    (CFloat.le lowerFrqLimit ((s : ℚ) / 1000) && CFloat.le ((s : ℚ) / 1000) upperFrqLimit) = true ↔
      108000 ≤ s ∧ s ≤ 140000 := by
  rw [Bool.and_eq_true, le_exact, le_exact, decide_eq_true_eq, decide_eq_true_eq]
  unfold lowerFrqLimit upperFrqLimit
  rw [lit_exact, lit_exact, le_div_iff₀ (by norm_num), div_le_iff₀ (by norm_num)]
  refine and_congr ?_ ?_
  · constructor
    · intro h
      have : (108000 : ℚ) ≤ s := by linarith
      exact_mod_cast this
    · intro h
      have : (108000 : ℚ) ≤ s := by exact_mod_cast h
      linarith
  · constructor
    · intro h
      have : (s : ℚ) ≤ 140000 := by linarith
      exact_mod_cast this
    · intro h
      have : (s : ℚ) ≤ 140000 := by exact_mod_cast h
      linarith

/-- **What a lookup that yields a station tells**: the frequency looked for is in the band, and the
list has a node with the station's code on it. -/
theorem icaobypos_khz {distance : ℚ → ℚ → ℚ → ℚ → ℚ} {airports : List (Airport ℚ)} {t : ℕ}
    {lat lon range : ℚ} {icao : CStr 4}
    (h : icaobypos distance airports ((t : ℚ) / 1000) lat lon range = some icao)
    (hne : icao ≠ noIcao) :
    (108000 ≤ searchKhz t ∧ searchKhz t ≤ 140000) ∧
      ∃ a ∈ airports, a.icao = icao ∧ onFrequency a ((searchKhz t : ℚ) / 1000) = true := by
  unfold icaobypos at h
  rw [searchFrequency_exact] at h
  by_cases hband : (CFloat.le lowerFrqLimit ((searchKhz t : ℚ) / 1000)
      && CFloat.le ((searchKhz t : ℚ) / 1000) upperFrqLimit) = true
  · rw [if_pos hband] at h
    obtain ⟨a, ha, hrange, hicao⟩ := (icaobyposLoop_eq_some h).resolve_left hne
    unfold stationInRange at hrange
    rw [Bool.and_eq_true] at hrange
    exact ⟨(band_exact _).mp hband, a, ha, hicao, hrange.1⟩
  · rw [if_neg hband] at h
    exact absurd (Option.some.inj h).symm hne

/-- A node on a whole number of kHz is matched by that frequency only. -/
theorem onFrequency_khz {a : Airport ℚ} {m s : ℕ} (ha : a.frequency = (m : ℚ) / 1000)
    (h : onFrequency a ((s : ℚ) / 1000) = true) : m = s := by
  unfold onFrequency at h
  rw [ha, ceilKhz_exact, eq_exact, Bool.or_self, decide_eq_true_eq] at h
  have hcast : (m : ℚ) = s := by linarith
  exact_mod_cast hcast

/-! ## The rewriting of a number -/

/-- The frequency whose number is dialled in the end, for each server. -/
def serverKhz (voipserver : List Char) (t : ℕ) : ℕ :=
  if voipserver = "fgcom.flightgear.org".toList then
    if t % 100 = 20 ∨ t % 100 = 70 then t + 5 else t
  else if voipserver = "delta384.server4you.de".toList then
    if t % 10 = 5 then t - 5 else t
  else t

/-- The last two digits of a number of six digits. -/
theorem extension_split {t : ℕ} (a : List Char) (ht : 100000 ≤ t ∧ t ≤ 999999) :
    extension a t = "01".toList ++ Phonebook.icao2number a ++ padded 4 (t / 100)
      ++ [(t / 10 % 10).digitChar, (t % 10).digitChar] := by
  have hdigits : padded 6 t = Nat.toDigits 10 t := padded_eq_toDigits (by omega)
  have hdiv : t / 10 / 10 = t / 100 := by omega
  unfold extension
  rw [← hdigits, padded_succ (by decide), padded_succ (by decide), hdiv]
  simp only [List.append_assoc]
  rfl

/-- A digit is recognised by its character. -/
theorem digitChar_eq_iff {d e : ℕ} (hd : d < 10) (he : e < 10) :
    d.digitChar = e.digitChar ↔ d = e := by
  rw [← Char.toNat_inj, Nat.toNat_digitChar_of_lt_ten hd, Nat.toNat_digitChar_of_lt_ten he]
  omega

/-- The rewriting changes at most the last of two characters, unless the number is the echo box. -/
theorem rewriteNumber_append (voipserver q : List Char) (x y : Char) :
    rewriteNumber voipserver ('0' :: q ++ [x, y])
      = '0' :: q ++ [x,
          if voipserver = "fgcom.flightgear.org".toList then
            if (x = '2' ∨ x = '7') ∧ y = '0' then '5' else y
          else if voipserver = "delta384.server4you.de".toList then
            if y = '5' then '0' else y
          else y] := by
  have hconcat : '0' :: q ++ [x, y] = '0' :: q ++ [x] ++ [y] := by simp
  have hlast : ('0' :: q ++ [x, y]).getLast? = some y := by rw [hconcat, List.getLast?_concat]
  have hdrop : ('0' :: q ++ [x, y]).dropLast = '0' :: q ++ [x] := by
    rw [hconcat, List.dropLast_concat]
  have hlast' : ('0' :: q ++ [x]).getLast? = some x := List.getLast?_concat
  unfold rewriteNumber
  rw [hlast, hdrop, hlast']
  simp only [Option.some_inj]
  -- a number that starts with a 0 is not the number of the echo box
  split
  · split
    · simp
    · simp
  · split
    · split
      · simp
      · simp
    · simp

/-- **The rewriting of a station's number** gives the number of the same station on another
frequency. -/
theorem rewriteNumber_extension (voipserver a : List Char) {t : ℕ}
    (ht : 100000 ≤ t ∧ t ≤ 999999) :
    rewriteNumber voipserver (extension a t) = extension a (serverKhz voipserver t) := by
  have hd2 : (t / 10 % 10).digitChar = '2' ↔ t / 10 % 10 = 2 :=
    digitChar_eq_iff (e := 2) (by omega) (by decide)
  have hd7 : (t / 10 % 10).digitChar = '7' ↔ t / 10 % 10 = 7 :=
    digitChar_eq_iff (e := 7) (by omega) (by decide)
  have hd0 : (t % 10).digitChar = '0' ↔ t % 10 = 0 :=
    digitChar_eq_iff (e := 0) (by omega) (by decide)
  have hd5 : (t % 10).digitChar = '5' ↔ t % 10 = 5 :=
    digitChar_eq_iff (e := 5) (by omega) (by decide)
  -- another last digit, and the hundreds and tens kept
  have hsplit : ∀ k, k / 100 = t / 100 → k / 10 % 10 = t / 10 % 10 → 100000 ≤ k ∧ k ≤ 999999 →
      extension a k = '0' :: ('1' :: Phonebook.icao2number a ++ padded 4 (t / 100))
        ++ [(t / 10 % 10).digitChar, (k % 10).digitChar] := by
    intro k hk hk' hrange
    rw [extension_split a hrange, hk, hk']
    rfl
  rw [hsplit t rfl rfl ht, rewriteNumber_append]
  simp only [hd2, hd7, hd0, hd5]
  unfold serverKhz
  split
  · by_cases h : (t / 10 % 10 = 2 ∨ t / 10 % 10 = 7) ∧ t % 10 = 0
    · have hlow : (t + 5) % 10 = 5 := by omega
      rw [if_pos h, if_pos (by omega), hsplit (t + 5) (by omega) (by omega) (by omega), hlow]
      rfl
    · rw [if_neg h, if_neg (by omega), hsplit t rfl rfl ht]
  · split
    · by_cases h : t % 10 = 5
      · have hlow : (t - 5) % 10 = 0 := by omega
        rw [if_pos h, if_pos h, hsplit (t - 5) (by omega) (by omega) (by omega), hlow]
        rfl
      · rw [if_neg h, if_neg h, hsplit t rfl rfl ht]
    · rw [hsplit t rfl rfl ht]

/-! ## The extensions of a code -/

/-- A number of a short code on a frequency of six digits starting with 1 belongs to no other code
and no other frequency. -/
theorem extension_inj {a b : List Char} {k j : ℕ} (ha : a.length ≤ 4)
    (hac : ∀ c ∈ a, codeChar c = true) (hbc : ∀ c ∈ b, codeChar c = true)
    (hk : 100000 ≤ k ∧ k < 200000) (h : extension a k = extension b j) : a = b ∧ k = j := by
  unfold extension at h
  rw [List.append_assoc, List.append_assoc, List.append_cancel_left_eq] at h
  rcases icao2number_prefix ha hac hbc h with ⟨hab, hdigits⟩ | ⟨-, d, w, hd, hne⟩
  · exact ⟨hab, toDigits_inj hdigits⟩
  · -- a longer code would go on where the frequency starts
    obtain ⟨u, hu⟩ := head_toDigits hk
    rw [hu] at hd
    exact absurd (List.cons.inj hd).1.symm hne

/-- The lines of fgcom.conf for a base: its own extension, the aliases, and perhaps lines of another
prefix. -/
theorem airportExtensions_mhzText (a : List Char) (e : AptEntry) (b : ℕ) (type : List Char) :
    ∃ (app₁ app₂ app₃ : App) (rest : List ConfLine), (∀ n, app₁ ≠ .dialLocal n) ∧
      (∀ l ∈ rest, l.exten.head? = some '9') ∧
      airportExtensions a e (mhzText b) type
        = [⟨extension a b, .first, app₁⟩, ⟨extension a b, .next, app₂⟩,
            ⟨extension a b, .next, app₃⟩]
          ++ (aliasKhz b).map (fun k => ⟨extension a k, .first, .dialLocal (extension a b)⟩)
          ++ rest := by
  unfold airportExtensions
  rw [atof_mhzText_mul, radioNumber_natCast, aliasExtensions_mhzText]
  split
  · refine ⟨_, _, _, _, ?_, ?_, rfl⟩
    · intro n h
      exact App.noConfusion h
    · intro l hl
      rcases List.mem_cons.mp hl with rfl | hl
      · rfl
      · rw [List.mem_singleton.mp hl]
        rfl
  · refine ⟨_, _, _, [], ?_, ?_, (List.append_nil _).symm⟩
    · intro n h
      exact App.noConfusion h
    · intro l hl
      exact absurd hl List.not_mem_nil

/-- The lines of fgcom.conf for a VOR all have its extension. -/
theorem exten_vorExtensions {v : List Char} {e : NavEntry} {m : ℕ} (he : e.frq = mhzText m)
    {l : ConfLine} (hl : l ∈ vorExtensions v e) : l.exten = extension v m := by
  unfold vorExtensions at hl
  rw [he, atof_mhzText_mul, radioNumber_natCast] at hl
  rcases List.mem_cons.mp hl with rfl | hl
  · rfl
  · rw [List.mem_singleton.mp hl]

/-- The extensions of a base are those of the base and its aliases. -/
theorem exten_airportExtensions (a : List Char) (e : AptEntry) (b : ℕ) (type x : List Char)
    (hx : x.head? = some '0') :
    (∃ l ∈ airportExtensions a e (mhzText b) type, l.exten = x) ↔
      ∃ j, (j = b ∨ IsAlias b j) ∧ x = extension a j := by
  obtain ⟨app₁, app₂, app₃, rest, -, hrest, hlist⟩ := airportExtensions_mhzText a e b type
  rw [hlist]
  constructor
  · rintro ⟨l, hl, rfl⟩
    rw [List.mem_append, List.mem_append] at hl
    rcases hl with (hl | hl) | hl
    · refine ⟨b, Or.inl rfl, ?_⟩
      simp only [List.mem_cons, List.not_mem_nil, or_false] at hl
      rcases hl with rfl | rfl | rfl <;> rfl
    · obtain ⟨j, hj, rfl⟩ := List.mem_map.mp hl
      exact ⟨j, Or.inr (mem_aliasKhz.mp hj), rfl⟩
    · -- the numbers of the ATIS recorder start with 99
      have hnine := hrest l hl
      rw [hx] at hnine
      exact absurd hnine (by decide)
  · rintro ⟨j, rfl | hj, rfl⟩
    · exact ⟨_, List.mem_append_left _ (List.mem_append_left _ List.mem_cons_self), rfl⟩
    · refine ⟨_, List.mem_append_left _ (List.mem_append_right _ (List.mem_map.mpr
        ⟨j, mem_aliasKhz.mpr hj, rfl⟩)), rfl⟩

/-- An airport of the table has a base frequency. -/
def HasBase (apt : Hash AptEntry) (code : List Char) (b : ℕ) : Prop :=
  ∃ e type, apt.lookup code = some e ∧ e.com.lookup (mhzText b) = some type

/-- A VOR of the table has a frequency. -/
def HasVor (nav : Hash NavEntry) (code : List Char) (k : ℕ) : Prop :=
  ∃ e, nav.lookup code = some e ∧ e.frq = mhzText k

/-- **Which frequencies of a code have an extension**: those fixed in advance, the bases of the
airport with their aliases, and the frequency of the VOR. -/
theorem exten_iff {order : KeyOrder} {apt : Hash AptEntry} {nav : Hash NavEntry}
    (hapt : SoundApt apt) (hnav : SoundNav nav) {a : List Char} (ha : a.length ≤ 4)
    (hac : ∀ c ∈ a, codeChar c = true) {k : ℕ} (hk : 100000 ≤ k ∧ k < 200000) :
    (∃ l ∈ extensions order apt nav, l.exten = extension a k) ↔
      (∃ l ∈ extensionsPre, l.exten = extension a k) ∨
        (∃ b, HasBase apt a b ∧ (k = b ∨ IsAlias b k)) ∨ HasVor nav a k := by
  have hzero : (extension a k).head? = some '0' := rfl
  constructor
  · rintro ⟨l, hl, hexten⟩
    rcases mem_extensions.mp hl with hl | ⟨a', e, f, type, he, htype, hl⟩ | ⟨v, e, he, hl⟩
    · exact Or.inl ⟨l, hl, hexten⟩
    · -- a line of an airport: the number tells the code and the frequency
      obtain ⟨hcode, hsound⟩ := hapt a' e he
      obtain ⟨⟨b, rfl, -⟩, -⟩ := hsound.com f type htype
      obtain ⟨j, hj, hnumber⟩ :=
        (exten_airportExtensions a' e b type _ hzero).mp ⟨l, hl, hexten⟩
      obtain ⟨rfl, rfl⟩ := extension_inj ha hac hcode.2 hk hnumber
      exact Or.inr (Or.inl ⟨b, ⟨e, type, he, htype⟩, hj⟩)
    · obtain ⟨hcode, hsound⟩ := hnav v e he
      obtain ⟨n, hn⟩ := hsound.frq
      have hnumber := (exten_vorExtensions hn hl).symm.trans hexten
      obtain ⟨rfl, rfl⟩ := extension_inj ha hac hcode.2 hk hnumber.symm
      exact Or.inr (Or.inr ⟨e, he, hn⟩)
  · rintro (⟨l, hl, hexten⟩ | ⟨b, ⟨e, type, he, htype⟩, hj⟩ | ⟨e, he, hfrq⟩)
    · exact ⟨l, mem_extensions.mpr (Or.inl hl), hexten⟩
    · obtain ⟨l, hl, hexten⟩ :=
        (exten_airportExtensions a e b type _ hzero).mpr ⟨k, hj, rfl⟩
      exact ⟨l, mem_extensions.mpr (Or.inr (Or.inl ⟨a, e, _, type, he, htype, hl⟩)), hexten⟩
    · have hmem : ∃ l, l ∈ vorExtensions a e := ⟨_, List.mem_cons_self⟩
      obtain ⟨l, hl⟩ := hmem
      exact ⟨l, mem_extensions.mpr (Or.inr (Or.inr ⟨a, e, he, hl⟩)), exten_vorExtensions hfrq hl⟩

end Fgcom
