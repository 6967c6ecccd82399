import Fgcom.Calls
import Mathlib.Algebra.Order.Round

/-! # The numbers dialled from flight data

A number is to be 16 digits, the last six the frequency in kHz. Nothing between the packet and
`sprintf` bounds the frequency, and nothing bounds the characters of a station's code, so the fixed
width is a property of the data.

* **`WellFormedFor`** — a number fit for a frequency. `wellFormedFor_iff`: with a code whose
  characters print in two digits, the number of a frequency is well-formed exactly when the
  frequency rounds to 0 to 999999 kHz (`InDialRange`).
* **`conversions`** — the values a step casts to `int`; `FitsInt` is the range of the cast.
* **`TunesInRange`** — the packets that select a frequency in range, and the steps that dial codes
  of two-digit characters. `numbersSound_step_iff`: with such codes in the airport list, exactly
  these steps dial sound numbers; `dialled_numbers_sound`: along every run of them. -/

namespace Fgcom

open EventRun DecimalText

/-! ## Numbers -/

/-- A number of 16 digits whose last six are the frequency rounded to kHz. -/
def WellFormedFor (frequency : ℚ) (number : List Char) : Prop :=
  number.length = 16 ∧ (∀ c ∈ number, c.isDigit = true) ∧
    (Nat.ofDigitChars 10 (number.drop 10) 0 : ℤ) = round (frequency * 1000)

instance (frequency : ℚ) (number : List Char) : Decidable (WellFormedFor frequency number) :=
  letI := List.decidableBAll (fun c : Char => c.isDigit = true) number
  inferInstanceAs (Decidable (_ ∧ (∀ c ∈ number, c.isDigit = true) ∧ _))

/-- The frequencies that round to 0 to 999999 kHz. -/
def InDialRange (frequency : ℚ) : Prop :=
  -(1 / 2000) ≤ frequency ∧ frequency < 1000 - 1 / 2000

instance (frequency : ℚ) : Decidable (InDialRange frequency) :=
  inferInstanceAs (Decidable (_ ∧ _))

/-- A code whose characters print as two digits each. -/
def PrintsInTwo (icao : CStr 4) : Prop := ∀ c ∈ icao.val, c.toNat < 100

instance (icao : CStr 4) : Decidable (PrintsInTwo icao) :=
  List.decidableBAll (fun c : Char => c.toNat < 100) icao.val

/-- The range of a cast to a 32-bit `int`: the value with its fraction cut off fits. -/
def FitsInt (q : ℚ) : Prop := -2 ^ 31 ≤ truncate q ∧ truncate q < 2 ^ 31

instance (q : ℚ) : Decidable (FitsInt q) := inferInstanceAs (Decidable (_ ∧ _))

/-- Rounding to kHz, as the code does it: half a kHz is added and the fraction cut off. -/
theorem inDialRange_iff_round (frequency : ℚ) :
    InDialRange frequency ↔ 0 ≤ round (frequency * 1000) ∧ round (frequency * 1000) < 10 ^ 6 := by
  rw [round_eq, Int.floor_nonneg, Int.floor_lt, InDialRange]
  push_cast
  constructor
  · rintro ⟨hlow, hhigh⟩
    constructor <;> linarith
  · rintro ⟨hlow, hhigh⟩
    constructor <;> linarith

/-- In the dial range the cast gives the rounded frequency. -/
theorem truncate_of_inDialRange {frequency : ℚ} (h : InDialRange frequency) :
    truncate (frequency * 1000 + 1 / 2) = round (frequency * 1000) := by
  have h0 : (0 : ℚ) ≤ frequency * 1000 + 1 / 2 := by linarith [h.1]
  rw [truncate, if_pos h0, round_eq]

/-- In the dial range the cast fits an `int`. -/
theorem fitsInt_of_inDialRange {frequency : ℚ} (h : InDialRange frequency) :
    FitsInt (frequency * 1000 + 1 / 2) := by
  obtain ⟨hlow, hhigh⟩ := (inDialRange_iff_round frequency).mp h
  rw [FitsInt, truncate_of_inDialRange h]
  omega

/-- **Only a frequency in the dial range has a well-formed number**, whoever made it: six digits
hold no other. -/
theorem inDialRange_of_wellFormedFor {frequency : ℚ} {number : List Char}
    (h : WellFormedFor frequency number) : InDialRange frequency := by
  obtain ⟨hlen, hdigits, hvalue⟩ := h
  have hlt : Nat.ofDigitChars 10 (number.drop 10) 0 < 10 ^ (number.drop 10).length :=
    ofDigitChars_lt fun c hc => hdigits c (List.mem_of_mem_drop hc)
  rw [List.length_drop, hlen] at hlt
  rw [inDialRange_iff_round, ← hvalue]
  omega

/-- The padded form of a code of two-digit characters prints as eight digits. -/
theorem code_text_of_printsInTwo {icao : CStr 4} (hcode : PrintsInTwo icao) :
    let text := (icao.val.leftpad 4 ' ').flatMap fun c => printfD 2 (schar c)
    text.length = 8 ∧ ∀ c ∈ text, c.isDigit = true := by
  have hwork : ∀ c ∈ icao.val.leftpad 4 ' ', c.toNat < 100 := by
    intro c hc
    rcases List.mem_append.mp hc with hc | hc
    · rw [List.eq_of_mem_replicate hc]
      decide
    · exact hcode c hc
  have htext : (icao.val.leftpad 4 ' ').flatMap (fun c => printfD 2 (schar c))
      = ((icao.val.leftpad 4 ' ').map Char.toNat).flatMap (padded 2) := by
    rw [List.flatMap_map]
    apply List.flatMap_congr
    intro c hc
    have hlt := hwork c hc
    rw [schar, if_pos (by omega), printfD_natCast]
  have hnat : ∀ n ∈ (icao.val.leftpad 4 ' ').map Char.toNat, n < 10 ^ 2 := by
    intro n hn
    obtain ⟨c, hc, rfl⟩ := List.mem_map.mp hn
    exact hwork c hc
  intro text
  constructor
  · show (List.flatMap _ _).length = 8
    rw [htext, length_flatMap_padded (by decide) hnat, List.length_map, length_icaoWork]
  · intro c hc
    rw [show text = _ from htext] at hc
    obtain ⟨n, -, hcn⟩ := List.mem_flatMap.mp hc
    exact isDigit_of_mem_padded hcn

/-- **When a number is well-formed**, for a code of two-digit characters: when its frequency is in
the dial range. -/
theorem wellFormedFor_iff {icao : CStr 4} (hcode : PrintsInTwo icao) (frequency : ℚ) :
    WellFormedFor frequency (icao2number icao frequency).2 ↔ InDialRange frequency := by
  refine ⟨inDialRange_of_wellFormedFor, fun hrange => ?_⟩
  obtain ⟨hlow, hhigh⟩ := (inDialRange_iff_round frequency).mp hrange
  obtain ⟨k, hk⟩ := Int.eq_ofNat_of_zero_le hlow
  have hklt : k < 10 ^ 6 := by omega
  have hkhz : khzOfFloat frequency = (k : ℤ) := (truncate_of_inDialRange hrange).trans hk
  -- the empty code becomes `ZZZZ`, which prints in two digits as well
  have hcode' : PrintsInTwo (if icao.val.length = 0 then zzzz else icao) := by
    split
    · decide
    · exact hcode
  obtain ⟨hlen, hdigits⟩ := code_text_of_printsInTwo hcode'
  have hpre : printfD 2 defaultCode = ['0', '1'] := by decide
  have hnumber : (icao2number icao frequency).2
      = ['0', '1'] ++ ((if icao.val.length = 0 then zzzz else icao).val.leftpad 4 ' ').flatMap
          (fun c => printfD 2 (schar c)) ++ padded 6 k := by
    unfold icao2number stationNumber
    simp only [toFloat_exact, hpre, hkhz, printfD_natCast]
    apply List.take_of_length_le
    rw [List.length_append, List.length_append, hlen, length_padded (by decide) hklt]
    rfl
  refine ⟨length_stationNumber _ _ _, ?_, ?_⟩
  · intro c hc
    rw [hnumber, List.mem_append, List.mem_append] at hc
    rcases hc with (hc | hc) | hc
    · exact List.all_eq_true.mp (rfl : ['0', '1'].all Char.isDigit = true) c hc
    · exact hdigits c hc
    · exact isDigit_of_mem_padded hc
  · rw [hnumber, List.drop_append_of_le_length (by rw [List.length_append, hlen]; decide),
      List.drop_of_length_le (by rw [List.length_append, hlen]; decide), List.nil_append,
      ofDigitChars_padded, hk]

/-! ## Casts -/

section Casts

variable {R : Type} [CFloat R]

/-- The value `icaobypos` casts to `int`, in `searchFrequency`. -/
def lookupCast (frequency : R) : R :=
  CFloat.add (CFloat.mul frequency (CFloat.lit 1000)) (CFloat.lit (1 / 2))

/-- The value `icao2number` casts to `int`, in `khzOfFloat`; its parameter is a `float`. -/
def numberCast (frequency : R) : R :=
  CFloat.add (CFloat.toFloat (CFloat.mul (CFloat.toFloat frequency) (CFloat.lit 1000)))
    (CFloat.lit (1 / 2))

/-- The values a step casts to `int` in the lookup and in the number, in order. -/
def conversions (cfg : Config R) (s : Client R) : Event → List R
  | .packet buf =>
      match parsePacket s.data buf with
      | none => []
      | some d =>
          let s := takeData d s
          if frequencyChanged s then
            lookupCast s.selectedFrequency ::
              match icaoHere cfg s with
              | none => []
              | some _ => [numberCast s.selectedFrequency]
          else []
  | .alarm =>
      (if checkSpecialFrq cfg s.selectedFrequency then [] else [lookupCast s.selectedFrequency]) ++
        match alarmIcao cfg s with
        | none => []
        | some icao =>
            if icao.val.length ≠ 0 ∧ s.connected = false then [numberCast s.selectedFrequency]
            else []
  | .state _ => []

end Casts

/-- The values a packet casts are its selected frequency in kHz and a half, and it casts none when
the frequency did not change. -/
theorem mem_conversions_packet {cfg : Config ℚ} {s : Client ℚ} {buf : List Char} {q : ℚ}
    (h : q ∈ conversions cfg s (.packet buf)) :
    ∃ d, parsePacket s.data buf = some d ∧ frequencyChanged (takeData d s) = true ∧
      q = (takeData d s).selectedFrequency * 1000 + 1 / 2 := by
  unfold conversions at h
  cases hd : parsePacket s.data buf with
  | none => simp [hd] at h
  | some d =>
      refine ⟨d, rfl, ?_⟩
      simp only [hd] at h
      split at h
      · rename_i hchanged
        refine ⟨hchanged, ?_⟩
        rcases List.mem_cons.mp h with rfl | h
        · rfl
        · split at h
          · simp at h
          · exact List.mem_singleton.mp h
      · simp at h

/-- The values a timer tick casts are the selected frequency in kHz and a half. -/
theorem mem_conversions_alarm {cfg : Config ℚ} {s : Client ℚ} {q : ℚ}
    (h : q ∈ conversions cfg s .alarm) : q = s.selectedFrequency * 1000 + 1 / 2 := by
  unfold conversions at h
  rcases List.mem_append.mp h with h | h
  · split at h
    · simp at h
    · exact List.mem_singleton.mp h
  · split at h
    · simp at h
    · split at h
      · exact List.mem_singleton.mp h
      · simp at h

/-! ## Runs -/

/-- What a step is to do with its frequencies: every value cast to `int` fits, and every number
dialled is well-formed for the frequency selected. -/
def NumbersSound (cfg : Config ℚ) (s : Client ℚ) (e : Event) : Prop :=
  (∀ q ∈ conversions cfg s e, FitsInt q) ∧
    ∀ t ∈ step cfg s e, ∀ number ∈ dialled s t, WellFormedFor t.selectedFrequency number

/-- A packet that changes the frequency selects one in the dial range, and the code of the station
then called prints in two digits a character; a timer tick with no call up finds such a code. -/
def TunesInRange (cfg : Config ℚ) (s : Client ℚ) : Event → Prop
  | .packet buf =>
      ∀ d ∈ parsePacket s.data buf, frequencyChanged (takeData d s) = true →
        InDialRange (takeData d s).selectedFrequency ∧
          ∀ icao ∈ icaoHere cfg (takeData d s), PrintsInTwo icao
  | .alarm => s.connected = false → ∀ icao ∈ alarmIcao cfg s, PrintsInTwo icao
  | .state _ => True

instance (cfg : Config ℚ) (s : Client ℚ) : ∀ e, Decidable (TunesInRange cfg s e)
  | .packet buf => inferInstanceAs (Decidable (∀ d ∈ parsePacket s.data buf, _))
  | .alarm => inferInstanceAs (Decidable (s.connected = false → ∀ icao ∈ alarmIcao cfg s, _))
  | .state _ => isTrue trivial

/-- The invariant: the frequency dialled last is the one selected, and in the dial range. -/
structure TunedInRange (s : Client ℚ) : Prop where
  frequency : s.previousComFrequency = s.selectedFrequency
  inRange : InDialRange s.selectedFrequency

/-- The client starts on the frequency 0. -/
theorem tunedInRange_start (cfg : Config ℚ) : TunedInRange (Client.start cfg) where
  frequency := rfl
  inRange := by
    show InDialRange (0 : ℚ)
    decide +kernel

/-- An unchanged frequency is the one of the invariant. -/
theorem selectedBy_eq_of_not_changed {s : Client ℚ} {d : FgData ℚ}
    (h : frequencyChanged (takeData d s) = false) :
    s.previousComFrequency = (takeData d s).selectedFrequency := by
  apply CFloat.eq_sound
  simpa [frequencyChanged, takeData] using h

/-- A step that meets the condition keeps the invariant. -/
theorem tunedInRange_step {cfg : Config ℚ} {s t : Client ℚ} {e : Event} (hs : TunedInRange s)
    (hok : TunesInRange cfg s e) (h : step cfg s e = some t) : TunedInRange t := by
  cases e with
  | packet buf =>
      obtain ⟨d, u, hd, hu, rfl⟩ := processPacket_eq_some h
      obtain ⟨-, -, -, hsel, hprev, -⟩ := retune_frame hu
      obtain ⟨-, -, hsel', hprev', -, -⟩ := pttChange_frame cfg u
      refine ⟨by rw [hsel', hprev', hsel, hprev], ?_⟩
      rw [hsel', hsel]
      cases hchanged : frequencyChanged (takeData d s) with
      | true => exact (hok d hd hchanged).1
      | false =>
          rw [← selectedBy_eq_of_not_changed hchanged, hs.frequency]
          exact hs.inRange
  | alarm =>
      obtain ⟨-, -, -, hsel, hprev⟩ := alarmHandler_frame h
      exact ⟨by rw [hsel, hprev, hs.frequency], by rw [hsel]; exact hs.inRange⟩
  | state state =>
      obtain rfl := Option.some.inj h
      unfold eventState
      split
      · exact ⟨hs.frequency, hs.inRange⟩
      · exact hs

/-- What a packet dials: the number of the code found, when the frequency changed. -/
theorem dialled_processPacket {cfg : Config ℚ} {s t : Client ℚ} {buf : List Char}
    (h : processPacket cfg buf s = some t) :
    ∃ d, parsePacket s.data buf = some d ∧
      t.selectedFrequency = (takeData d s).selectedFrequency ∧
      ((frequencyChanged (takeData d s) = false ∧ dialled s t = []) ∨
        (frequencyChanged (takeData d s) = true ∧ ∃ icao, icaoHere cfg (takeData d s) = some icao ∧
          dialled s t = [(icao2number icao (takeData d s).selectedFrequency).2])) := by
  obtain ⟨d, u, hd, hu, rfl⟩ := processPacket_eq_some h
  obtain ⟨-, -, -, hsel, -, -⟩ := retune_frame hu
  obtain ⟨-, -, hsel', -, hplaced, -⟩ := pttChange_frame cfg u
  have hdialled : dialled s (pttChange cfg u) = dialled s u := by rw [dialled, hplaced, dialled]
  refine ⟨d, hd, hsel'.trans hsel, ?_⟩
  rw [hdialled]
  rcases retune_eq_some hu with ⟨hsame, rfl⟩ | ⟨hchanged, icao, hicao, rfl⟩
  · exact Or.inl ⟨hsame, dialled_of_placed_eq rfl⟩
  · exact Or.inr ⟨hchanged, icao, hicao, dialled_placeCall rfl icao⟩

/-- Nothing is among the numbers dialled where the list of calls stays as it is. -/
theorem not_mem_dialled {R : Type} {s t : Client R} (h : t.placed = s.placed)
    {number : List Char} : number ∉ dialled s t := by
  rw [dialled_of_placed_eq h]
  exact List.not_mem_nil

/-- **One step**: from a frequency in range, a step that meets the condition deals soundly with
its numbers. -/
theorem numbersSound_of_tunesInRange {cfg : Config ℚ} {s : Client ℚ} {e : Event}
    (hs : TunedInRange s) (hok : TunesInRange cfg s e) : NumbersSound cfg s e := by
  cases e with
  | packet buf =>
      constructor
      · intro q hq
        obtain ⟨d, hd, hchanged, rfl⟩ := mem_conversions_packet hq
        exact fitsInt_of_inDialRange (hok d hd hchanged).1
      · intro t ht number hnumber
        obtain ⟨d, hd, hsel, ⟨-, hnone⟩ | ⟨hchanged, icao, hicao, hone⟩⟩ :=
          dialled_processPacket ht
        · exact absurd (hnone ▸ hnumber) List.not_mem_nil
        · obtain ⟨hrange, hcode⟩ := hok d hd hchanged
          rw [hone, List.mem_singleton] at hnumber
          rw [hnumber, hsel]
          exact (wellFormedFor_iff (hcode icao hicao) _).mpr hrange
  | alarm =>
      constructor
      · intro q hq
        rw [mem_conversions_alarm hq]
        exact fitsInt_of_inDialRange hs.inRange
      · intro t ht number hnumber
        obtain ⟨icao, hicao, ⟨-, -, rfl⟩ | ⟨-, hidle, rfl⟩ | ⟨-, rfl⟩⟩ := alarmHandler_eq_some ht
        · exact absurd hnumber (not_mem_dialled rfl)
        · rw [dialled_placeCall rfl, List.mem_singleton] at hnumber
          rw [hnumber]
          exact (wellFormedFor_iff (hok hidle icao hicao) _).mpr hs.inRange
        · exact absurd hnumber (not_mem_dialled rfl)
  | state state =>
      refine ⟨fun q hq => absurd hq (by simp [conversions]), fun t ht number hnumber => ?_⟩
      obtain rfl := Option.some.inj ht
      have hplaced : (eventState state s).placed = s.placed := by
        unfold eventState
        split <;> rfl
      exact absurd hnumber (not_mem_dialled hplaced)

/-- Codes found in a list of two-digit codes are such codes. -/
theorem printsInTwo_icaoHere {cfg : Config ℚ} (hcodes : ∀ a ∈ cfg.airportlist, PrintsInTwo a.icao)
    {s : Client ℚ} {icao : CStr 4} (h : icaoHere cfg s = some icao) : PrintsInTwo icao := by
  have hempty : PrintsInTwo noIcao := by decide
  unfold icaoHere icaobypos at h
  simp only at h
  split at h
  · rcases icaobyposLoop_eq_some h with rfl | ⟨a, ha, -, rfl⟩
    · exact hempty
    · exact hcodes a ha
  · exact Option.some.inj h ▸ hempty

/-- **One step, exactly**: with two-digit codes in the airport list, the steps of `TunesInRange` are
those that deal soundly with their numbers. -/
theorem numbersSound_step_iff {cfg : Config ℚ}
    (hcodes : ∀ a ∈ cfg.airportlist, PrintsInTwo a.icao) {s t : Client ℚ} {e : Event}
    (hs : TunedInRange s) (h : step cfg s e = some t) :
    NumbersSound cfg s e ↔ TunesInRange cfg s e := by
  refine ⟨fun hsound => ?_, numbersSound_of_tunesInRange hs⟩
  cases e with
  | packet buf =>
      intro d hd hchanged
      obtain ⟨d', hd', hsel, ⟨hsame, -⟩ | ⟨-, icao, hicao, hone⟩⟩ := dialled_processPacket h
      · obtain rfl : d = d' := Option.some.inj (hd.symm.trans hd')
        exact absurd (hsame.symm.trans hchanged) (by decide)
      · obtain rfl : d = d' := Option.some.inj (hd.symm.trans hd')
        -- the number dialled is well-formed, so its frequency is in range
        have hwell := hsound.2 t h _ (hone ▸ List.mem_singleton_self _)
        rw [hsel] at hwell
        exact ⟨inDialRange_of_wellFormedFor hwell, fun icao h => printsInTwo_icaoHere hcodes h⟩
  | alarm =>
      intro _ icao hicao
      unfold alarmIcao at hicao
      split at hicao
      · obtain rfl := Option.some.inj hicao
        decide
      · exact printsInTwo_icaoHere hcodes hicao
  | state state => trivial

/-- **Every number dialled from flight data is well-formed**, and no cast leaves the range of an
`int`, in every step taken or attempted of every run in which each new frequency is in the dial
range and each code called prints in two digits a character. -/
theorem dialled_numbers_sound {cfg : Config ℚ} {es : List Event}
    (hok : StepsMeet (step cfg) (TunesInRange cfg) (Client.start cfg) es) :
    StepsMeet (step cfg) (NumbersSound cfg) (Client.start cfg) es := by
  have hkeep : ∀ s e t, TunedInRange s → TunesInRange cfg s e → step cfg s e = some t →
      TunedInRange t := fun s e t hs hok h => tunedInRange_step hs hok h
  have hgive : ∀ s e, TunedInRange s → TunesInRange cfg s e → NumbersSound cfg s e :=
    fun s e hs hok => numbersSound_of_tunesInRange hs hok
  exact hok.of_invariant hkeep hgive (tunedInRange_start cfg)

/-- Tuning a station, a frequency of nobody, and the upper end of the dial range. -/
def tunings : List Event :=
  [.packet "COM1_FRQ=118.5,COM1_SRV=1,LAT=50,LON=8\n".toList, .alarm,
    .packet "COM1_FRQ=121.9\n".toList, .alarm, .packet "COM1_FRQ=999.9994\n".toList]

/-- The numbers dialled along `tunings` are sound. -/
theorem dialled_numbers_sound_along_tunings :
    StepsMeet (step twoStations) (TunesInRange twoStations) (Client.start twoStations) tunings ∧
      StepsMeet (step twoStations) (NumbersSound twoStations) (Client.start twoStations)
        tunings := by
  have hok : StepsMeet (step twoStations) (TunesInRange twoStations) (Client.start twoStations)
      tunings := by
    decide +kernel
  exact ⟨hok, dialled_numbers_sound hok⟩

/-- **The number of another frequency**: 1234.5 MHz is dialled as 123.450 MHz, its last digit cut
off; and the cast of three million MHz leaves the range of an `int`. -/
theorem dialled_number_of_another_frequency :
    let s := Client.start twoStations
    (∃ t ∈ step twoStations s (.packet "COM1_FRQ=1234.5,COM1_SRV=1\n".toList),
      dialled s t = ["0190909090123450".toList] ∧ t.selectedFrequency = 12345 / 10 ∧
        ¬ WellFormedFor t.selectedFrequency "0190909090123450".toList) ∧
      ∃ q ∈ conversions twoStations s (.packet "COM1_FRQ=3000000,COM1_SRV=1\n".toList),
        ¬ FitsInt q := by
  decide +kernel

end Fgcom
