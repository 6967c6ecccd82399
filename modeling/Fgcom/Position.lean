import Fgcom.Numeric
import Mathlib.Tactic.IntervalCases

/-! # Stations: numbers and lookup

The airport list of the client and the two questions it answers: which station is in range on a
frequency (`icaobypos`) and which number stands for a station on a frequency (`icao2number`,
`icao2atisnumber`). Bytes are characters of code below 256. -/

namespace Fgcom

open DecimalText

/-- A C string of at most `n` characters, as a `char [n + 1]` holds it. -/
abbrev CStr (n : ℕ) : Type := {s : List Char // s.length ≤ n}

/-- One node of the airport list. -/
structure Airport (R : Type) where
  icao : CStr 4
  frequency : R
  lat : R
  lon : R
  type : CStr 32
  text : CStr 128
  deriving DecidableEq

/-! ## Numbers -/

/-- The value of a `char` given to `%d`. The type is signed: byte codes from 128 up are negative. -/
def schar (c : Char) : ℤ := if c.toNat < 128 then (c.toNat : ℤ) else -((256 - c.toNat : ℕ) : ℤ)

/-- The code dialled for no airport in particular. -/
def zzzz : CStr 4 := ⟨['Z', 'Z', 'Z', 'Z'], by decide⟩

/-- The empty string, the answer of a lookup that found nothing. -/
def noIcao : CStr 4 := ⟨[], by decide⟩

/-- `DEFAULT_CODE`: the prefix of a radio call. -/
def defaultCode : ℤ := 1

/-- `ATIS_CODE`: the prefix of a call that records an ATIS message. -/
def atisCode : ℤ := 99

section Numbers

variable {R : Type} [CFloat R]

/-- `(int) (frequency * 1000 + 0.5)` for a `float` frequency. -/
def khzOfFloat (frequency : R) : ℤ :=
  CFloat.toInt
    (CFloat.add (CFloat.toFloat (CFloat.mul frequency (CFloat.lit 1000))) (CFloat.lit (1 / 2)))

/-- The common body of `icao2number` and `icao2atisnumber`: the code left in `icao` (an empty one
becomes `ZZZZ`) and the number left in `buf`, cut off after 16 characters. -/
def stationNumber (code : ℤ) (icao : CStr 4) (frequency : R) : CStr 4 × List Char :=
  let frequency := CFloat.toFloat frequency
  let icao := if icao.val.length = 0 then zzzz else icao
  let icaoWork := icao.val.leftpad 4 ' '
  (icao,
    (printfD 2 code ++ icaoWork.flatMap (fun c => printfD 2 (schar c))
      ++ printfD 6 (khzOfFloat frequency)).take 16)

/-- `icao2number`. -/
def icao2number (icao : CStr 4) (frequency : R) : CStr 4 × List Char :=
  stationNumber defaultCode icao frequency

/-- `icao2atisnumber`. -/
def icao2atisnumber (icao : CStr 4) (frequency : R) : CStr 4 × List Char :=
  stationNumber atisCode icao frequency

end Numbers

/-! ## Lookup -/

section Lookup

variable {R : Type} [CFloat R]

/-- `DEFAULT_LOWER_FRQ_LIMIT`. -/
def lowerFrqLimit : R := CFloat.lit 108

/-- `DEFAULT_UPPER_FRQ_LIMIT`. -/
def upperFrqLimit : R := CFloat.lit 140

/-- `DEFAULT_RANGE`. -/
def defaultRange : R := CFloat.lit 100

/-- `ceilf (x * 1000.0) / 1000.0`. -/
def ceilKhz (x : R) : R :=
  CFloat.div (CFloat.ceilf (CFloat.toFloat (CFloat.mul x (CFloat.lit 1000)))) (CFloat.lit 1000)

/-- The frequency `icaobypos` looks for: a tuned frequency ending in 5 kHz is lowered by 5 kHz.
The remainders are only compared with zero. -/
def searchFrequency (frequency : R) : R :=
  let frq := CFloat.toInt (CFloat.add (CFloat.mul frequency (CFloat.lit 1000)) (CFloat.lit (1 / 2)))
  if frq % 10 ≠ 0 ∧ frq % 5 = 0 then ceilKhz (CFloat.sub frequency (CFloat.lit (5 / 1000)))
  else frequency

/-- The frequency test of the loop: the node's frequency, rounded up to kHz or as it is. -/
def onFrequency (a : Airport R) (frequency : R) : Bool :=
  CFloat.eq (ceilKhz a.frequency) frequency || CFloat.eq a.frequency frequency

/-- A node on the frequency looked for and not farther away than `range`. -/
def stationInRange (distance : R → R → R → R → R) (frequency planeLat planeLon range : R)
    (a : Airport R) : Bool :=
  onFrequency a frequency && CFloat.le (distance planeLat planeLon a.lat a.lon) range

/-- The loop of `icaobypos`. It runs while the node has a successor, so the last node is never
looked at, and it reads through the list pointer before testing it, so an empty list has no
defined answer. -/
def icaobyposLoop (inRange : Airport R → Bool) : List (Airport R) → Option (CStr 4)
  | [] => none
  | [_] => some noIcao
  | a :: b :: rest => if inRange a then some a.icao else icaobyposLoop inRange (b :: rest)

/-- `icaobypos`: the code of the first station in range on the frequency, the empty string when
there is none, `none` when a null list is read. -/
def icaobypos (distance : R → R → R → R → R) (airports : List (Airport R))
    (frequency planeLat planeLon range : R) : Option (CStr 4) :=
  let frequency := searchFrequency frequency
  if CFloat.le lowerFrqLimit frequency && CFloat.le frequency upperFrqLimit then
    icaobyposLoop (stationInRange distance frequency planeLat planeLon range) airports
  else some noIcao

/-- `struct pos`. -/
structure Pos (R : Type) where
  lon : R
  lat : R
  deriving DecidableEq

/-- The loop of `posbyicao`, with the boundaries of the one in `icaobypos`. -/
def posbyicaoLoop (icao : List Char) : List (Airport R) → Option (Pos R)
  | [] => none
  | [_] => some ⟨CFloat.lit 0, CFloat.lit 0⟩
  | a :: b :: rest =>
      if a.icao.val = icao then some ⟨a.lon, a.lat⟩ else posbyicaoLoop icao (b :: rest)

/-- `posbyicao`: the coordinates of the first station with the code, zeros when there is none,
`none` when a null list is read. -/
def posbyicao (airports : List (Airport R)) (icao : List Char) : Option (Pos R) :=
  posbyicaoLoop icao airports

end Lookup

/-! ## What the loops look at -/

section Walk

variable {R : Type}

/-- The loop of `icaobypos` finds the first node in range among all but the last. -/
theorem icaobyposLoop_eq (inRange : Airport R → Bool) {airports : List (Airport R)}
    (hne : airports ≠ []) :
    icaobyposLoop inRange airports
      = some (((airports.dropLast.find? inRange).map Airport.icao).getD noIcao) := by
  induction airports with
  | nil => exact absurd rfl hne
  | cons a rest ih =>
      cases rest with
      | nil => rfl
      | cons b rest =>
          rw [icaobyposLoop, List.dropLast_cons_cons, List.find?_cons]
          cases ha : inRange a with
          | true => rfl
          | false => exact ih (List.cons_ne_nil b rest)

/-- The loop of `posbyicao` finds the first node with the code among all but the last. -/
theorem posbyicaoLoop_eq [CFloat R] (icao : List Char) {airports : List (Airport R)}
    (hne : airports ≠ []) :
    posbyicaoLoop icao airports
      = some (((airports.dropLast.find? fun a => a.icao.val = icao).map
          fun a => ⟨a.lon, a.lat⟩).getD ⟨CFloat.lit 0, CFloat.lit 0⟩) := by
  induction airports with
  | nil => exact absurd rfl hne
  | cons a rest ih =>
      cases rest with
      | nil => rfl
      | cons b rest =>
          rw [posbyicaoLoop, List.dropLast_cons_cons, List.find?_cons]
          by_cases ha : a.icao.val = icao
          · simp [ha]
          · rw [if_neg ha, decide_eq_false ha]
            exact ih (List.cons_ne_nil b rest)

/-- The loop answers with the empty code or with that of a node in range. -/
theorem icaobyposLoop_eq_some {inRange : Airport R → Bool} {airports : List (Airport R)}
    {icao : CStr 4} (h : icaobyposLoop inRange airports = some icao) :
    icao = noIcao ∨ ∃ a ∈ airports, inRange a = true ∧ a.icao = icao := by
  by_cases hne : airports = []
  · subst hne
    exact absurd h (by simp [icaobyposLoop])
  · rw [icaobyposLoop_eq inRange hne] at h
    have hicao := Option.some.inj h
    cases hfind : airports.dropLast.find? inRange with
    | none =>
        rw [hfind] at hicao
        exact Or.inl hicao.symm
    | some a =>
        rw [hfind] at hicao
        have hmem : a ∈ airports :=
          (List.dropLast_sublist airports).subset (List.mem_of_find?_eq_some hfind)
        exact Or.inr ⟨a, hmem, List.find?_some hfind, hicao⟩

end Walk

/-! ## The shape of a number -/

section Shape

variable {R : Type} [CFloat R]

/-- A padded code has four characters. -/
theorem length_icaoWork (icao : CStr 4) : (icao.val.leftpad 4 ' ').length = 4 := by
  have := icao.property
  rw [List.leftpad, List.length_append, List.length_replicate]
  omega

/-- Every character contributes at least two characters to a number. -/
theorem two_mul_le_length_flatMap (s : List Char) :
    2 * s.length ≤ (s.flatMap fun c => printfD 2 (schar c)).length := by
  induction s with
  | nil => simp
  | cons c s ih =>
      have hc : 2 ≤ (printfD 2 (schar c)).length := le_length_printfD 2 (schar c)
      rw [List.flatMap_cons, List.length_append, List.length_cons]
      omega

/-- **A number always has 16 characters**, whatever the code and the frequency. -/
theorem length_stationNumber (code : ℤ) (icao : CStr 4) (frequency : R) :
    (stationNumber code icao frequency).2.length = 16 := by
  have hcode := le_length_printfD 2 code
  have hwork : ∀ icao : CStr 4,
      8 ≤ ((icao.val.leftpad 4 ' ').flatMap fun c => printfD 2 (schar c)).length := by
    intro icao
    have h := two_mul_le_length_flatMap (icao.val.leftpad 4 ' ')
    rwa [length_icaoWork] at h
  have hfrq := le_length_printfD 6 (khzOfFloat (CFloat.toFloat frequency))
  simp only [stationNumber, List.length_take, List.length_append]
  have := hwork (if icao.val.length = 0 then zzzz else icao)
  omega

/-- An empty code and `ZZZZ` give the same number. -/
theorem icao2number_noIcao (frequency : R) :
    (icao2number noIcao frequency).2 = (icao2number zzzz frequency).2 := rfl

/-- Only `Z` prints as a text that starts with `90`. -/
theorem eq_Z_of_take_two {c : Char} (h : (printfD 2 (schar c)).take 2 = ['9', '0']) : c = 'Z' := by
  by_cases hc : c.toNat < 128
  · -- an ASCII character prints as its code
    have hall : ∀ n < 128, (padded 2 n).take 2 = ['9', '0'] → n = 90 := by decide
    rw [schar, if_pos hc, printfD_natCast] at h
    have h90 := hall c.toNat hc h
    rw [← Char.ofNat_toNat c, h90]
  · -- any other byte is negative and prints with a sign
    rw [schar, if_neg hc] at h
    cases hn : 256 - c.toNat with
    | zero => rw [hn] at h; exact absurd h (by decide)
    | succ n =>
        rw [hn, show (-((n + 1 : ℕ) : ℤ)) = Int.negSucc n from rfl] at h
        simp [printfD] at h

/-- A code that prints like `ZZZZ` is `ZZZZ`: each character in turn has to print as `90`. -/
theorem eq_replicate_Z_of_prefix (s t u : List Char)
    (h : (s.flatMap fun c => printfD 2 (schar c)) ++ t
      = (List.replicate s.length ['9', '0']).flatten ++ u) : s = List.replicate s.length 'Z' := by
  induction s generalizing t u with
  | nil => rfl
  | cons c s ih =>
      rw [List.flatMap_cons, List.length_cons, List.replicate_succ, List.flatten_cons,
        List.append_assoc, List.append_assoc] at h
      have hlen : 2 ≤ (printfD 2 (schar c)).length := le_length_printfD 2 (schar c)
      have htake : (printfD 2 (schar c)).take 2 = ['9', '0'] := by
        have := congrArg (List.take 2) h
        rwa [List.take_append_of_le_length hlen, List.take_append_of_le_length (by decide)] at this
      obtain rfl := eq_Z_of_take_two htake
      have hZ : printfD 2 (schar 'Z') = ['9', '0'] := by decide
      rw [hZ, List.append_cancel_left_eq] at h
      rw [List.length_cons, List.replicate_succ, ← ih t u h]

/-- Only `ZZZZ` is padded to `ZZZZ`. -/
theorem eq_zzzz_of_leftpad {icao : CStr 4} (h : icao.val.leftpad 4 ' ' = zzzz.val) :
    icao = zzzz := by
  have hle := icao.property
  -- a shorter code would be padded with a blank in front
  have hlen : icao.val.length = 4 := by
    by_contra hne
    obtain ⟨k, hk⟩ : ∃ k, 4 - icao.val.length = k + 1 := ⟨3 - icao.val.length, by omega⟩
    rw [List.leftpad, hk, List.replicate_succ] at h
    exact absurd (List.cons.inj h).1 (by decide)
  rw [List.leftpad, hlen] at h
  exact Subtype.ext h

/-- **No other code shares the number of `ZZZZ`**: apart from the empty code, which becomes `ZZZZ`,
only `ZZZZ` itself has it. -/
theorem icao2number_eq_zzzz_iff (icao : CStr 4) (frequency : R) :
    (icao2number icao frequency).2 = (icao2number zzzz frequency).2
      ↔ icao = noIcao ∨ icao = zzzz := by
  constructor
  · intro h
    by_cases hempty : icao.val.length = 0
    · exact Or.inl (Subtype.ext (List.length_eq_zero_iff.mp hempty))
    · right
      have hzwork : zzzz.val.length ≠ 0 := by decide
      have hzpad : zzzz.val.leftpad 4 ' ' = zzzz.val := by decide
      simp only [icao2number, stationNumber, hempty, hzwork, hzpad, if_false] at h
      have hpre : printfD 2 defaultCode = ['0', '1'] := by decide
      have hZ : (zzzz.val.flatMap fun c => printfD 2 (schar c))
          = (List.replicate 4 ['9', '0']).flatten := by decide
      rw [hpre, hZ] at h
      generalize hX : ((icao.val.leftpad 4 ' ').flatMap fun c => printfD 2 (schar c)) = X at h
      generalize printfD 6 (khzOfFloat (CFloat.toFloat frequency)) = K at h
      -- the two prefixes agree, so the padded codes print alike up to a remainder
      have hXK : (X ++ K).take 14 = (List.replicate 4 ['9', '0']).flatten ++ K.take 6 := by
        simpa using h
      have hsplit : X ++ K
          = (List.replicate 4 ['9', '0']).flatten ++ (K.take 6 ++ (X ++ K).drop 14) := by
        rw [← List.append_assoc, ← hXK, List.take_append_drop]
      have hwork := eq_replicate_Z_of_prefix (icao.val.leftpad 4 ' ') K
        (K.take 6 ++ (X ++ K).drop 14) (by rw [hX, length_icaoWork]; exact hsplit)
      rw [length_icaoWork] at hwork
      exact eq_zzzz_of_leftpad hwork
  · rintro (rfl | rfl)
    · exact icao2number_noIcao frequency
    · rfl

end Shape

end Fgcom
