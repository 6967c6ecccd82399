import Fgcom.Packet
import Fgcom.Position

/-! # The client in flight mode

The state the main loop of the flight mode carries from one packet or timer tick to the next, and
the three things that change it: `processPacket`, `alarmHandler` and the library's callback
`eventState`. What the client tells the IAX library is part of the state: the sound levels it set
last and the calls it placed.

A step is `none` where the C code has no defined effect: an empty packet, a null value pointer, an
airport list that is a null pointer. -/

namespace Fgcom

/-- A table of special frequencies: an array in which the scan finds an entry that is not `>= 0.0`,
as the terminator `-1.0` of every table the client builds. -/
abbrev SpecialTable (R : Type) [CFloat R] : Type :=
  {table : List R // ∃ x ∈ table, CFloat.le (CFloat.lit 0 : R) x = false}

/-- What `main` has set up before it enters the loop. -/
structure Config (R : Type) [CFloat R] where
  airportlist : List (Airport R)
  specialFrequencies : SpecialTable R
  distance : R → R → R → R → R
  levelIn : R
  levelOut : R
  username : List Char
  password : List Char
  voipserver : List Char

/-- A call handed to `do_iaxc_call`: the station code the number was made for, the number as it was
passed, and the destination string given to `iaxc_call`. -/
structure PlacedCall where
  code : CStr 4
  number : List Char
  dest : List Char
  deriving DecidableEq

/-- The state of the client. Of `connected` only the values 0 and 1 are ever stored. -/
structure Client (R : Type) where
  data : FgData R
  connected : Bool
  selectedFrequency : R
  previousComFrequency : R
  previousPtt : ℤ
  comSelect : Fin 4
  /-- The level last passed to `iaxc_input_level_set`: the microphone. -/
  inputLevel : R
  /-- The level last passed to `iaxc_output_level_set`: the speaker. -/
  outputLevel : R
  /-- The calls placed so far, the latest first. -/
  placed : List PlacedCall
  deriving DecidableEq

/-! ## Placing a call -/

/-- The server-dependent rewriting of the last digit in `do_iaxc_call`, and the echo-box number. -/
def rewriteNumber (voipserver number : List Char) : List Char :=
  let number :=
    -- this server wants 25 and 75 where the radio shows 20 and 70
    if voipserver = "fgcom.flightgear.org".toList then
      if (number.dropLast.getLast? = some '2' ∨ number.dropLast.getLast? = some '7')
          ∧ number.getLast? = some '0' then
        number.dropLast ++ ['5']
      else number
    -- and this one wants the number 5 kHz below
    else if voipserver = "delta384.server4you.de".toList then
      if number.getLast? = some '5' then number.dropLast ++ ['0'] else number
    else number
  if number = "9990909090910000".toList then "0190909090910000".toList else number

/-- The destination string of `do_iaxc_call`, cut off by its buffer of 256 bytes. -/
def callDest (username password voipserver number : List Char) : List Char :=
  (username ++ ':' :: password ++ '@' :: voipserver ++ '/' :: rewriteNumber voipserver number).take
    255

section Steps

variable {R : Type} [CFloat R] (cfg : Config R)

/-- `do_iaxc_call` with the number made for a station code. -/
def doIaxcCall (code : CStr 4) (number : List Char) (s : Client R) : Client R :=
  { s with
    placed := ⟨code, number, callDest cfg.username cfg.password cfg.voipserver number⟩ :: s.placed }

/-- `icao2number` followed by `do_iaxc_call` and `connected = 1`. -/
def placeCall (icao : CStr 4) (s : Client R) : Client R :=
  let (code, numBuf) := icao2number icao s.selectedFrequency
  { doIaxcCall cfg code numBuf s with connected := true }

/-- The scan of `check_special_frq`: up to the first entry that is not `>= 0.0`. -/
def specialScan (frq : R) : List R → Bool
  | [] => false
  | x :: rest =>
      if CFloat.le (CFloat.lit 0) x then
        if CFloat.eq frq x then true else specialScan frq rest
      else false

/-- `check_special_frq`. -/
def checkSpecialFrq (frq : R) : Bool := specialScan (ceilKhz frq) cfg.specialFrequencies.val

/-! ## Packets -/

/-- The frequency of the selected radio if that radio is serviceable, else the
previous selection. -/
def selectedBy (d : FgData R) (s : Client R) : R :=
  if s.comSelect = 0 ∧ d.com1Srv = 1 then d.com1Frq
  else if s.comSelect = 1 ∧ d.nav1Srv = 1 then d.nav1Frq
  else if s.comSelect = 2 ∧ d.com2Srv = 1 then d.com2Frq
  else if s.comSelect = 3 ∧ d.nav2Srv = 1 then d.nav2Frq
  else s.selectedFrequency

/-- The state once the packet is parsed and the selected frequency is taken over. -/
def takeData (d : FgData R) (s : Client R) : Client R :=
  { s with data := d, selectedFrequency := selectedBy d s }

/-- `previous_com_frequency != selected_frequency`. -/
def frequencyChanged (s : Client R) : Bool :=
  !CFloat.eq s.previousComFrequency s.selectedFrequency

/-- The lookup at the position of the flight data. -/
def icaoHere (s : Client R) : Option (CStr 4) :=
  icaobypos cfg.distance cfg.airportlist s.selectedFrequency s.data.lat s.data.lon defaultRange

/-- The frequency-change branch of `process_packet`: hang up, look up, dial. -/
def retune (s : Client R) : Option (Client R) :=
  if frequencyChanged s then
    let s := { s with previousComFrequency := s.selectedFrequency }
    let s := if s.connected then { s with connected := false } else s
    -- dialled whatever the lookup yields, the empty code too
    (icaoHere cfg s).map fun icao => placeCall cfg icao s
  else some s

/-- `ptt`: the microphone opens for mode 1 and closes for any other mode; the speaker follows unless
the frequency is special. -/
def ptt (mode : ℤ) (s : Client R) : Client R :=
  if mode = 1 then
    let s := { s with inputLevel := cfg.levelIn }
    if !checkSpecialFrq cfg s.selectedFrequency then { s with outputLevel := CFloat.lit 0 } else s
  else
    let s := { s with inputLevel := CFloat.lit 0 }
    if !checkSpecialFrq cfg s.selectedFrequency then { s with outputLevel := cfg.levelOut } else s

/-- The PTT branch of `process_packet`: the value 2 selects the next radio (the sum wraps at four),
any other change goes to `ptt` if the client is connected. -/
def pttChange (s : Client R) : Client R :=
  if s.previousPtt ≠ s.data.ptt then
    let s :=
      if s.data.ptt = 2 then { s with comSelect := s.comSelect + 1 }
      else if s.connected then ptt cfg s.data.ptt s
      else s
    -- remembered even when `ptt` was not called
    { s with previousPtt := s.data.ptt }
  else s

/-- `process_packet`. -/
def processPacket (buf : List Char) (s : Client R) : Option (Client R) :=
  (parsePacket s.data buf).bind fun d => (retune cfg (takeData d s)).map (pttChange cfg)

/-! ## Timer and callback -/

/-- The code `alarm_handler` finds for the selected frequency at the current position. -/
def alarmIcao (s : Client R) : Option (CStr 4) :=
  if checkSpecialFrq cfg s.selectedFrequency then some zzzz else icaoHere cfg s

/-- `alarm_handler`: out of range hangs up, in range and not connected dials. -/
def alarmHandler (s : Client R) : Option (Client R) :=
  (alarmIcao cfg s).map fun icao =>
    if icao.val.length = 0 ∧ s.connected = true then { s with connected := false }
    else if icao.val.length ≠ 0 ∧ s.connected = false then placeCall cfg icao s
    else s

/-- `event_state`: a call whose state is 0, free, clears the flag, whichever call it is. -/
def eventState (state : ℤ) (s : Client R) : Client R :=
  if state = 0 then { s with connected := false } else s

/-! ## Runs -/

/-- What can happen to the client between two rounds of its loop. -/
inductive Event
  | packet (buf : List Char)
  | alarm
  | state (state : ℤ)
  deriving DecidableEq

/-- One step of the client. -/
def step (s : Client R) : Event → Option (Client R)
  | .packet buf => processPacket cfg buf s
  | .alarm => alarmHandler cfg s
  | .state state => some (eventState state s)

/-- The state in which `main` enters the loop of mode 1: microphone off, speaker on. -/
def Client.start : Client R where
  data := FgData.zero
  connected := false
  selectedFrequency := CFloat.lit 0
  previousComFrequency := CFloat.lit 0
  previousPtt := 0
  comSelect := 0
  inputLevel := CFloat.lit 0
  outputLevel := cfg.levelOut
  placed := []

/-! ## What a step does -/

variable {cfg}

/-- A packet step parses, retunes and then looks at the push-to-talk key. -/
theorem processPacket_eq_some {buf : List Char} {s t : Client R}
    (h : processPacket cfg buf s = some t) :
    ∃ d u, parsePacket s.data buf = some d ∧ retune cfg (takeData d s) = some u ∧
      t = pttChange cfg u := by
  obtain ⟨d, hd, h⟩ := Option.bind_eq_some_iff.mp h
  obtain ⟨u, hu, rfl⟩ := Option.map_eq_some_iff.mp h
  exact ⟨d, u, hd, hu, rfl⟩

/-- Retuning keeps the selection when the frequency did not change, and otherwise places the call of
the station found, whatever call was up before. -/
theorem retune_eq_some {s u : Client R} (h : retune cfg s = some u) :
    (frequencyChanged s = false ∧ u = s) ∨
      (frequencyChanged s = true ∧ ∃ icao, icaoHere cfg s = some icao ∧
        u = placeCall cfg icao
          { s with previousComFrequency := s.selectedFrequency, connected := false }) := by
  rw [retune] at h
  cases hc : frequencyChanged s with
  | false =>
      rw [hc, if_neg (by decide)] at h
      exact Or.inl ⟨rfl, (Option.some.inj h).symm⟩
  | true =>
      rw [hc, if_pos rfl] at h
      obtain ⟨icao, hicao, rfl⟩ := Option.map_eq_some_iff.mp h
      refine Or.inr ⟨rfl, icao, ?_, ?_⟩
      · split at hicao <;> exact hicao
      · cases hcon : s.connected with
        | false => simp
        | true => simp

/-- A timer tick hangs up, dials, or leaves everything as it is. -/
theorem alarmHandler_eq_some {s t : Client R} (h : alarmHandler cfg s = some t) :
    ∃ icao, alarmIcao cfg s = some icao ∧
      ((icao.val.length = 0 ∧ s.connected = true ∧ t = { s with connected := false }) ∨
        (icao.val.length ≠ 0 ∧ s.connected = false ∧ t = placeCall cfg icao s) ∨
        ((icao.val.length = 0 ↔ s.connected = false) ∧ t = s)) := by
  obtain ⟨icao, hicao, rfl⟩ := Option.map_eq_some_iff.mp h
  refine ⟨icao, hicao, ?_⟩
  cases hc : s.connected <;> by_cases hl : icao.val.length = 0 <;> simp [hl]

/-- A call just placed is connected, and nothing but the list of calls has changed. -/
theorem placeCall_eq (icao : CStr 4) (s : Client R) :
    placeCall cfg icao s
      = { s with
          connected := true
          placed :=
            ⟨(icao2number icao s.selectedFrequency).1, (icao2number icao s.selectedFrequency).2,
              callDest cfg.username cfg.password cfg.voipserver
                (icao2number icao s.selectedFrequency).2⟩ :: s.placed } := rfl

/-- Retuning leaves the flight data, the key and the microphone alone, remembers the selected
frequency, and leaves the client connected if it was or if the frequency changed. -/
theorem retune_frame {s u : Client R} (h : retune cfg s = some u) :
    u.data = s.data ∧ u.previousPtt = s.previousPtt ∧ u.inputLevel = s.inputLevel ∧
      u.selectedFrequency = s.selectedFrequency ∧
      u.previousComFrequency = s.selectedFrequency ∧
      u.connected = (frequencyChanged s || s.connected) := by
  rcases retune_eq_some h with ⟨hc, rfl⟩ | ⟨hc, icao, -, rfl⟩
  · -- unchanged frequencies compare equal, so they are the same
    have hsame : u.previousComFrequency = u.selectedFrequency := by
      apply CFloat.eq_sound
      simpa [frequencyChanged] using hc
    exact ⟨rfl, rfl, rfl, rfl, hsame, by rw [hc, Bool.false_or]⟩
  · exact ⟨rfl, rfl, rfl, rfl, rfl, by rw [hc, Bool.true_or]; rfl⟩

/-- A timer tick leaves the flight data, the key, the microphone and the frequencies alone. -/
theorem alarmHandler_frame {s t : Client R} (h : alarmHandler cfg s = some t) :
    t.data = s.data ∧ t.previousPtt = s.previousPtt ∧ t.inputLevel = s.inputLevel ∧
      t.selectedFrequency = s.selectedFrequency ∧
      t.previousComFrequency = s.previousComFrequency := by
  obtain ⟨icao, -, ⟨-, -, rfl⟩ | ⟨-, -, rfl⟩ | ⟨-, rfl⟩⟩ := alarmHandler_eq_some h
  all_goals exact ⟨rfl, rfl, rfl, rfl, rfl⟩

/-- Neither retuning nor a timer tick touches the speaker. -/
theorem retune_outputLevel {s u : Client R} (h : retune cfg s = some u) :
    u.outputLevel = s.outputLevel := by
  rcases retune_eq_some h with ⟨-, rfl⟩ | ⟨-, icao, -, rfl⟩ <;> rfl

theorem alarmHandler_outputLevel {s t : Client R} (h : alarmHandler cfg s = some t) :
    t.outputLevel = s.outputLevel := by
  obtain ⟨icao, -, ⟨-, -, rfl⟩ | ⟨-, -, rfl⟩ | ⟨-, rfl⟩⟩ := alarmHandler_eq_some h <;> rfl

/-- `ptt` sets the microphone by its mode and touches nothing else but the speaker. -/
theorem ptt_eq (mode : ℤ) (s : Client R) :
    ∃ level, ptt cfg mode s
      = { s with
          inputLevel := if mode = 1 then cfg.levelIn else CFloat.lit 0
          outputLevel := level } := by
  rw [ptt]
  by_cases hm : mode = 1
  · rw [if_pos hm, if_pos hm]
    cases hspecial : checkSpecialFrq cfg s.selectedFrequency with
    | true => exact ⟨s.outputLevel, by simp [hspecial]⟩
    | false => exact ⟨CFloat.lit 0, by simp [hspecial]⟩
  · rw [if_neg hm, if_neg hm]
    cases hspecial : checkSpecialFrq cfg s.selectedFrequency with
    | true => exact ⟨s.outputLevel, by simp [hspecial]⟩
    | false => exact ⟨cfg.levelOut, by simp [hspecial]⟩

/-- `ptt` sets the speaker by its mode too, but only while the frequency is not special. -/
theorem ptt_outputLevel (mode : ℤ) (s : Client R) :
    (ptt cfg mode s).outputLevel
      = if checkSpecialFrq cfg s.selectedFrequency = true then s.outputLevel
        else if mode = 1 then CFloat.lit 0 else cfg.levelOut := by
  rw [ptt]
  by_cases hm : mode = 1
  · rw [if_pos hm, if_pos hm]
    cases hspecial : checkSpecialFrq cfg s.selectedFrequency <;> simp [hspecial]
  · rw [if_neg hm, if_neg hm]
    cases hspecial : checkSpecialFrq cfg s.selectedFrequency <;> simp [hspecial]

/-- The PTT branch leaves the flight data, the connection, the frequencies and the calls alone, and
remembers the key. -/
theorem pttChange_frame (cfg : Config R) (s : Client R) :
    (pttChange cfg s).data = s.data ∧ (pttChange cfg s).connected = s.connected ∧
      (pttChange cfg s).selectedFrequency = s.selectedFrequency ∧
      (pttChange cfg s).previousComFrequency = s.previousComFrequency ∧
      (pttChange cfg s).placed = s.placed ∧ (pttChange cfg s).previousPtt = s.data.ptt := by
  rw [pttChange]
  by_cases hp : s.previousPtt = s.data.ptt
  · rw [if_neg (not_not.mpr hp)]
    exact ⟨rfl, rfl, rfl, rfl, rfl, hp⟩
  · obtain ⟨level, hptt⟩ : ∃ level, ptt cfg s.data.ptt s = _ := ptt_eq s.data.ptt s
    rw [if_pos hp, hptt]
    split_ifs <;> exact ⟨rfl, rfl, rfl, rfl, rfl, rfl⟩

/-- The PTT branch sets the microphone when the key changed, is not 2 and the client
is connected. -/
theorem pttChange_inputLevel (s : Client R) :
    (pttChange cfg s).inputLevel
      = if s.previousPtt ≠ s.data.ptt ∧ s.data.ptt ≠ 2 ∧ s.connected = true then
          if s.data.ptt = 1 then cfg.levelIn else CFloat.lit 0
        else s.inputLevel := by
  rw [pttChange]
  by_cases hp : s.previousPtt = s.data.ptt
  · rw [if_neg (not_not.mpr hp), if_neg fun h => h.1 hp]
  · rw [if_pos hp]
    by_cases h2 : s.data.ptt = 2
    · rw [if_pos h2, if_neg fun h => h.2.1 h2]
    · rw [if_neg h2]
      by_cases hc : s.connected = true
      · obtain ⟨level, hptt⟩ : ∃ level, ptt cfg s.data.ptt s = _ := ptt_eq s.data.ptt s
        rw [if_pos hc, if_pos ⟨hp, h2, hc⟩, hptt]
      · rw [if_neg hc, if_neg fun h => hc h.2.2]

/-- The PTT branch sets the speaker when it sets the microphone and the frequency is not special. -/
theorem pttChange_outputLevel (s : Client R) :
    (pttChange cfg s).outputLevel
      = if s.previousPtt ≠ s.data.ptt ∧ s.data.ptt ≠ 2 ∧ s.connected = true
            ∧ checkSpecialFrq cfg s.selectedFrequency = false then
          if s.data.ptt = 1 then CFloat.lit 0 else cfg.levelOut
        else s.outputLevel := by
  rw [pttChange]
  by_cases hp : s.previousPtt = s.data.ptt
  · rw [if_neg (not_not.mpr hp), if_neg fun h => h.1 hp]
  · rw [if_pos hp]
    by_cases h2 : s.data.ptt = 2
    · rw [if_pos h2, if_neg fun h => h.2.1 h2]
    · rw [if_neg h2]
      by_cases hc : s.connected = true
      · rw [if_pos hc]
        refine (ptt_outputLevel s.data.ptt s).trans ?_
        cases hspecial : checkSpecialFrq cfg s.selectedFrequency with
        | true => simp
        | false => simp [hp, h2, hc]
      · rw [if_neg hc, if_neg fun h => hc h.2.2.1]

end Steps

/-! ## A small world -/

/-- Distance in kilometres between two places on one meridian, at 111 km to the degree. -/
def meridianDistance (lat1 _lon1 lat2 _lon2 : ℚ) : ℚ := 111 * |lat1 - lat2|

/-- The code of a station used in examples. -/
def eddf : CStr 4 := ⟨['E', 'D', 'D', 'F'], by decide⟩

/-- The type of a VOR. -/
def vorType : CStr 32 := ⟨['V', 'O', 'R'], by decide⟩

/-- Two stations on 118.5 MHz, four degrees apart, in a list whose last entry is never looked at,
and one special frequency. -/
def twoStations : Config ℚ where
  airportlist :=
    [⟨eddf, 1185 / 10, 50, 8, ⟨['T', 'W', 'R'], by decide⟩, ⟨['F'], by decide⟩⟩,
      ⟨⟨['E', 'K', 'C', 'H'], by decide⟩, 1185 / 10, 54, 8, ⟨['T', 'W', 'R'], by decide⟩,
        ⟨['K'], by decide⟩⟩,
      ⟨⟨['Z'], by decide⟩, 112, 0, 0, vorType, ⟨['Z'], by decide⟩⟩]
  specialFrequencies := ⟨[12345 / 100, -1], -1, by simp, by decide +kernel⟩
  distance := meridianDistance
  levelIn := 1
  levelOut := 1
  username := "guest".toList
  password := "guest".toList
  voipserver := "fgcom.flightgear.org".toList

end Fgcom
