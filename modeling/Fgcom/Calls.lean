import Fgcom.Client
import Fgcom.Lib.EventRun

/-! # Which station is called

Two places dial: the frequency-change branch of `process_packet` and `alarm_handler`. The timer
looks at the special frequencies first and dials only for a station it found; the packet branch
dials whatever the lookup yields, and an empty code becomes `ZZZZ` on the way.

* **`packet_and_alarm_dial_alike_iff`** — in which situations the two dial alike.
* **`CallPlaced`** — the invariant of a connected client: the last number dialled is the one of its
  code on the frequency now selected. The code itself is not looked at again:
  `call_kept_to_station` says what the timer would have to find for the call to be the
  right one. -/

namespace Fgcom

open EventRun

variable {R : Type} [CFloat R]

/-! ## The decision to dial -/

/-- The numbers dialled between two states, the latest first. -/
def dialled (s t : Client R) : List (List Char) :=
  (t.placed.take (t.placed.length - s.placed.length)).map PlacedCall.number

/-- What the frequency-change branch of `process_packet` dials. -/
def packetDials (cfg : Config R) (s : Client R) : Option (List (List Char)) :=
  (retune cfg s).map (dialled s)

/-- What `alarm_handler` dials when it is entered with no call up. -/
def alarmDials (cfg : Config R) (s : Client R) : Option (List (List Char)) :=
  (alarmHandler cfg { s with connected := false }).map (dialled s)

/-- What should be dialled: the `ZZZZ` number on a special frequency, the number of the station in
range on any other, and nothing when there is none. -/
def stationDials (cfg : Config R) (s : Client R) : Option (List (List Char)) :=
  if checkSpecialFrq cfg s.selectedFrequency then
    some [(icao2number zzzz s.selectedFrequency).2]
  else
    (icaoHere cfg s).map fun icao =>
      if icao = noIcao then [] else [(icao2number icao s.selectedFrequency).2]

/-- The situations in which the two places dial alike: on a special frequency, no station in range
or one whose code is `ZZZZ` itself; on any other frequency, anything but no station in range. -/
def DialAlike (cfg : Config R) (s : Client R) : Prop :=
  if checkSpecialFrq cfg s.selectedFrequency then
    icaoHere cfg s = some noIcao ∨ icaoHere cfg s = some zzzz
  else icaoHere cfg s ≠ some noIcao

omit [CFloat R] in
/-- Nothing is dialled where the list of calls stays as it is. -/
theorem dialled_of_placed_eq {s t : Client R} (h : t.placed = s.placed) : dialled s t = [] := by
  rw [dialled, h, Nat.sub_self, List.take_zero, List.map_nil]

/-- Placing a call dials its number. -/
theorem dialled_placeCall {cfg : Config R} {s s' : Client R} (h : s'.placed = s.placed)
    (icao : CStr 4) :
    dialled s (placeCall cfg icao s') = [(icao2number icao s'.selectedFrequency).2] := by
  rw [placeCall_eq]
  unfold dialled
  show List.map _ (List.take ((_ :: s'.placed).length - s.placed.length) (_ :: s'.placed)) = _
  rw [h, List.length_cons, show s.placed.length + 1 - s.placed.length = 1 by omega]
  rfl

/-- A code is empty when it is the empty code. -/
theorem length_eq_zero_iff_noIcao (icao : CStr 4) : icao.val.length = 0 ↔ icao = noIcao := by
  rw [List.length_eq_zero_iff]
  exact ⟨fun h => Subtype.ext h, fun h => h ▸ rfl⟩

/-- With no call up a timer tick dials the station found and does nothing else. -/
theorem alarmHandler_idle {cfg : Config R} {s : Client R} (hidle : s.connected = false) :
    alarmHandler cfg s
      = (alarmIcao cfg s).map fun icao => if icao = noIcao then s else placeCall cfg icao s := by
  unfold alarmHandler
  congr 1
  funext icao
  have hup : ¬ s.connected = true := by rw [hidle]; decide
  -- the hang-up branch is out, for nothing is up
  rw [if_neg fun h => hup h.2]
  by_cases hempty : icao = noIcao
  · rw [if_pos hempty, if_neg fun h => h.1 ((length_eq_zero_iff_noIcao icao).mpr hempty)]
  · rw [if_neg hempty, if_pos ⟨fun h => hempty ((length_eq_zero_iff_noIcao icao).mp h), hidle⟩]

/-- **The timer dials what should be dialled.** -/
theorem alarmDials_eq (cfg : Config R) (s : Client R) : alarmDials cfg s = stationDials cfg s := by
  have hdial : ∀ icao : CStr 4,
      dialled s (if icao = noIcao then { s with connected := false }
          else placeCall cfg icao { s with connected := false })
        = if icao = noIcao then [] else [(icao2number icao s.selectedFrequency).2] := by
    intro icao
    by_cases hempty : icao = noIcao
    · rw [if_pos hempty, if_pos hempty]
      exact dialled_of_placed_eq rfl
    · rw [if_neg hempty, if_neg hempty]
      exact dialled_placeCall rfl icao
  have hlookup : alarmIcao cfg { s with connected := false } = alarmIcao cfg s := rfl
  rw [alarmDials, alarmHandler_idle rfl, Option.map_map, hlookup]
  simp only [Function.comp_def, hdial]
  unfold alarmIcao stationDials
  by_cases hspecial : checkSpecialFrq cfg s.selectedFrequency = true
  · have hzzzz : zzzz ≠ noIcao := by decide
    rw [if_pos hspecial, if_pos hspecial, Option.map_some, if_neg hzzzz]
  · rw [if_neg hspecial, if_neg hspecial]

/-- **The packet branch dials the lookup's answer**, whatever it is. -/
theorem packetDials_eq {cfg : Config R} {s : Client R} (hchanged : frequencyChanged s = true) :
    packetDials cfg s
      = (icaoHere cfg s).map fun icao => [(icao2number icao s.selectedFrequency).2] := by
  unfold packetDials
  cases hu : retune cfg s with
  | none =>
      -- the lookup itself has no defined answer
      unfold retune at hu
      rw [if_pos hchanged] at hu
      have hnone : icaoHere cfg s = none := by
        have := Option.map_eq_none_iff.mp hu
        split at this <;> exact this
      rw [hnone]
      rfl
  | some u =>
      rcases retune_eq_some hu with ⟨hsame, -⟩ | ⟨-, icao, hicao, rfl⟩
      · exact absurd (hsame.symm.trans hchanged) (by decide)
      · rw [hicao, Option.map_some, Option.map_some]
        congr 1
        exact dialled_placeCall rfl icao

/-- **When the two places dial alike.** The timer always dials what should be dialled; the packet
branch does so in the situations of `DialAlike` and in no others. -/
theorem packet_and_alarm_dial_alike_iff (cfg : Config R) (s : Client R)
    (hchanged : frequencyChanged s = true) :
    alarmDials cfg s = stationDials cfg s ∧
      (packetDials cfg s = alarmDials cfg s ↔ DialAlike cfg s) := by
  refine ⟨alarmDials_eq cfg s, ?_⟩
  rw [alarmDials_eq, packetDials_eq hchanged]
  unfold stationDials DialAlike
  by_cases hspecial : checkSpecialFrq cfg s.selectedFrequency = true
  · rw [if_pos hspecial, if_pos hspecial]
    cases icaoHere cfg s with
    | none => simp
    | some icao =>
        -- no other code has the number of `ZZZZ`
        rw [Option.map_some, Option.some_inj, List.singleton_inj, icao2number_eq_zzzz_iff,
          Option.some_inj, Option.some_inj]
  · rw [if_neg hspecial, if_neg hspecial]
    cases icaoHere cfg s with
    | none => simp
    | some icao => by_cases hempty : icao = noIcao <;> simp [hempty]

/-- In range of a station on its frequency both places dial it. -/
theorem packet_and_alarm_dial_alike_in_range :
    let s : Client ℚ :=
      { Client.start twoStations with
        selectedFrequency := 1185 / 10
        data := { FgData.zero with lat := 50, lon := 8 } }
    alarmDials twoStations s = stationDials twoStations s ∧
      (packetDials twoStations s = alarmDials twoStations s ↔ DialAlike twoStations s) :=
  packet_and_alarm_dial_alike_iff twoStations _ (by decide +kernel)

/-- **A call to nobody**: with no station in range the packet branch dials `ZZZZ`, the timer
nothing. -/
theorem packet_dials_out_of_range :
    let s : Client ℚ := { Client.start twoStations with selectedFrequency := 1185 / 10 }
    frequencyChanged s = true ∧
      packetDials twoStations s = some ["0190909090118500".toList] ∧
      alarmDials twoStations s = some [] := by
  decide +kernel

/-! ## Keeping a call -/

/-- The invariant of a run: the remembered frequency is the selected one, and while the client is
connected the last number dialled is the number of the code it was made for on that frequency. -/
structure CallPlaced (s : Client R) : Prop where
  frequency : s.previousComFrequency = s.selectedFrequency
  call : s.connected = true →
    ∃ c ∈ s.placed.head?, c.number = (icao2number c.code s.selectedFrequency).2

/-- A timer tick that finds a call up finds no station any more, or the station the call was placed
to. Other steps are free. -/
def StationKept (cfg : Config R) (s : Client R) : Event → Prop
  | .alarm =>
      s.connected = true → ∀ icao ∈ alarmIcao cfg s,
        icao = noIcao ∨ ∃ c ∈ s.placed.head?, c.code = icao
  | .packet _ => True
  | .state _ => True

instance (cfg : Config R) (s : Client R) : ∀ e, Decidable (StationKept cfg s e)
  | .alarm => inferInstanceAs (Decidable (s.connected = true → ∀ icao ∈ alarmIcao cfg s, _))
  | .packet _ => isTrue trivial
  | .state _ => isTrue trivial

/-- The code left in `icao` has the number that was made. -/
theorem icao2number_code (icao : CStr 4) (frequency : R) :
    (icao2number (icao2number icao frequency).1 frequency).2 = (icao2number icao frequency).2 := by
  by_cases hempty : icao = noIcao
  · rw [hempty]
    rfl
  · have hlen : icao.val.length ≠ 0 := fun h => hempty ((length_eq_zero_iff_noIcao icao).mp h)
    have hcode : (icao2number icao frequency).1 = icao := if_neg hlen
    rw [hcode]

/-- A call just placed has the number of its code. -/
theorem callPlaced_placeCall {cfg : Config R} {s : Client R} (icao : CStr 4)
    (hfrq : s.previousComFrequency = s.selectedFrequency) : CallPlaced (placeCall cfg icao s) := by
  rw [placeCall_eq]
  refine ⟨hfrq, fun _ => ⟨_, rfl, ?_⟩⟩
  exact (icao2number_code icao s.selectedFrequency).symm

/-- Nothing is connected at the start. -/
theorem callPlaced_start (cfg : Config R) : CallPlaced (Client.start cfg) where
  frequency := rfl
  call := fun h => absurd h Bool.false_ne_true

/-- A packet keeps the invariant: a changed frequency is dialled anew, and an unchanged one is the
one the call was placed on. -/
theorem callPlaced_processPacket {cfg : Config R} {buf : List Char} {s t : Client R}
    (hs : CallPlaced s) (h : processPacket cfg buf s = some t) : CallPlaced t := by
  obtain ⟨d, u, -, hu, rfl⟩ := processPacket_eq_some h
  have hcall : CallPlaced u := by
    rcases retune_eq_some hu with ⟨hsame, rfl⟩ | ⟨-, icao, -, rfl⟩
    · -- the call stays, and the frequency it was placed on too
      have hfrq : s.previousComFrequency = (takeData d s).selectedFrequency := by
        apply CFloat.eq_sound
        simpa [frequencyChanged, takeData] using hsame
      refine ⟨hfrq, fun hup => ?_⟩
      rw [← hfrq, hs.frequency]
      exact hs.call hup
    · exact callPlaced_placeCall icao rfl
  obtain ⟨-, hcon, hsel, hprev, hplaced, -⟩ := pttChange_frame cfg u
  refine ⟨by rw [hsel, hprev, hcall.frequency], fun hup => ?_⟩
  rw [hplaced, hsel]
  exact hcall.call (hcon.symm.trans hup)

/-- **One step keeps the invariant**, whatever the event. -/
theorem callPlaced_step {cfg : Config R} {s t : Client R} {e : Event} (hs : CallPlaced s)
    (h : step cfg s e = some t) : CallPlaced t := by
  cases e with
  | packet buf => exact callPlaced_processPacket hs h
  | alarm =>
      obtain ⟨icao, -, ⟨-, -, rfl⟩ | ⟨-, -, rfl⟩ | ⟨-, rfl⟩⟩ := alarmHandler_eq_some h
      · exact ⟨hs.frequency, fun hup => absurd hup Bool.false_ne_true⟩
      · exact callPlaced_placeCall icao hs.frequency
      · exact hs
  | state state =>
      obtain rfl := Option.some.inj h
      unfold eventState
      split
      · exact ⟨hs.frequency, fun hup => absurd hup Bool.false_ne_true⟩
      · exact hs

/-- **After a timer tick that found the old station or none, the call is to the station
in range.** -/
theorem call_after_alarm {cfg : Config R} {s t : Client R} (hs : CallPlaced s)
    (hkept : StationKept cfg s .alarm) (h : alarmHandler cfg s = some t)
    (hup : t.connected = true) :
    ∃ icao ∈ alarmIcao cfg t, ∃ c ∈ t.placed.head?,
      c.number = (icao2number icao t.selectedFrequency).2 := by
  obtain ⟨icao, hicao, ⟨-, -, rfl⟩ | ⟨-, -, rfl⟩ | ⟨hlen, rfl⟩⟩ := alarmHandler_eq_some h
  · exact absurd hup Bool.false_ne_true
  · exact ⟨icao, hicao, _, rfl, rfl⟩
  · obtain ⟨c, hc, hnum⟩ := hs.call hup
    rcases hkept hup icao hicao with rfl | ⟨c', hc', rfl⟩
    · -- no station was found, yet the call is up: the tick would have hung up
      have hdown := hlen.mp rfl
      exact absurd (hdown.symm.trans hup) (by decide)
    · -- the station found is the one the call was placed to
      obtain rfl : c = c' := Option.some.inj (hc.symm.trans hc')
      exact ⟨c.code, hicao, c, hc, hnum⟩

/-- **A call is kept to the station in range**, along every run in which no timer tick finds a call
up and another station in range than the one it was placed to. -/
theorem call_kept_to_station {cfg : Config R} {es : List Event}
    (hkept : StepsMeet (step cfg) (StationKept cfg) (Client.start cfg) es) :
    ∀ x ∈ transitions (step cfg) (Client.start cfg) es, x.2.1 = .alarm → x.2.2.connected = true →
      ∃ icao ∈ alarmIcao cfg x.2.2, ∃ c ∈ x.2.2.placed.head?,
        c.number = (icao2number icao x.2.2.selectedFrequency).2 := by
  have hkeep : ∀ s e t, CallPlaced s → StationKept cfg s e → step cfg s e = some t → CallPlaced t :=
    fun s e t hs _ h => callPlaced_step hs h
  intro x hx halarm hup
  obtain ⟨hs, hok, h, -⟩ := transitions_invariant hkeep (callPlaced_start cfg) hkept x hx
  rw [halarm] at hok h
  exact call_after_alarm hs hok h hup

/-- A flight out of the range of a station and back. -/
def thereAndBack : List Event :=
  [.packet "COM1_FRQ=118.5,COM1_SRV=1,LAT=50,LON=8\n".toList, .alarm, .packet "LAT=52\n".toList,
    .alarm, .packet "LAT=50.5\n".toList, .alarm]

/-- Leaving the range of a station hangs up, and coming back dials it again. -/
theorem call_kept_to_station_there_and_back :
    StepsMeet (step twoStations) (StationKept twoStations) (Client.start twoStations) thereAndBack ∧
      ∀ x ∈ transitions (step twoStations) (Client.start twoStations) thereAndBack,
        x.2.1 = .alarm → x.2.2.connected = true →
          ∃ icao ∈ alarmIcao twoStations x.2.2, ∃ c ∈ x.2.2.placed.head?,
            c.number = (icao2number icao x.2.2.selectedFrequency).2 := by
  have hkept : StepsMeet (step twoStations) (StationKept twoStations) (Client.start twoStations)
      thereAndBack := by decide +kernel
  exact ⟨hkept, call_kept_to_station hkept⟩

/-- **A call kept to the station left behind**: after a flight into the range of another station on
the same frequency the tick finds the new code and keeps the old call. -/
theorem call_kept_to_station_left_behind :
    ∃ x ∈ transitions (step twoStations) (Client.start twoStations)
      [.packet "COM1_FRQ=118.5,COM1_SRV=1,LAT=50,LON=8\n".toList, .alarm,
        .packet "LAT=54\n".toList, .alarm],
      x.2.1 = .alarm ∧ x.2.2.connected = true ∧
        ∀ icao ∈ alarmIcao twoStations x.2.2, ∀ c ∈ x.2.2.placed.head?,
          icao.val = "EKCH".toList ∧ c.code.val = "EDDF".toList ∧
            c.number ≠ (icao2number icao x.2.2.selectedFrequency).2 := by
  decide +kernel

end Fgcom
