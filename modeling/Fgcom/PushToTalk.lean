import Fgcom.Client
import Fgcom.Lib.EventRun

/-! # Push to talk

The microphone is to be open while the key is held and closed otherwise. `ptt` switches it, but
`process_packet` calls `ptt` only when the value of the key changed, is not 2 and the client is
connected, and remembers the new value in any case: a change that `ptt` did not see is never made
up for.

* **`PttHeard`** — the packets whose change of the key reaches the microphone, or needs not to.
* **`MicFollowsKey`** — the invariant: the remembered key is the key, and the microphone is where
  the key wants it, connected or not. `micFollowsKey_step_iff`: exactly the steps of `PttHeard`
  keep it.
* **`mic_follows_key`** — along every run of such steps. -/

namespace Fgcom

open EventRun

variable {R : Type} [CFloat R]

/-- The level the microphone should have for a value of the key. -/
def micLevel (cfg : Config R) (key : ℤ) : R := if key = 1 then cfg.levelIn else CFloat.lit 0

/-- The key's change in a packet is heard: the packet presses or releases the key (its value becomes
or ceases to be 1) only with a value other than 2 and while the client is connected, or connects
because the same packet changes the frequency. Timer ticks and callbacks do not touch the key. -/
def PttHeard (s : Client R) : Event → Prop
  | .packet buf =>
      ∀ d ∈ parsePacket s.data buf,
        (d.ptt = 1 ↔ s.previousPtt = 1) ∨
          (d.ptt ≠ 2 ∧ (frequencyChanged (takeData d s) || s.connected) = true)
  | .alarm => True
  | .state _ => True

instance (s : Client R) : ∀ e, Decidable (PttHeard s e)
  | .packet buf => inferInstanceAs (Decidable (∀ d ∈ parsePacket s.data buf, _))
  | .alarm => isTrue trivial
  | .state _ => isTrue trivial

/-- The invariant: the remembered key is the key of the last packet, and the microphone has the
level that key asks for. -/
structure MicFollowsKey (cfg : Config R) (s : Client R) : Prop where
  key : s.previousPtt = s.data.ptt
  mic : s.inputLevel = micLevel cfg s.data.ptt

/-- The client starts with the key released and the microphone closed. -/
theorem micFollowsKey_start (cfg : Config R) : MicFollowsKey cfg (Client.start cfg) where
  key := rfl
  mic := by
    have h0 : (0 : ℤ) ≠ 1 := by decide
    exact (if_neg h0).symm

/-- What a packet step leaves of the key and the microphone. -/
theorem processPacket_mic {cfg : Config R} {buf : List Char} {s t : Client R}
    (h : processPacket cfg buf s = some t) :
    ∃ d, parsePacket s.data buf = some d ∧ t.data = d ∧ t.previousPtt = d.ptt ∧
      t.inputLevel
        = if s.previousPtt ≠ d.ptt ∧ d.ptt ≠ 2
              ∧ (frequencyChanged (takeData d s) || s.connected) = true then
            micLevel cfg d.ptt
          else s.inputLevel := by
  obtain ⟨d, u, hd, hu, rfl⟩ := processPacket_eq_some h
  obtain ⟨hdata, hkey, hmic, -, -, hcon⟩ := retune_frame hu
  obtain ⟨hdata', -, -, -, -, hkey'⟩ := pttChange_frame cfg u
  have hud : u.data = d := hdata
  refine ⟨d, hd, hdata'.trans hud, by rw [hkey', hud], ?_⟩
  rw [pttChange_inputLevel, hkey, hcon, hmic, hud]
  rfl

/-- Two values of the key ask for the same level when both are 1 or neither is. -/
theorem micLevel_eq_iff {cfg : Config R} (hlevel : cfg.levelIn ≠ CFloat.lit 0) (a b : ℤ) :
    micLevel cfg a = micLevel cfg b ↔ (b = 1 ↔ a = 1) := by
  unfold micLevel
  by_cases ha : a = 1 <;> by_cases hb : b = 1 <;> simp [ha, hb, hlevel, Ne.symm hlevel]

/-- **One step.** A step keeps the invariant exactly when the key's change is heard. -/
theorem micFollowsKey_step_iff {cfg : Config R} (hlevel : cfg.levelIn ≠ CFloat.lit 0)
    {s t : Client R} {e : Event} (hs : MicFollowsKey cfg s) (h : step cfg s e = some t) :
    MicFollowsKey cfg t ↔ PttHeard s e := by
  cases e with
  | packet buf =>
      obtain ⟨d, hd, rfl, hkey, hmic⟩ := processPacket_mic h
      have hinv : MicFollowsKey cfg t ↔ t.inputLevel = micLevel cfg t.data.ptt :=
        ⟨MicFollowsKey.mic, fun hm => ⟨hkey, hm⟩⟩
      have hheard : PttHeard s (.packet buf) ↔ (t.data.ptt = 1 ↔ s.previousPtt = 1) ∨
          (t.data.ptt ≠ 2 ∧ (frequencyChanged (takeData t.data s) || s.connected) = true) := by
        simp [PttHeard, hd]
      rw [hinv, hheard, hmic, hs.mic, ← hs.key]
      split
      · -- `ptt` was called, so the microphone is where the new key wants it
        rename_i hcall
        exact iff_of_true rfl (Or.inr hcall.2)
      · -- `ptt` was not called: the microphone is where the old key wanted it
        rename_i hcall
        rw [micLevel_eq_iff hlevel]
        constructor
        · exact Or.inl
        · rintro (hsame | hheard)
          · exact hsame
          · have heq : s.previousPtt = t.data.ptt := not_not.mp fun hne => hcall ⟨hne, hheard⟩
            rw [heq]
  | alarm =>
      obtain ⟨hdata, hkey, hmic, -, -⟩ := alarmHandler_frame h
      refine iff_of_true ⟨?_, ?_⟩ trivial
      · rw [hkey, hdata, hs.key]
      · rw [hmic, hdata, hs.mic]
  | state state =>
      obtain rfl := Option.some.inj h
      refine iff_of_true ?_ trivial
      unfold eventState
      split
      · exact ⟨hs.key, hs.mic⟩
      · exact hs

/-- **The microphone is open while the key is held and closed otherwise**, in every state of every
run in which each change of the key is heard: a connected client has the level that the last
packet's key asks for, and an open microphone means that key is 1. -/
theorem mic_follows_key {cfg : Config R} (hlevel : cfg.levelIn ≠ CFloat.lit 0) {es : List Event}
    (hheard : StepsMeet (step cfg) PttHeard (Client.start cfg) es) :
    ∀ t ∈ trail (step cfg) (Client.start cfg) es, t.connected = true →
      t.inputLevel = (if t.data.ptt = 1 then cfg.levelIn else CFloat.lit 0) ∧
        (t.inputLevel ≠ CFloat.lit 0 → t.data.ptt = 1) := by
  have hkeep : ∀ s e t, MicFollowsKey cfg s → PttHeard s e → step cfg s e = some t →
      MicFollowsKey cfg t := fun s e t hs hok h => (micFollowsKey_step_iff hlevel hs h).mpr hok
  intro t ht _
  have hmic := (trail_invariant hkeep (micFollowsKey_start cfg) hheard t ht).mic
  refine ⟨hmic, fun hopen => ?_⟩
  by_contra hkey
  exact hopen (hmic.trans (if_neg hkey))

/-- The key pressed and released while connected, with a radio change and a timer tick between. -/
def pressAndRelease : List Event :=
  [.packet "COM1_FRQ=118.5,COM1_SRV=1,LAT=50,LON=8,PTT=1\n".toList, .alarm,
    .packet "COM1_FRQ=123.45\n".toList, .packet "PTT=0\n".toList]

/-- The microphone follows the key through `pressAndRelease`. -/
theorem mic_follows_key_press_and_release :
    StepsMeet (step twoStations) PttHeard (Client.start twoStations) pressAndRelease ∧
      ∀ t ∈ trail (step twoStations) (Client.start twoStations) pressAndRelease,
        t.connected = true →
          t.inputLevel = (if t.data.ptt = 1 then twoStations.levelIn else CFloat.lit 0) ∧
          (t.inputLevel ≠ CFloat.lit 0 → t.data.ptt = 1) := by
  have hheard : StepsMeet (step twoStations) PttHeard (Client.start twoStations)
      pressAndRelease := by
    decide +kernel
  exact ⟨hheard, mic_follows_key (by decide +kernel) hheard⟩

/-- **An open microphone with the key released**: the key is pressed, the call is dropped by the
other side, the key is released, and the next timer tick dials again. -/
theorem mic_open_with_key_released :
    ∃ t ∈ trail (step twoStations) (Client.start twoStations)
      [.packet "COM1_FRQ=118.5,COM1_SRV=1,LAT=50,LON=8,PTT=1\n".toList, .state 0,
        .packet "PTT=0\n".toList, .alarm],
      t.connected = true ∧ t.data.ptt = 0 ∧ t.inputLevel = twoStations.levelIn ∧
        t.inputLevel ≠ CFloat.lit 0 := by
  decide +kernel

end Fgcom
