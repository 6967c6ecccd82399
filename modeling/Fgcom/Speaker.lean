import Fgcom.Client
import Fgcom.Lib.EventRun

/-! # The speaker

Pressing the key mutes the speaker and releasing it brings the speaker back, but `ptt` looks at the
frequency selected at that moment and leaves the speaker alone while it is special; and
`process_packet` does not call `ptt` at all for the value 2 or without a connection. So a press on
an ordinary frequency needs a release that `ptt` sees on an ordinary frequency.

* **`ReleaseHeard`** — the packets that bring a muted speaker back, or need not to.
* **`SpeakerBack`** — the invariant: the remembered key is the key, and with the key released the
  speaker has its level, connected or not. `speakerBack_step_iff`: exactly the steps of
  `ReleaseHeard` keep it.
* **`speaker_comes_back`** — along every run of such steps. -/

namespace Fgcom

open EventRun

variable {R : Type} [CFloat R]

/-- A release is heard by the speaker: when a packet takes the key away from 1 and the speaker is
not at its level, the new value is not 2, the client is connected, or connects because the same
packet changes the frequency, and the frequency then selected is not special. Timer ticks and
callbacks do not touch the key. -/
def ReleaseHeard (cfg : Config R) (s : Client R) : Event → Prop
  | .packet buf =>
      ∀ d ∈ parsePacket s.data buf,
        s.previousPtt = 1 → d.ptt ≠ 1 →
          s.outputLevel = cfg.levelOut ∨
            (d.ptt ≠ 2 ∧ (frequencyChanged (takeData d s) || s.connected) = true ∧
              checkSpecialFrq cfg (takeData d s).selectedFrequency = false)
  | .alarm => True
  | .state _ => True

instance [DecidableEq R] (cfg : Config R) (s : Client R) : ∀ e, Decidable (ReleaseHeard cfg s e)
  | .packet buf => inferInstanceAs (Decidable (∀ d ∈ parsePacket s.data buf, _))
  | .alarm => isTrue trivial
  | .state _ => isTrue trivial

/-- The invariant: the remembered key is the key of the last packet, and the speaker has its level
unless that key is 1. -/
structure SpeakerBack (cfg : Config R) (s : Client R) : Prop where
  key : s.previousPtt = s.data.ptt
  speaker : s.data.ptt ≠ 1 → s.outputLevel = cfg.levelOut

/-- The client starts with the key released and the speaker on. -/
theorem speakerBack_start (cfg : Config R) : SpeakerBack cfg (Client.start cfg) where
  key := rfl
  speaker _ := rfl

/-- What a packet step leaves of the key and the speaker. -/
theorem processPacket_speaker {cfg : Config R} {buf : List Char} {s t : Client R}
    (h : processPacket cfg buf s = some t) :
    ∃ d, parsePacket s.data buf = some d ∧ t.data = d ∧ t.previousPtt = d.ptt ∧
      t.outputLevel
        = if s.previousPtt ≠ d.ptt ∧ d.ptt ≠ 2
              ∧ (frequencyChanged (takeData d s) || s.connected) = true
              ∧ checkSpecialFrq cfg (takeData d s).selectedFrequency = false then
            if d.ptt = 1 then CFloat.lit 0 else cfg.levelOut
          else s.outputLevel := by
  obtain ⟨d, u, hd, hu, rfl⟩ := processPacket_eq_some h
  obtain ⟨hdata, hkey, -, hfrq, -, hcon⟩ := retune_frame hu
  have hspeaker : u.outputLevel = (takeData d s).outputLevel := retune_outputLevel hu
  obtain ⟨hdata', -, -, -, -, hkey'⟩ := pttChange_frame cfg u
  have hud : u.data = d := hdata
  refine ⟨d, hd, hdata'.trans hud, by rw [hkey', hud], ?_⟩
  rw [pttChange_outputLevel, hkey, hcon, hspeaker, hfrq, hud]
  rfl

/-- **One step.** A step keeps the invariant exactly when the release is heard. -/
theorem speakerBack_step_iff {cfg : Config R} {s t : Client R} {e : Event}
    (hs : SpeakerBack cfg s) (h : step cfg s e = some t) :
    SpeakerBack cfg t ↔ ReleaseHeard cfg s e := by
  cases e with
  | packet buf =>
      obtain ⟨d, hd, rfl, hkey, hspeaker⟩ := processPacket_speaker h
      have hinv : SpeakerBack cfg t ↔ (t.data.ptt ≠ 1 → t.outputLevel = cfg.levelOut) :=
        ⟨SpeakerBack.speaker, fun hout => ⟨hkey, hout⟩⟩
      have hheard : ReleaseHeard cfg s (.packet buf) ↔
          (s.previousPtt = 1 → t.data.ptt ≠ 1 → s.outputLevel = cfg.levelOut ∨
            (t.data.ptt ≠ 2 ∧ (frequencyChanged (takeData t.data s) || s.connected) = true ∧
              checkSpecialFrq cfg (takeData t.data s).selectedFrequency = false)) := by
        simp [ReleaseHeard, hd]
      rw [hinv, hheard, hspeaker]
      constructor
      · -- a speaker that is back was at its level or was set by this release
        intro hback hpressed hreleased
        have hback := hback hreleased
        split at hback
        · rename_i hcall
          exact Or.inr hcall.2
        · exact Or.inl hback
      · intro hok hreleased
        rw [if_neg hreleased]
        split
        · rfl
        · -- `ptt` left the speaker alone: it had its level before
          rename_i hcall
          by_cases hpressed : s.previousPtt = 1
          · rcases hok hpressed hreleased with hlevel | hset
            · exact hlevel
            · have hne : s.previousPtt ≠ t.data.ptt := fun heq => hreleased (heq ▸ hpressed)
              exact absurd ⟨hne, hset⟩ hcall
          · exact hs.speaker (hs.key ▸ hpressed)
  | alarm =>
      obtain ⟨hdata, hkey, -, -, -⟩ := alarmHandler_frame h
      refine iff_of_true ⟨?_, ?_⟩ trivial
      · rw [hkey, hdata, hs.key]
      · rw [hdata, alarmHandler_outputLevel h]
        exact hs.speaker
  | state state =>
      obtain rfl := Option.some.inj h
      refine iff_of_true ?_ trivial
      unfold eventState
      split
      · exact ⟨hs.key, hs.speaker⟩
      · exact hs

/-- **The speaker comes back after every transmission**: in every state of every run whose releases
are all heard, a connected client whose last packet has the key at another value than 1 has the
speaker at its level. -/
theorem speaker_comes_back {cfg : Config R} {es : List Event}
    (hheard : StepsMeet (step cfg) (ReleaseHeard cfg) (Client.start cfg) es) :
    ∀ t ∈ trail (step cfg) (Client.start cfg) es,
      t.connected = true → t.data.ptt ≠ 1 → t.outputLevel = cfg.levelOut := by
  have hkeep : ∀ s e t, SpeakerBack cfg s → ReleaseHeard cfg s e → step cfg s e = some t →
      SpeakerBack cfg t := fun s e t hs hok h => (speakerBack_step_iff hs h).mpr hok
  intro t ht _ hkey
  have hback := trail_invariant hkeep (speakerBack_start cfg) hheard t ht
  exact hback.speaker hkey

/-- A press on an ordinary frequency, a detour over the special one with the key held, the release
on the ordinary frequency again, and a press and a release on the special one. -/
def transmissions : List Event :=
  [.packet "COM1_FRQ=118.5,COM1_SRV=1,LAT=50,LON=8,PTT=1\n".toList,
    .packet "COM1_FRQ=123.45\n".toList, .alarm, .packet "COM1_FRQ=118.5,PTT=0\n".toList,
    .packet "COM1_FRQ=123.45\n".toList, .packet "PTT=1\n".toList, .packet "PTT=0\n".toList]

/-- The speaker comes back after each of the `transmissions`. -/
theorem speaker_comes_back_after_transmissions :
    StepsMeet (step twoStations) (ReleaseHeard twoStations) (Client.start twoStations)
        transmissions ∧
      ∀ t ∈ trail (step twoStations) (Client.start twoStations) transmissions,
        t.connected = true → t.data.ptt ≠ 1 → t.outputLevel = twoStations.levelOut := by
  have hheard : StepsMeet (step twoStations) (ReleaseHeard twoStations)
      (Client.start twoStations) transmissions := by
    decide +kernel
  exact ⟨hheard, speaker_comes_back hheard⟩

/-- **A speaker left muted**: the key is pressed on an ordinary frequency, and the packet that
releases it has the radio on the special one. -/
theorem speaker_left_muted :
    0 < twoStations.levelOut ∧
      ∃ t ∈ trail (step twoStations) (Client.start twoStations)
        [.packet "COM1_FRQ=118.5,COM1_SRV=1,LAT=50,LON=8,PTT=1\n".toList,
          .packet "COM1_FRQ=123.45,PTT=0\n".toList],
        t.connected = true ∧ t.data.ptt = 0 ∧ t.outputLevel ≠ twoStations.levelOut := by
  decide +kernel

end Fgcom
