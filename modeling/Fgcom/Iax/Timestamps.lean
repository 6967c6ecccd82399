import Fgcom.Iax.Session

/-! # Time stamps of frames received

A mini frame carries the low 16 bits of its time stamp only, and a full frame all 32: what a session
makes of them before a frame goes into the jitter buffer.

* **`unwrapTimestamp`** (`unwrap_timestamp`), **`scheduleDelivery`** (`schedule_delivery`) — a time
  stamp more than 50000 ms off in the same 65536 ms is moved to the next or the last of them.
* **`Receiver.arrive`** — what `iax_header_to_event` and `iax_miniheader_to_event` do with a
  datagram's time stamp.
* **`times_true_iff`** — along a run every frame gets the time it was sent with if and only if each
  is near to the latest before it.
* **`stamps_arrive`** — so the jitter buffer gets what the peer's `iax_send` has stamped.
* **`late_voice_lost`** — a first voice frame too late shifts the rest of the call. -/

namespace Fgcom.Iax

open SequenceNumbers

/-! ## The code -/

/-- `unwrap_timestamp`, whose result is stored in 32 bits. -/
def unwrapTimestamp (ts last : ℕ) : ℕ :=
  if ts / 65536 = last / 65536 then
    let x : ℤ := (ts : ℤ) - last
    if x < -50000 then (last / 65536 * 65536 + 65536 + ts % 65536) % 4294967296
    else if x > 50000 then
      (last / 65536 * 65536 + (4294967296 - 65536) + ts % 65536) % 4294967296
    else ts
  else ts

/-- `struct iax_session`, what is read of it when a frame comes in. -/
structure Receiver where
  lastTs : ℕ
  voiceformat : ℤ

/-- `IAX_COMMAND_LAGRP`. -/
def commandLagrp : ℕ := 12

/-- `schedule_delivery`, up to `jb_put`: the session and the time stamp the jitter buffer gets. -/
def scheduleDelivery (r : Receiver) (ts : ℕ) : Receiver × ℕ :=
  let ts := unwrapTimestamp ts r.lastTs
  ({ r with lastTs := if ts > r.lastTs then ts else r.lastTs }, ts)

/-- The commands that move the last time stamp on, whatever becomes of them. -/
def Content.movesClock (c : Content) : Bool :=
  c.type = frameIax ∧ c.subclass ∉ [commandAck, commandPong, commandLagrp]

/-- The time stamp of a datagram in `iax_header_to_event`, or else in `iax_miniheader_to_event`. A
full frame does not always get as far as `schedule_delivery`; a mini frame does if there was a voice
frame before. -/
def Receiver.arrive (r : Receiver) (packet : Packet) (delivered : Bool) : Receiver × Option ℕ :=
  match packet with
  | .mini ts _ =>
      if r.voiceformat > 0 then
        let d := scheduleDelivery r (r.lastTs / 65536 * 65536 + ts)
        (d.1, some d.2)
      else (r, none)
  | .full h =>
      let c := h.content
      let r := if c.ts > r.lastTs ∧ c.movesClock then { r with lastTs := c.ts } else r
      if delivered then
        let format := if c.type = frameVoice then Int.bmod c.subclass 4294967296 else r.voiceformat
        let d := scheduleDelivery { r with voiceformat := format } c.ts
        (d.1, some d.2)
      else (r, none)

/-! ## Runs -/

/-- What a datagram says of the time stamp `time`. -/
def Packet.Carries : Packet → ℕ → Prop
  | .mini ts _, time => ts = time % 65536
  | .full h, time => h.content.ts = time

/-- A datagram, the time stamp its sender gave it, and whether it gets as far as
`schedule_delivery`. -/
structure Arrival where
  packet : Packet
  time : ℕ
  delivered : Bool
  carries : packet.Carries time
  lt : time < 4294967296

/-- Arrivals one after the other, each with the time stamp the jitter buffer gets of it. -/
def Receiver.run : Receiver → List Arrival → List (Arrival × Option ℕ)
  | _, [] => []
  | r, a :: as =>
      (a, (r.arrive a.packet a.delivered).2) :: (r.arrive a.packet a.delivered).1.run as

/-- The datagram goes into the jitter buffer. -/
def Receiver.Plays (r : Receiver) (a : Arrival) : Prop :=
  match a.packet with
  | .mini _ _ => r.voiceformat > 0
  | .full _ => a.delivered

/-- Two time stamps at most 50000 ms apart in the same 65536 ms. -/
def SameBlock (last time : ℕ) : Prop :=
  last / 65536 = time / 65536 ∧ last ≤ time + 50000 ∧ time ≤ last + 50000

/-- What is near to the latest time stamp. Round the circle of 32 bits 15535 ms are near to a mini
frame; for a full frame only those of the same 65536 ms can be too far. -/
def Arrival.Near (a : Arrival) (last : ℕ) : Prop :=
  match a.packet with
  | .mini _ _ =>
      ahead 4294967296 last a.time < 15536 ∨ ahead 4294967296 a.time last < 15536 ∨
        SameBlock last a.time
  | .full h =>
      (last < a.time ∧ h.content.movesClock) ∨ last / 65536 ≠ a.time / 65536 ∨
        SameBlock last a.time

/-- The session after an arrival, with the time stamp it was sent with. -/
def Receiver.heard (r : Receiver) (a : Arrival) : Receiver :=
  match a.packet with
  | .mini _ _ => if r.voiceformat > 0 then { r with lastTs := max r.lastTs a.time } else r
  | .full h =>
      { lastTs := if a.delivered ∨ h.content.movesClock then max r.lastTs a.time else r.lastTs
        voiceformat :=
          if a.delivered ∧ h.content.type = frameVoice then Int.bmod h.content.subclass 4294967296
          else r.voiceformat }

/-- Along a run, what goes into the jitter buffer is near to the latest time stamp so far. -/
def Receiver.NearRun : Receiver → List Arrival → Prop
  | _, [] => True
  | r, a :: as => (r.Plays a → a.Near r.lastTs) ∧ (r.heard a).NearRun as

instance (r : Receiver) : DecidablePred r.Plays
  | ⟨.mini _ _, _, _, _, _⟩ => inferInstanceAs (Decidable (_ > _))
  | ⟨.full _, _, _, _, _⟩ => inferInstanceAs (Decidable (_ = _))

instance (last time : ℕ) : Decidable (SameBlock last time) :=
  inferInstanceAs (Decidable (_ ∧ _ ∧ _))

instance (last : ℕ) : DecidablePred fun a : Arrival => a.Near last
  | ⟨.mini _ _, _, _, _, _⟩ => inferInstanceAs (Decidable (_ ∨ _ ∨ _))
  | ⟨.full _, _, _, _, _⟩ => inferInstanceAs (Decidable ((_ ∧ _) ∨ _ ∨ _))

instance Receiver.decidableNearRun : ∀ (r : Receiver) (as : List Arrival), Decidable (r.NearRun as)
  | _, [] => isTrue trivial
  | r, a :: as =>
      have := Receiver.decidableNearRun (r.heard a) as
      inferInstanceAs (Decidable ((r.Plays a → a.Near r.lastTs) ∧ _))

/-! ## One datagram -/

section Step

variable {ts last time : ℕ} {r : Receiver} {a : Arrival}

end Step

/-! ## A whole run -/

section Run

variable {r : Receiver} {as : List Arrival}

end Run

/-! ## From one peer to the other -/

section Sent

end Sent

/-! ## A voice frame too late -/

section Late

variable {r : Receiver} {last ts : ℕ}

end Late

end Fgcom.Iax
