import Fgcom.Iax.JitterHistory

/-! # The jitter buffer

`jitterbuf.c`, over a history of delays (`DelayHistory`) and a queue of frames (`FrameQueue`): what
the code does with the two is the same whatever they are made of.

* **`jbPut`** — a frame comes from the network. A voice frame's delay is recorded (`historyPut`);
  after four sudden jumps of the delay in a row the buffer is resynchronised, and the first three
  frames of a jump are refused.
* **`jbGet`** — a frame is due. The buffer grows by asking for an interpolated frame, shrinks by
  dropping one, and hands the frames out by their time; after a silence it starts anew.
* **`Call`**, **`jbCall`** — the calls of the interface, and what each does and answers.

Times and counters are `long` in the code, but for `hist_ptr`, an `int` that counts every voice
frame since the history was last started. Here all of them are unbounded, and memory can always be
had. -/

namespace Fgcom.Jitter

/-! ## Frames and statistics -/

/-- `JB_TYPE_CONTROL`, `JB_TYPE_VOICE`, `JB_TYPE_VIDEO`, `JB_TYPE_SILENCE`. -/
inductive FrameType
  | control
  | voice
  | video
  | silence
deriving DecidableEq, Repr

/-- `struct jb_frame` without its links. In the queue, `ts` is the receiver's time. -/
structure Frame (δ : Type*) where
  data : δ
  ts : ℤ
  ms : ℤ
  type : FrameType
deriving DecidableEq

/-- `struct jb_conf`. -/
structure Conf where
  maxJitterbuf : ℤ
  resyncThreshold : ℤ
  maxContigInterp : ℤ
  targetExtra : ℤ
deriving DecidableEq

/-- `struct jb_info`. -/
structure Info where
  conf : Conf
  framesIn : ℤ
  framesOut : ℤ
  framesLate : ℤ
  framesLost : ℤ
  framesDropped : ℤ
  framesOoo : ℤ
  framesCur : ℤ
  jitter : ℤ
  min : ℤ
  current : ℤ
  target : ℤ
  losspct : ℤ
  nextVoiceTs : ℤ
  lastVoiceMs : ℤ
  silenceBeginTs : ℤ
  lastAdjustment : ℤ
  lastDelay : ℤ
  cntDelayDiscont : ℤ
  resyncOffset : ℤ
  cntContigInterp : ℤ
deriving DecidableEq

/-- The return codes. -/
inductive Code
  | ok
  | empty
  | noframe
  | interp
  | drop
  | sched
deriving DecidableEq, Repr

/-- What the jitter buffer asks of a queue of frames: put a frame in, look at the first one and at
the time of the last one, and take the first one out. -/
class FrameQueue (φ : Type*) (δ : outParam Type*) where
  insert : φ → Frame δ → φ
  first : φ → Option (Frame δ)
  lastTs : φ → Option ℤ
  drop : φ → φ

/-- `struct jitterbuf`. -/
structure JitterBuf (φ η : Type*) where
  info : Info
  frames : φ
  hist : η

variable {φ η δ : Type*} [FrameQueue φ δ] [DelayHistory η]

/-! ## Putting -/

/-- `JB_TARGET_EXTRA`. -/
def targetExtraDefault : ℤ := 40

/-- `JB_ADJUST_DELAY`. -/
def adjustDelay : ℤ := 40

/-- `abs` on a `long`: the argument is cut to an `int`, and the smallest `int` has no positive
counterpart. -/
def intAbs (x : ℤ) : ℤ :=
  let y := x.bmod 4294967296
  if y = -2147483648 then y else y.natAbs

/-- `increment_losspct`. -/
def Info.incrementLosspct (i : Info) : Info :=
  { i with losspct := (100000 + 499 * i.losspct).tdiv 500 }

/-- `decrement_losspct`. -/
def Info.decrementLosspct (i : Info) : Info := { i with losspct := (499 * i.losspct).tdiv 500 }

/-- `jb_reset`: only the settings survive. -/
def Info.reset (conf : Conf) : Info where
  conf := conf
  framesIn := 0
  framesOut := 0
  framesLate := 0
  framesLost := 0
  framesDropped := 0
  framesOoo := 0
  framesCur := 0
  jitter := 0
  min := 0
  current := targetExtraDefault
  target := targetExtraDefault
  losspct := 0
  nextVoiceTs := 0
  lastVoiceMs := 0
  silenceBeginTs := -1
  lastAdjustment := 0
  lastDelay := 0
  cntDelayDiscont := 0
  resyncOffset := 0
  cntContigInterp := 0

/-- `history_put`, and whether the frame is refused. -/
def historyPut (jb : JitterBuf φ η) (ts now : ℤ) : JitterBuf φ η × Bool :=
  let delay := now - (ts - jb.info.resyncOffset)
  let threshold := 2 * jb.info.jitter + jb.info.conf.resyncThreshold
  if ts ≤ 0 then (jb, false)
  else if jb.info.conf.resyncThreshold ≠ -1 then
    if intAbs (delay - jb.info.lastDelay) > threshold then
      if jb.info.cntDelayDiscont + 1 > 3 then
        -- the buffer is resynchronised: this frame is right on time
        ({ jb with
            info := { jb.info with cntDelayDiscont := 0, resyncOffset := ts - now, lastDelay := 0 }
            hist := DelayHistory.record (DelayHistory.restart jb.hist) 0 }, false)
      else
        ({ jb with info := { jb.info with cntDelayDiscont := jb.info.cntDelayDiscont + 1 } }, true)
    else
      ({ jb with
          info := { jb.info with lastDelay := delay, cntDelayDiscont := 0 }
          hist := DelayHistory.record jb.hist delay }, false)
  else ({ jb with hist := DelayHistory.record jb.hist delay }, false)

/-- `queue_put`, and whether the frame is the first one now. The comparison for `frames_ooo` in the
last branch takes the sender's time. -/
def queuePut (jb : JitterBuf φ η) (data : δ) (type : FrameType) (ms ts : ℤ) :
    JitterBuf φ η × Bool :=
  let resyncTs := ts - jb.info.resyncOffset
  let frames := FrameQueue.insert jb.frames ⟨data, resyncTs, ms, type⟩
  let info := { jb.info with framesCur := jb.info.framesCur + 1 }
  match FrameQueue.first jb.frames with
  | none => ({ jb with info := info, frames := frames }, true)
  | some f =>
      if resyncTs < f.ts then
        ({ jb with info := { info with framesOoo := info.framesOoo + 1 }, frames := frames }, true)
      else if ts < (FrameQueue.lastTs jb.frames).getD (-1) then
        ({ jb with info := { info with framesOoo := info.framesOoo + 1 }, frames := frames }, false)
      else ({ jb with info := info, frames := frames }, false)

/-- `queue_next`. -/
def queueNext (jb : JitterBuf φ η) : ℤ := ((FrameQueue.first jb.frames).map Frame.ts).getD (-1)

/-- `queue_last`. -/
def queueLast (jb : JitterBuf φ η) : ℤ := (FrameQueue.lastTs jb.frames).getD (-1)

/-- `_queue_get`: the first frame if it is due, or in any case. -/
def queueGet (jb : JitterBuf φ η) (ts : ℤ) (all : Bool) : Option (Frame δ) × JitterBuf φ η :=
  match FrameQueue.first jb.frames with
  | none => (none, jb)
  | some f =>
      if all ∨ ts ≥ f.ts then
        (some f, { jb with
          info := { jb.info with framesCur := jb.info.framesCur - 1 }
          frames := FrameQueue.drop jb.frames })
      else (none, jb)

/-- `jb_put`. -/
def jbPut (jb : JitterBuf φ η) (data : δ) (type : FrameType) (ms ts now : ℤ) :
    JitterBuf φ η × Code :=
  let jb := { jb with info := { jb.info with framesIn := jb.info.framesIn + 1 } }
  let r := if type = .voice then historyPut jb ts now else (jb, false)
  if r.2 then (r.1, .drop)
  else
    let r := queuePut r.1 data type ms ts
    (r.1, if r.2 then .sched else .ok)

/-! ## Getting -/

/-- The measured `min` and `jitter`. -/
def Info.measured (i : Info) (m : ℤ × ℤ) : Info := { i with min := m.1, jitter := m.2 }

/-- `history_get`. -/
def historyGet (jb : JitterBuf φ η) : JitterBuf φ η :=
  let r := DelayHistory.report jb.hist
  { jb with hist := r.1, info := jb.info.measured r.2 }

/-- The new `target`, clamped if a hard clamp was requested. -/
def Info.retarget (i : Info) : Info :=
  let target := i.jitter + i.min + i.conf.targetExtra
  if i.conf.maxJitterbuf ≠ 0 ∧ target - i.min > i.conf.maxJitterbuf then
    { i with target := i.min + i.conf.maxJitterbuf }
  else { i with target := target }

/-- Silence is assumed instead of interpolating on and on. -/
def Info.assumeSilence (i : Info) : Info :=
  if i.conf.maxContigInterp ≠ 0 ∧ i.cntContigInterp ≥ i.conf.maxContigInterp then
    { i with silenceBeginTs := i.nextVoiceTs - i.current }
  else i

/-- `_jb_get` outside silence: grow by an interpolated frame. -/
def Info.grow (i : Info) (now interpl : ℤ) : Info :=
  Info.assumeSilence
    { i with
      current := i.current + interpl
      nextVoiceTs := i.nextVoiceTs + interpl
      lastVoiceMs := interpl
      lastAdjustment := now
      cntContigInterp := i.cntContigInterp + 1 }

/-- `_jb_get` outside silence, with a frame. -/
def Info.talkFrame (i : Info) (f : Frame δ) (diff now : ℤ) : Info × Code :=
  if f.type ≠ .voice then
    -- not a voice frame, which is handed out in any case; a silence may start
    let i :=
      if f.type = .silence then { i with silenceBeginTs := f.ts, cntContigInterp := 0 } else i
    ({ i with framesOut := i.framesOut + 1 }, .ok)
  else if f.ts + i.current < i.nextVoiceTs then
    if f.ts + i.current > i.nextVoiceTs - i.lastVoiceMs then
      -- interpolated past it, or in order but a little too quick
      ({ i.decrementLosspct with
          nextVoiceTs := f.ts + i.current + f.ms
          framesOut := i.framesOut + 1
          cntContigInterp := 0 }, .ok)
    else
      -- late
      ({ i.decrementLosspct with
          framesOut := i.framesOut + 1
          framesLate := i.framesLate + 1
          framesLost := i.framesLost - 1 }, .drop)
  else
    let i := if f.ms > 0 then { i with lastVoiceMs := f.ms } else i
    if diff < -i.conf.targetExtra ∧ i.lastAdjustment + 500 < now then
      -- shrink by the frame thrown out
      ({ i.decrementLosspct with
          lastAdjustment := now
          cntContigInterp := 0
          current := i.current - f.ms
          framesOut := i.framesOut + 1
          framesDropped := i.framesDropped + 1 }, .drop)
    else
      ({ i.decrementLosspct with
          nextVoiceTs := i.nextVoiceTs + f.ms
          framesOut := i.framesOut + 1
          cntContigInterp := 0 }, .ok)

/-- `_jb_get` outside silence, without a frame. -/
def Info.talkNone (i : Info) (diff now interpl : ℤ) : Info × Code :=
  if diff < -i.conf.targetExtra ∧ (i.lastAdjustment + 80 < now ∨ i.lastAdjustment + 500 < now) then
    ({ i.incrementLosspct with
        lastAdjustment := now
        cntContigInterp := 0
        current := i.current - i.lastVoiceMs
        framesLost := i.framesLost + 1 }, .noframe)
  else
    (Info.assumeSilence
      { i.incrementLosspct with
        framesLost := i.framesLost + 1
        nextVoiceTs := i.nextVoiceTs + interpl
        lastVoiceMs := interpl
        cntContigInterp := i.cntContigInterp + 1 }, .interp)

/-- `_jb_get` in silence: shrink every 10 ms. -/
def Info.silentShrink (i : Info) (diff now interpl : ℤ) : Info :=
  if diff < -i.conf.targetExtra ∧ i.lastAdjustment + 10 ≤ now then
    { i with current := i.current - interpl, lastAdjustment := now }
  else i

/-- `_jb_get` in silence, with a frame. -/
def Info.silentFrame (i : Info) (f : Frame δ) : Info × Code :=
  if f.type ≠ .voice then ({ i with framesOut := i.framesOut + 1 }, .ok)
  else if f.ts < i.silenceBeginTs then
    ({ i.decrementLosspct with
        framesOut := i.framesOut + 1
        framesLate := i.framesLate + 1
        framesLost := i.framesLost - 1 }, .drop)
  else
    -- the silence is over
    ({ i.decrementLosspct with
        current := i.target
        silenceBeginTs := 0
        nextVoiceTs := f.ts + i.target + f.ms
        lastVoiceMs := f.ms
        framesOut := i.framesOut + 1 }, .ok)

/-- `_jb_get` outside silence. -/
def jbTalk (jb : JitterBuf φ η) (diff now interpl : ℤ) :
    JitterBuf φ η × Code × Option (Frame δ) :=
  if diff > 0 ∧ (jb.info.lastAdjustment + adjustDelay < now ∨ diff > queueLast jb - queueNext jb)
  then ({ jb with info := jb.info.grow now interpl }, .interp, none)
  else
    match queueGet jb (jb.info.nextVoiceTs - jb.info.current) false with
    | (some f, jb) =>
        let r := jb.info.talkFrame f diff now
        ({ jb with info := r.1 }, r.2, some f)
    | (none, jb) =>
        let r := jb.info.talkNone diff now interpl
        ({ jb with info := r.1 }, r.2, none)

/-- `_jb_get` in silence. -/
def jbSilent (jb : JitterBuf φ η) (diff now interpl : ℤ) :
    JitterBuf φ η × Code × Option (Frame δ) :=
  let jb := { jb with info := jb.info.silentShrink diff now interpl }
  match queueGet jb (now - jb.info.current) false with
  | (some f, jb) =>
      let r := jb.info.silentFrame f
      ({ jb with info := r.1 }, r.2, some f)
  | (none, jb) => (jb, .noframe, none)

/-- `jb_get`: the code, and the frame where one is handed out. -/
def jbGet (jb : JitterBuf φ η) (now interpl : ℤ) :
    JitterBuf φ η × Code × Option (Frame δ) :=
  let jb := historyGet jb
  let jb := { jb with info := jb.info.retarget }
  let diff := jb.info.target - jb.info.current
  if jb.info.silenceBeginTs = 0 then jbTalk jb diff now interpl else jbSilent jb diff now interpl

/-- `jb_getall`. -/
def jbGetall (jb : JitterBuf φ η) : JitterBuf φ η × Code × Option (Frame δ) :=
  match queueGet jb 0 true with
  | (some f, jb) => (jb, .ok, some f)
  | (none, jb) => (jb, .noframe, none)

/-- `jb_next`. -/
def jbNext (jb : JitterBuf φ η) : ℤ :=
  if jb.info.silenceBeginTs ≠ 0 then
    if queueNext jb > 0 then
      if jb.info.target - jb.info.current < -jb.info.conf.targetExtra then
        jb.info.lastAdjustment + 10
      else queueNext jb + jb.info.target
    else longmax
  else jb.info.nextVoiceTs

/-- `jb_setconf`. -/
def jbSetconf (jb : JitterBuf φ η) (conf : Conf) : JitterBuf φ η :=
  let extra := if conf.targetExtra = -1 then targetExtraDefault else conf.targetExtra
  { jb with info := { jb.info with
      conf := { conf with targetExtra := extra }, current := extra, target := extra } }

/-! ## Runs of calls -/

/-- The calls of the interface between two resets. -/
inductive Call (δ : Type*)
  | put (data : δ) (type : FrameType) (ms ts now : ℤ)
  | get (now interpl : ℤ)
  | getall
  | getinfo
  | setconf (conf : Conf)
  | next

/-- What a call answers. -/
inductive Answer (δ : Type*)
  | code (c : Code) (frame : Option (Frame δ))
  | info (i : Info)
  | next (t : ℤ)
deriving DecidableEq

/-- One call: the state after it and the answer. -/
def jbCall (jb : JitterBuf φ η) : Call δ → JitterBuf φ η × Answer δ
  | .put data type ms ts now =>
      let r := jbPut jb data type ms ts now
      (r.1, .code r.2 none)
  | .get now interpl =>
      let r := jbGet jb now interpl
      (r.1, .code r.2.1 r.2.2)
  | .getall =>
      let r := jbGetall jb
      (r.1, .code r.2.1 r.2.2)
  | .getinfo => (historyGet jb, .info (historyGet jb).info)
  | .setconf conf => (jbSetconf jb conf, .code .ok none)
  | .next => (jb, .next (jbNext jb))

/-- The state after a run of calls. -/
def jbRun (jb : JitterBuf φ η) (calls : List (Call δ)) : JitterBuf φ η :=
  calls.foldl (fun jb c => (jbCall jb c).1) jb

/-- The answers of a run of calls. -/
def answers (jb : JitterBuf φ η) : List (Call δ) → List (Answer δ)
  | [] => []
  | c :: calls => (jbCall jb c).2 :: answers (jbCall jb c).1 calls

/-! ## Jitter buffers that answer alike -/

/-- Two queues that behave alike. -/
structure QueueSim {φ φ' δ : Type*} [FrameQueue φ δ] [FrameQueue φ' δ] (R : φ → φ' → Prop) :
    Prop where
  first : ∀ q q', R q q' → FrameQueue.first q = FrameQueue.first q'
  lastTs : ∀ q q', R q q' → FrameQueue.lastTs q = FrameQueue.lastTs q'
  insert : ∀ q q' (f : Frame δ), R q q' → R (FrameQueue.insert q f) (FrameQueue.insert q' f)
  drop : ∀ q q', R q q' → FrameQueue.first q ≠ none →
    R (FrameQueue.drop q) (FrameQueue.drop q')

/-- Two histories that behave alike. A restart is always followed by a delay. -/
structure HistorySim {η η' : Type*} [DelayHistory η] [DelayHistory η'] (H : η → η' → Prop) :
    Prop where
  record : ∀ h h' d, H h h' → H (DelayHistory.record h d) (DelayHistory.record h' d)
  restart : ∀ h h' d, H h h' →
    H (DelayHistory.record (DelayHistory.restart h) d)
      (DelayHistory.record (DelayHistory.restart h') d)
  report : ∀ h h', H h h' → H (DelayHistory.report h).1 (DelayHistory.report h').1 ∧
    (DelayHistory.report h).2 = (DelayHistory.report h').2

/-- Two jitter buffers with the same statistics, and queues and histories that correspond. -/
structure Alike {φ φ' η η' : Type*} (R : φ → φ' → Prop) (H : η → η' → Prop)
    (jb : JitterBuf φ η) (jb' : JitterBuf φ' η') : Prop where
  info : jb.info = jb'.info
  frames : R jb.frames jb'.frames
  hist : H jb.hist jb'.hist

namespace Alike

variable {φ φ' η η' δ : Type*} {R : φ → φ' → Prop} {H : η → η' → Prop}
variable {jb : JitterBuf φ η} {jb' : JitterBuf φ' η'}

/-- Only the statistics change. -/
theorem mapInfo (h : Alike R H jb jb') (f : Info → Info) :
    Alike R H { jb with info := f jb.info } { jb' with info := f jb'.info } :=
  ⟨congrArg f h.info, h.frames, h.hist⟩

section History

variable [DelayHistory η] [DelayHistory η']

theorem historyPut (h : Alike R H jb jb') (hh : HistorySim H) (ts now : ℤ) :
    Alike R H (historyPut jb ts now).1 (Jitter.historyPut jb' ts now).1 ∧
      (Jitter.historyPut jb ts now).2 = (Jitter.historyPut jb' ts now).2 := by
  obtain ⟨i, q, hist⟩ := jb
  obtain ⟨i', q', hist'⟩ := jb'
  obtain ⟨rfl, hq, hhist⟩ := h
  have hrec := hh.record _ _ (now - (ts - i.resyncOffset)) hhist
  unfold Jitter.historyPut
  dsimp only
  split_ifs
  · exact ⟨⟨rfl, hq, hhist⟩, rfl⟩
  · exact ⟨⟨rfl, hq, hh.restart _ _ 0 hhist⟩, rfl⟩
  · exact ⟨⟨rfl, hq, hhist⟩, rfl⟩
  · exact ⟨⟨rfl, hq, hrec⟩, rfl⟩
  · exact ⟨⟨rfl, hq, hrec⟩, rfl⟩

theorem historyGet (h : Alike R H jb jb') (hh : HistorySim H) :
    Alike R H (historyGet jb) (Jitter.historyGet jb') := by
  obtain ⟨hrep, heq⟩ := hh.report _ _ h.hist
  refine ⟨?_, h.frames, hrep⟩
  rw [Jitter.historyGet, Jitter.historyGet, heq, h.info]

end History

section Queue

variable [FrameQueue φ δ] [FrameQueue φ' δ]

theorem queuePut (h : Alike R H jb jb') (hq : QueueSim R) (data : δ) (type : FrameType)
    (ms ts : ℤ) :
    Alike R H (queuePut jb data type ms ts).1 (Jitter.queuePut jb' data type ms ts).1 ∧
      (Jitter.queuePut jb data type ms ts).2 = (Jitter.queuePut jb' data type ms ts).2 := by
  obtain ⟨i, q, hist⟩ := jb
  obtain ⟨i', q', hist'⟩ := jb'
  obtain ⟨rfl, hR, hhist⟩ := h
  have hins := hq.insert _ _ ⟨data, ts - i.resyncOffset, ms, type⟩ hR
  unfold Jitter.queuePut
  dsimp only
  rw [hq.first _ _ hR, hq.lastTs _ _ hR]
  cases FrameQueue.first q' with
  | none => exact ⟨⟨rfl, hins, hhist⟩, rfl⟩
  | some f =>
      dsimp only
      split_ifs <;> exact ⟨⟨rfl, hins, hhist⟩, rfl⟩

theorem queueGet (h : Alike R H jb jb') (hq : QueueSim R) (ts : ℤ) (all : Bool) :
    (queueGet jb ts all).1 = (Jitter.queueGet jb' ts all).1 ∧
      Alike R H (Jitter.queueGet jb ts all).2 (Jitter.queueGet jb' ts all).2 := by
  obtain ⟨i, q, hist⟩ := jb
  obtain ⟨i', q', hist'⟩ := jb'
  obtain ⟨rfl, hR, hhist⟩ := h
  have hdrop := hq.drop _ _ hR
  unfold Jitter.queueGet
  dsimp only
  rw [hq.first _ _ hR] at hdrop ⊢
  cases hf : FrameQueue.first q' with
  | none => exact ⟨rfl, rfl, hR, hhist⟩
  | some f =>
      dsimp only
      rw [hf] at hdrop
      split_ifs
      · exact ⟨rfl, rfl, hdrop (Option.some_ne_none f), hhist⟩
      · exact ⟨rfl, rfl, hR, hhist⟩

theorem queueNext (h : Alike R H jb jb') (hq : QueueSim R) :
    queueNext jb = Jitter.queueNext jb' := by
  rw [Jitter.queueNext, Jitter.queueNext, hq.first _ _ h.frames]

theorem queueLast (h : Alike R H jb jb') (hq : QueueSim R) :
    queueLast jb = Jitter.queueLast jb' := by
  rw [Jitter.queueLast, Jitter.queueLast, hq.lastTs _ _ h.frames]

theorem jbTalk (h : Alike R H jb jb') (hq : QueueSim R) (diff now interpl : ℤ) :
    Alike R H (jbTalk jb diff now interpl).1 (Jitter.jbTalk jb' diff now interpl).1 ∧
      (Jitter.jbTalk jb diff now interpl).2 = (Jitter.jbTalk jb' diff now interpl).2 := by
  unfold Jitter.jbTalk
  rw [h.info, h.queueLast hq, h.queueNext hq]
  split_ifs
  · exact ⟨⟨rfl, h.frames, h.hist⟩, rfl⟩
  · obtain ⟨hframe, halike⟩ :=
      h.queueGet hq (jb'.info.nextVoiceTs - jb'.info.current) false
    rcases hg : Jitter.queueGet jb (jb'.info.nextVoiceTs - jb'.info.current) false with ⟨o, a⟩
    rcases hg' : Jitter.queueGet jb' (jb'.info.nextVoiceTs - jb'.info.current) false with ⟨o', a'⟩
    rw [hg, hg'] at hframe halike
    obtain rfl : o = o' := hframe
    have hinfo : a.info = a'.info := halike.info
    cases o with
    | none =>
        dsimp only
        rw [hinfo]
        exact ⟨⟨rfl, halike.frames, halike.hist⟩, rfl⟩
    | some f =>
        dsimp only
        rw [hinfo]
        exact ⟨⟨rfl, halike.frames, halike.hist⟩, rfl⟩

theorem jbSilent (h : Alike R H jb jb') (hq : QueueSim R) (diff now interpl : ℤ) :
    Alike R H (jbSilent jb diff now interpl).1 (Jitter.jbSilent jb' diff now interpl).1 ∧
      (Jitter.jbSilent jb diff now interpl).2 = (Jitter.jbSilent jb' diff now interpl).2 := by
  unfold Jitter.jbSilent
  have hs := h.mapInfo fun i => i.silentShrink diff now interpl
  generalize { jb with info := jb.info.silentShrink diff now interpl } = b at hs
  generalize { jb' with info := jb'.info.silentShrink diff now interpl } = b' at hs
  dsimp only
  rw [hs.info]
  obtain ⟨hframe, halike⟩ := hs.queueGet hq (now - b'.info.current) false
  rcases hg : Jitter.queueGet b (now - b'.info.current) false with ⟨o, a⟩
  rcases hg' : Jitter.queueGet b' (now - b'.info.current) false with ⟨o', a'⟩
  rw [hg, hg'] at hframe halike
  obtain rfl : o = o' := hframe
  have hinfo : a.info = a'.info := halike.info
  cases o with
  | none => exact ⟨halike, rfl⟩
  | some f =>
      dsimp only
      rw [hinfo]
      exact ⟨⟨rfl, halike.frames, halike.hist⟩, rfl⟩

theorem jbGetall (h : Alike R H jb jb') (hq : QueueSim R) :
    Alike R H (jbGetall jb).1 (Jitter.jbGetall jb').1 ∧
      (Jitter.jbGetall jb).2 = (Jitter.jbGetall jb').2 := by
  unfold Jitter.jbGetall
  obtain ⟨hframe, halike⟩ := h.queueGet hq 0 true
  rcases hg : Jitter.queueGet jb 0 true with ⟨o, a⟩
  rcases hg' : Jitter.queueGet jb' 0 true with ⟨o', a'⟩
  rw [hg, hg'] at hframe halike
  obtain rfl : o = o' := hframe
  cases o <;> exact ⟨halike, rfl⟩

theorem jbNext (h : Alike R H jb jb') (hq : QueueSim R) : jbNext jb = Jitter.jbNext jb' := by
  rw [Jitter.jbNext, Jitter.jbNext, h.queueNext hq, h.info]

variable [DelayHistory η] [DelayHistory η']

theorem jbPut (h : Alike R H jb jb') (hq : QueueSim R) (hh : HistorySim H) (data : δ)
    (type : FrameType) (ms ts now : ℤ) :
    Alike R H (jbPut jb data type ms ts now).1 (Jitter.jbPut jb' data type ms ts now).1 ∧
      (Jitter.jbPut jb data type ms ts now).2 = (Jitter.jbPut jb' data type ms ts now).2 := by
  unfold Jitter.jbPut
  have hin := h.mapInfo fun i => { i with framesIn := i.framesIn + 1 }
  generalize { jb with info := { jb.info with framesIn := jb.info.framesIn + 1 } } = b at hin
  generalize { jb' with info := { jb'.info with framesIn := jb'.info.framesIn + 1 } } = b' at hin
  have hrec : Alike R H (if type = .voice then Jitter.historyPut b ts now else (b, false)).1
        (if type = .voice then Jitter.historyPut b' ts now else (b', false)).1 ∧
      (if type = .voice then Jitter.historyPut b ts now else (b, false)).2 =
        (if type = .voice then Jitter.historyPut b' ts now else (b', false)).2 := by
    split_ifs
    · exact hin.historyPut hh ts now
    · exact ⟨hin, rfl⟩
  dsimp only
  generalize (if type = .voice then Jitter.historyPut b ts now else (b, false)) = r at hrec
  generalize (if type = .voice then Jitter.historyPut b' ts now else (b', false)) = r' at hrec
  obtain ⟨halike, hrefused⟩ := hrec
  obtain ⟨hput, hhead⟩ := halike.queuePut hq data type ms ts
  rw [hrefused, hhead]
  split_ifs
  · exact ⟨halike, rfl⟩
  · exact ⟨hput, rfl⟩
  · exact ⟨hput, rfl⟩

theorem jbGet (h : Alike R H jb jb') (hq : QueueSim R) (hh : HistorySim H) (now interpl : ℤ) :
    Alike R H (jbGet jb now interpl).1 (Jitter.jbGet jb' now interpl).1 ∧
      (Jitter.jbGet jb now interpl).2 = (Jitter.jbGet jb' now interpl).2 := by
  unfold Jitter.jbGet
  have hg := (h.historyGet hh).mapInfo Info.retarget
  generalize Jitter.historyGet jb = b at hg
  generalize Jitter.historyGet jb' = b' at hg
  have hinfo : b.info.retarget = b'.info.retarget := hg.info
  dsimp only at hg ⊢
  rw [hinfo] at hg ⊢
  split_ifs
  · exact hg.jbTalk hq _ now interpl
  · exact hg.jbSilent hq _ now interpl

/-- **One call** answers the same and leaves the two alike. -/
theorem jbCall (h : Alike R H jb jb') (hq : QueueSim R) (hh : HistorySim H) (c : Call δ) :
    Alike R H (jbCall jb c).1 (Jitter.jbCall jb' c).1 ∧
      (Jitter.jbCall jb c).2 = (Jitter.jbCall jb' c).2 := by
  cases c with
  | put data type ms ts now =>
      obtain ⟨halike, hcode⟩ := h.jbPut hq hh data type ms ts now
      exact ⟨halike, congrArg (Answer.code · none) hcode⟩
  | get now interpl =>
      obtain ⟨halike, hres⟩ := h.jbGet hq hh now interpl
      exact ⟨halike, congrArg (fun r : Code × Option (Frame δ) => Answer.code r.1 r.2) hres⟩
  | getall =>
      obtain ⟨halike, hres⟩ := h.jbGetall hq
      exact ⟨halike, congrArg (fun r : Code × Option (Frame δ) => Answer.code r.1 r.2) hres⟩
  | getinfo => exact ⟨h.historyGet hh, congrArg Answer.info (h.historyGet hh).info⟩
  | setconf conf =>
      exact ⟨h.mapInfo fun i => (Jitter.jbSetconf ⟨i, jb.frames, jb.hist⟩ conf).info, rfl⟩
  | next => exact ⟨h, congrArg Answer.next (h.jbNext hq)⟩

/-- **Every run** answers the same. -/
theorem answers (h : Alike R H jb jb') (hq : QueueSim R) (hh : HistorySim H)
    (calls : List (Call δ)) : answers jb calls = Jitter.answers jb' calls := by
  induction calls generalizing jb jb' with
  | nil => rfl
  | cons c calls ih =>
      obtain ⟨halike, hanswer⟩ := h.jbCall hq hh c
      rw [Jitter.answers, Jitter.answers, hanswer, ih halike]

/-- **Every run** leaves the two alike. -/
theorem jbRun (h : Alike R H jb jb') (hq : QueueSim R) (hh : HistorySim H)
    (calls : List (Call δ)) : Alike R H (jbRun jb calls) (Jitter.jbRun jb' calls) := by
  induction calls generalizing jb jb' with
  | nil => exact h
  | cons c calls ih => exact ih (h.jbCall hq hh c).1

end Queue

end Alike

end Fgcom.Jitter
