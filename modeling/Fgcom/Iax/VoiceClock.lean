import Mathlib.Data.Int.DivMod
import Fgcom.Iax.Schedule
import Fgcom.Iax.Timestamps

/-! # Time stamps of frames sent

`calc_timestamp`, with `USE_VOICE_TS_PREDICTION`: a voice frame is stamped with the end of the one
before it, as long as that is within 240 ms of the clock, and the clock is moved a tenth of the way
to meet it.

* **`calcTimestamp`** (`calc_timestamp`), **`addMs`** (`add_ms`) — the code.
* **`voice_stamps_steady`** — as long as each voice frame comes its predecessor's length after it,
  give or take 23 ms, the stamps go on without a gap, whatever other frames are sent.
* **`lastsent_iaxSend`** — `iax_send`, which is told the time stamp, keeps the last one as
  `calc_timestamp` does. -/

namespace Fgcom.Iax

/-! ## The code -/

/-- `add_ms`. -/
def addMs (tv : TimeVal) (ms : ℤ) : TimeVal :=
  let usec := tv.usec + ms * 1000
  let tv := if usec > 1000000 then ⟨tv.sec + 1, usec - 1000000⟩ else ⟨tv.sec, usec⟩
  if tv.usec < 0 then ⟨tv.sec - 1, tv.usec + 1000000⟩ else tv

/-- `struct iax_session`, what `calc_timestamp` reads of it. -/
structure Stamper where
  offset : TimeVal
  lastsent : ℕ
  nextpred : ℕ
  notsilenttx : Bool

/-- `iax_session_new`. -/
def Stamper.new : Stamper := ⟨⟨0, 0⟩, 0, 0, false⟩

/-- The frames `calc_timestamp` tells apart. `genuine` are those of type `AST_FRAME_IAX` and the
null pointer. -/
inductive Stamped
  | voice (samples : ℕ)
  | genuine
  | other
deriving DecidableEq

/-- A time rounded up to the next multiple of the length of a frame. -/
def roundUp (len ms : ℕ) : ℕ :=
  let diff := ms % len
  if diff ≠ 0 then ms + (len - diff) else ms

/-- The difference of an `int` and an `unsigned int`, as an `int`. -/
def intDiff (ms : ℤ) (pred : ℕ) : ℤ := Int.bmod (ms - pred) 4294967296

/-- `calc_timestamp`, with the two readings of the clock: `none` when it divides by 0. The time is
an `int`, the fields are unsigned. -/
def calcTimestamp (s : Stamper) (ts : ℕ) (f : Stamped) (first tv : TimeVal) :
    Option (Stamper × ℕ) :=
  let s := if s.offset.sec = 0 ∧ s.offset.usec = 0 then { s with offset := first } else s
  if ts ≠ 0 then some (s, ts)
  else
    let ms := (tv.msFrom s.offset).toNat
    match f with
    | .voice samples =>
        if s.notsilenttx ∧ (intDiff ms s.nextpred).natAbs ≤ 240 then
          let offset := addMs s.offset (Int.tdiv (intDiff ms s.nextpred) 10)
          let ms := if s.nextpred = 0 then ms else s.nextpred
          some (⟨offset, ms, (ms + samples / 8) % 4294967296, true⟩, ms)
        else if samples / 8 = 0 then none
        else
          let ms := roundUp (samples / 8) ms % 4294967296
          some (⟨s.offset, ms, (ms + samples / 8) % 4294967296, true⟩, ms)
    | .genuine =>
        some (s, if (ms : ℤ) ≤ Int.bmod s.lastsent 4294967296 then (s.lastsent + 3) % 4294967296
          else ms)
    | .other =>
        let ms := if (intDiff ms s.lastsent).natAbs ≤ 240 then (s.lastsent + 3) % 4294967296 else ms
        some ({ s with lastsent := ms }, ms)

/-! ## What `iax_send` keeps -/

/-- What `calc_timestamp` sees of a frame. -/
def AstFrame.stamped (f : AstFrame) (samples : ℕ) : Stamped :=
  if f.type = frameVoice then .voice samples else if f.type = frameIax then .genuine else .other

/-- The last time stamp is that of the frame, but for genuine frames. -/
theorem calcTimestamp_lastsent {s s' : Stamper} {f : Stamped} {first tv : TimeVal} {t : ℕ}
    (hcalc : calcTimestamp s 0 f first tv = some (s', t)) :
    s'.lastsent = if f = .genuine then s.lastsent else t := by
  unfold calcTimestamp at hcalc
  have hstart : (if s.offset.sec = 0 ∧ s.offset.usec = 0 then { s with offset := first } else s) =
      { s with offset := if s.offset.sec = 0 ∧ s.offset.usec = 0 then first else s.offset } := by
    split_ifs <;> rfl
  rw [hstart] at hcalc
  dsimp only at hcalc
  rw [if_neg (not_not.mpr rfl)] at hcalc
  cases f with
  | voice samples =>
      dsimp only at hcalc
      split_ifs at hcalc <;> (obtain ⟨rfl, rfl⟩ := Prod.mk.inj (Option.some.inj hcalc); rfl)
  | genuine =>
      obtain ⟨rfl, -⟩ := Prod.mk.inj (Option.some.inj hcalc)
      rfl
  | other =>
      obtain ⟨rfl, rfl⟩ := Prod.mk.inj (Option.some.inj hcalc)
      rfl

/-- **The session's last time stamp** is the one `calc_timestamp` keeps, when the clock `iax_send`
is given is its result. -/
theorem lastsent_iaxSend {s s' : Stamper} {pvt : Session} {f : AstFrame} {samples t : ℕ}
    {first tv : TimeVal} (hlast : s.lastsent = pvt.lastsent)
    (hcalc : calcTimestamp s 0 (f.stamped samples) first tv = some (s', t))
    (seqno : Option ℕ) (now : Bool) (place : ℕ) :
    (iaxSend pvt f 0 t seqno now place).1.lastsent = s'.lastsent := by
  have hsend : (iaxSend pvt f 0 t seqno now place).1.lastsent =
      if f.type = frameIax then pvt.lastsent else t := by
    unfold iaxSend
    dsimp only
    split_ifs <;> simp_all [stamp, Session.numbered]
  have hkind := calcTimestamp_lastsent hcalc
  have hgenuine : f.stamped samples = .genuine ↔ f.type = frameIax := by
    unfold AstFrame.stamped
    split_ifs with hvoice hiax
    · simp [hvoice, frameVoice, frameIax]
    · simp [hiax]
    · simp [hiax]
  rw [hsend, hkind, ← hlast]
  exact if_congr hgenuine.symm rfl rfl

/-! ## The clock -/

section Clock

variable {x b : ℤ}

/-- Division that rounds to 0, of what is not positive. -/
theorem tdiv_of_nonpos (hx : x ≤ 0) (b : ℤ) : x.tdiv b = -(-x / b) := by
  rw [← Int.tdiv_eq_ediv_of_nonneg (by omega), Int.neg_tdiv, neg_neg]

/-- Moving the offset moves it by so much. -/
theorem real_addMs (tv : TimeVal) (ms : ℤ) : (addMs tv ms).real = tv.real + 1000 * ms := by
  unfold addMs TimeVal.real
  dsimp only
  split_ifs <;> simp only [] <;> omega

/-- The difference is cut to 32 bits, which changes nothing of a small one. -/
theorem intDiff_of_lt {ms : ℤ} {pred : ℕ} (h : (ms - pred).natAbs < 2147483648) :
    intDiff ms pred = ms - pred := by
  unfold intDiff
  exact Int.bmod_eq_of_le_mul_two (by omega) (by omega)

/-- A tenth of the way off at most 240 ms leaves at most 216. -/
theorem tenth_left (hx : x.natAbs ≤ 240) :
    (x - x.tdiv 10).natAbs ≤ 216 ∧ (x.tdiv 10).natAbs ≤ 24 := by
  rcases le_total 0 x with hsign | hsign
  · rw [Int.tdiv_eq_ediv_of_nonneg hsign]
    omega
  · rw [tdiv_of_nonpos hsign]
    omega

end Clock

/-! ## Voice frames in a row -/

section Steady

variable {s : Stamper} {last : ℤ} {len : ℕ} {first tv : TimeVal}

/-- A frame that is sent, and the two readings of the clock `calc_timestamp` takes. Those of
`iax_send_cng`, after which the time stamps start anew, are not among them. -/
structure Tick where
  f : Stamped
  first : TimeVal
  tv : TimeVal

variable {xs : List Tick}

/-- The time stamps of the voice frames among frames that are sent one after the other. -/
def voiceStamps : Stamper → List Tick → Option (List ℕ)
  | _, [] => some []
  | s, x :: xs =>
      (calcTimestamp s 0 x.f x.first x.tv).bind fun r =>
        (voiceStamps r.1 xs).map fun stamps =>
          match x.f with
          | .voice _ => r.2 :: stamps
          | _ => stamps

/-- Time stamps without a gap, from `t` on. -/
def gapless (t : ℕ) : List Tick → List ℕ
  | [] => []
  | x :: xs =>
      match x.f with
      | .voice samples => t :: gapless (t + samples / 8) xs
      | _ => gapless t xs

/-- Each voice frame comes the length of the one before it after that, give or take 23 ms. -/
def Paced (last : ℤ) (len : ℕ) : List Tick → Prop
  | [] => True
  | x :: xs =>
      match x.f with
      | .voice samples =>
          last ≤ x.tv.real ∧ (x.tv.real - last - 1000 * len).natAbs ≤ 23000 ∧
            Paced x.tv.real (samples / 8) xs
      | _ => Paced last len xs

/-- The number of voice frames. -/
def voiceCount (xs : List Tick) : ℕ :=
  xs.countP fun x => match x.f with | .voice _ => true | _ => false

/-- The length of the voice frames, in milliseconds. -/
def voiceLength (xs : List Tick) : ℕ :=
  (xs.map fun x => match x.f with | .voice samples => samples / 8 | _ => 0).sum

/-- Between voice frames, of which the last was sent at `last` and had a length of `len`: the time
stamps are as far from the clock as a correction leaves them. The offset is far enough from 0, which
stands for none, for a correction with each frame that is to come, and the time stamps of those fit
into an `int`. -/
structure Steady (s : Stamper) (last : ℤ) (len : ℕ) (xs : List Tick) : Prop where
  talking : s.notsilenttx = true
  pos : 1 ≤ s.nextpred
  near : (last - s.offset.real - 1000 * (s.nextpred - len)).natAbs ≤ 216999
  since : s.offset.real ≤ last
  epoch : 24000 * voiceCount xs < s.offset.real
  room : s.nextpred + voiceLength xs ≤ 2147483000

@[simp] theorem voiceCount_voice (samples : ℕ) (first tv : TimeVal) (xs : List Tick) :
    voiceCount (⟨.voice samples, first, tv⟩ :: xs) = voiceCount xs + 1 := by
  simp [voiceCount]

@[simp] theorem voiceLength_voice (samples : ℕ) (first tv : TimeVal) (xs : List Tick) :
    voiceLength (⟨.voice samples, first, tv⟩ :: xs) = samples / 8 + voiceLength xs := by
  simp [voiceLength]

/-- An offset that is not 0 is set. -/
theorem offset_set (h : 0 < s.offset.real) : ¬ (s.offset.sec = 0 ∧ s.offset.usec = 0) := by
  rintro ⟨hsec, husec⟩
  simp [TimeVal.real, hsec, husec] at h

/-- A voice frame in time is no further from the offset than an `int` can say, and near to what was
predicted. -/
theorem Steady.predicted {f : Stamped} (h : Steady s last len (⟨f, first, tv⟩ :: xs))
    (htime : last ≤ tv.real) (hpace : (tv.real - last - 1000 * len).natAbs ≤ 23000) :
    0 ≤ tv.msFrom s.offset ∧ (tv.msFrom s.offset - s.nextpred).natAbs ≤ 240 ∧
      tv.real - s.offset.real - 1000 < tv.msFrom s.offset * 1000 ∧
      tv.msFrom s.offset * 1000 < tv.real - s.offset.real + 1000 := by
  obtain ⟨-, -, hnear, hsince, -, hroom⟩ := h
  have hreach : tv.InReach s.offset := by
    unfold TimeVal.InReach
    omega
  obtain ⟨hlow, hhigh⟩ := TimeVal.msFrom_near hreach
  exact ⟨by omega, by omega, hlow, hhigh⟩

/-- **The step.** A voice frame in time gets the time stamp that was predicted. -/
theorem Steady.voice {samples : ℕ} (h : Steady s last len (⟨.voice samples, first, tv⟩ :: xs))
    (htime : last ≤ tv.real) (hpace : (tv.real - last - 1000 * len).natAbs ≤ 23000) :
    ∃ s', calcTimestamp s 0 (.voice samples) first tv = some (s', s.nextpred) ∧
      s'.nextpred = s.nextpred + samples / 8 ∧ Steady s' tv.real (samples / 8) xs := by
  obtain ⟨hnonneg, hpredicted, hlow, hhigh⟩ := h.predicted htime hpace
  obtain ⟨htalking, hpos, hnear, hsince, hepoch, hroom⟩ := h
  rw [voiceCount_voice] at hepoch
  rw [voiceLength_voice] at hroom
  have hms : ((tv.msFrom s.offset).toNat : ℤ) = tv.msFrom s.offset := Int.toNat_of_nonneg hnonneg
  have hdiff : intDiff (tv.msFrom s.offset) s.nextpred = tv.msFrom s.offset - s.nextpred :=
    intDiff_of_lt (by omega)
  have hsmall : (s.nextpred + samples / 8) % 4294967296 = s.nextpred + samples / 8 :=
    Nat.mod_eq_of_lt (by omega)
  obtain ⟨hleft, htenth⟩ := tenth_left hpredicted
  have hnext : s.nextpred ≠ 0 := by omega
  refine ⟨⟨addMs s.offset (Int.tdiv (tv.msFrom s.offset - s.nextpred) 10), s.nextpred,
    s.nextpred + samples / 8, true⟩, ?_, rfl, rfl, by dsimp only; omega, ?_, ?_, ?_, ?_⟩
  · simp only [calcTimestamp, if_neg (offset_set (s := s) (by omega)), ne_eq, not_true_eq_false,
      if_false, hms, htalking, hdiff, hpredicted, and_self, if_true, if_neg hnext, hsmall]
  · dsimp only
    rw [real_addMs]
    generalize Int.tdiv (tv.msFrom s.offset - s.nextpred) 10 = tenth at hleft htenth ⊢
    omega
  · -- the offset moves on only when the clock is ahead of the prediction
    dsimp only
    rw [real_addMs]
    rcases le_total 0 (tv.msFrom s.offset - s.nextpred) with hsign | hsign
    · rw [Int.tdiv_eq_ediv_of_nonneg hsign]
      omega
    · rw [tdiv_of_nonpos hsign]
      omega
  · dsimp only
    rw [real_addMs]
    omega
  · dsimp only
    omega

/-- Other frames change nothing of it. -/
theorem Steady.nonvoice {f : Stamped} (hf : ∀ n, f ≠ .voice n)
    (h : Steady s last len (⟨f, first, tv⟩ :: xs)) :
    ∃ s' t, calcTimestamp s 0 f first tv = some (s', t) ∧ s'.nextpred = s.nextpred ∧
      Steady s' last len xs := by
  have hsame : voiceCount (⟨f, first, tv⟩ :: xs) = voiceCount xs ∧
      voiceLength (⟨f, first, tv⟩ :: xs) = voiceLength xs := by
    cases f with
    | voice n => exact absurd rfl (hf n)
    | genuine | other => simp [voiceCount, voiceLength]
  obtain ⟨htalking, hpos, hnear, hsince, hepoch, hroom⟩ := h
  rw [hsame.1] at hepoch
  rw [hsame.2] at hroom
  have hset : ¬ (s.offset.sec = 0 ∧ s.offset.usec = 0) := offset_set (by omega)
  have hkept : Steady s last len xs := ⟨htalking, hpos, hnear, hsince, hepoch, hroom⟩
  unfold calcTimestamp
  rw [if_neg hset]
  cases f with
  | voice n => exact absurd rfl (hf n)
  | genuine => exact ⟨_, _, rfl, rfl, hkept⟩
  | other => exact ⟨_, _, rfl, rfl, ⟨htalking, hpos, hnear, hsince, hepoch, hroom⟩⟩

/-- **A run.** From a steady state on, frames in time are stamped without a gap. -/
theorem Steady.run (h : Steady s last len xs) (hpace : Paced last len xs) :
    voiceStamps s xs = some (gapless s.nextpred xs) := by
  induction xs generalizing s last len with
  | nil => rfl
  | cons x xs ih =>
      obtain ⟨f, first, tv⟩ := x
      by_cases hf : ∃ samples, f = .voice samples
      · obtain ⟨samples, rfl⟩ := hf
        obtain ⟨htime, hgap, hrest⟩ := hpace
        obtain ⟨s', hcalc, hnext, hsteady⟩ := h.voice htime hgap
        rw [voiceStamps, hcalc, Option.bind_some, ih hsteady hrest, hnext]
        rfl
      · have hno : ∀ samples, f ≠ .voice samples := fun samples hvoice => hf ⟨samples, hvoice⟩
        obtain ⟨s', t, hcalc, hnext, hsteady⟩ := h.nonvoice hno
        rw [voiceStamps, hcalc, Option.bind_some]
        cases f with
        | voice samples => exact absurd rfl (hno samples)
        | genuine | other =>
            rw [ih hsteady hpace, hnext]
            rfl

end Steady

end Fgcom.Iax
