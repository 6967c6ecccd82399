import Fgcom.Iax.JitterRuns

/-! # What the jitter buffer plays

* **`Playout`** — the invariant under which voice never goes back in time: while somebody talks,
  every frame played ended before the next one is due, and in silence none is later than where the
  silence began.
* **`refusals`** — the voice frames refused in a row because of a sudden change of the delay.

A frame lasts the same time `m` throughout a call, and the caller asks for frames of at most that
length (`Orderly`). -/

namespace Fgcom.Jitter

open StableInsert Ring

variable {δ η : Type*}

/-! ## Orderly use -/

/-- The voice frame a call hands out to be played. -/
def playedBy : Call δ × Answer δ → Option (Frame δ)
  | (.get .., .code .ok (some f)) => if f.type = .voice then some f else none
  | _ => none

/-- A call that keeps to the length `m` of a voice frame: a frame that announces silence is not
older than the voice played, and the settings change only in silence. -/
def Orderly (m : ℤ) (i : Info) (played : List (Frame δ)) : Call δ → Prop
  | .put _ .voice ms _ _ => ms = m
  | .put _ .silence _ ts _ => ∀ g ∈ played, g.ts ≤ ts - i.resyncOffset
  | .get _ interpl => 0 ≤ interpl ∧ interpl ≤ m
  | .setconf _ => i.silenceBeginTs ≠ 0
  | _ => True

instance (m : ℤ) (i : Info) (played : List (Frame δ)) :
    (c : Call δ) → Decidable (Orderly m i played c)
  | .put _ .voice ms _ _ => inferInstanceAs (Decidable (ms = m))
  | .put _ .silence _ ts _ =>
      inferInstanceAs (Decidable (∀ g ∈ played, g.ts ≤ ts - i.resyncOffset))
  | .put _ .control .. => isTrue trivial
  | .put _ .video .. => isTrue trivial
  | .get _ interpl => inferInstanceAs (Decidable (0 ≤ interpl ∧ interpl ≤ m))
  | .setconf _ => inferInstanceAs (Decidable (i.silenceBeginTs ≠ 0))
  | .getall => isTrue trivial
  | .getinfo => isTrue trivial
  | .next => isTrue trivial

section Run

variable {φ : Type*} [FrameQueue φ δ] [DelayHistory η]

/-- Every call of the run is orderly. -/
def OrderlyRun (m : ℤ) (jb : JitterBuf φ η) (played : List (Frame δ)) : List (Call δ) → Prop
  | [] => True
  | c :: calls => Orderly m jb.info played c ∧
      OrderlyRun m (jbCall jb c).1 (played ++ (playedBy (c, (jbCall jb c).2)).toList) calls

instance OrderlyRun.decidable (m : ℤ) : (jb : JitterBuf φ η) → (played : List (Frame δ)) →
    (calls : List (Call δ)) → Decidable (OrderlyRun m jb played calls)
  | _, _, [] => isTrue trivial
  | jb, played, c :: calls =>
      have := OrderlyRun.decidable m (jbCall jb c).1
        (played ++ (playedBy (c, (jbCall jb c).2)).toList) calls
      inferInstanceAs (Decidable (_ ∧ _))

end Run

/-! ## The invariant -/

/-- While somebody talks: what was played ended before the next frame is due. -/
structure Talking (m : ℤ) (i : Info) (played : List (Frame δ)) : Prop where
  nonneg : 0 ≤ i.lastVoiceMs
  le : i.lastVoiceMs ≤ m
  ended : ∀ g ∈ played, g.ts + m ≤ i.nextVoiceTs - i.current

/-- What was played, by the statistics. -/
structure Playing (m : ℤ) (i : Info) (played : List (Frame δ)) : Prop where
  talk : i.silenceBeginTs = 0 → Talking m i played
  silent : i.silenceBeginTs ≠ 0 → ∀ g ∈ played, g.ts ≤ i.silenceBeginTs

/-- What was played, by the queue. -/
structure Queued (m : ℤ) (pool played : List (Frame δ)) : Prop where
  voice : ∀ b ∈ pool, b.type = .voice → b.ms = m
  silence : ∀ b ∈ pool, b.type = .silence → ∀ g ∈ played, g.ts ≤ b.ts

/-- The invariant of the jitter buffer and the voice it has played. -/
structure Playout (m : ℤ) (jb : JitterBuf (List (Frame δ)) η) (played : List (Frame δ)) :
    Prop where
  info : Playing m jb.info played
  pool : Queued m jb.frames played
  sorted : played.Pairwise fun f g => f.ts ≤ g.ts

section Info

variable {m : ℤ} {i : Info} {played : List (Frame δ)}

/-- Talking goes on where the next frame is not due any earlier. -/
theorem Talking.mono {i' : Info} (h : Talking m i played) (h0 : 0 ≤ i'.lastVoiceMs)
    (hm : i'.lastVoiceMs ≤ m) (hnext : i.nextVoiceTs - i.current ≤ i'.nextVoiceTs - i'.current) :
    Talking m i' played :=
  ⟨h0, hm, fun g hg => (h.ended g hg).trans hnext⟩

theorem Talking.playing (h : Talking m i played) (hs : i.silenceBeginTs = 0) :
    Playing m i played :=
  ⟨fun _ => h, fun hne => absurd hs hne⟩

/-- Silence is assumed only from where the voice has ended. -/
theorem Talking.assumeSilence (hm : 0 < m) (h : Talking m i played) (hs : i.silenceBeginTs = 0) :
    Playing m i.assumeSilence played := by
  unfold Info.assumeSilence
  split_ifs
  · refine ⟨fun _ => ⟨h.nonneg, h.le, h.ended⟩, fun _ g hg => ?_⟩
    have hended := h.ended g hg
    dsimp only
    omega
  · exact h.playing hs

theorem Talking.grow (hm : 0 < m) (h : Talking m i played) (hs : i.silenceBeginTs = 0) (now : ℤ)
    {interpl : ℤ} (h0 : 0 ≤ interpl) (hle : interpl ≤ m) :
    Playing m (i.grow now interpl) played := by
  unfold Info.grow
  refine Talking.assumeSilence hm (h.mono h0 hle ?_) hs
  dsimp only
  omega

theorem Talking.talkNone (hm : 0 < m) (h : Talking m i played) (hs : i.silenceBeginTs = 0)
    (diff now : ℤ) {interpl : ℤ} (h0 : 0 ≤ interpl) (hle : interpl ≤ m) :
    Playing m (i.talkNone diff now interpl).1 played := by
  have hnonneg := h.nonneg
  unfold Info.talkNone
  split_ifs
  · refine Talking.playing (h.mono h.nonneg h.le ?_) hs
    change i.nextVoiceTs - i.current ≤ i.nextVoiceTs - (i.current - i.lastVoiceMs)
    omega
  · refine Talking.assumeSilence hm (h.mono h0 hle ?_) hs
    change i.nextVoiceTs - i.current ≤ i.nextVoiceTs + interpl - i.current
    omega

/-- The voice frame handed out, where it is to be played. -/
def voiceOk (f : Frame δ) (c : Code) : List (Frame δ) :=
  if c = .ok ∧ f.type = .voice then [f] else []

/-- A frame played is the latest so far, and has ended when the next one is due. -/
theorem talking_concat {f : Frame δ} {i' : Info} (h0 : 0 ≤ i'.lastVoiceMs)
    (hm : i'.lastVoiceMs ≤ m) (hf : ∀ g ∈ played, g.ts ≤ f.ts)
    (hnext : f.ts + m = i'.nextVoiceTs - i'.current) : Talking m i' (played ++ [f]) := by
  refine ⟨h0, hm, fun g hg => ?_⟩
  rcases List.mem_append.mp hg with hg | hg
  · have hle := hf g hg
    omega
  · rw [List.mem_singleton.mp hg]
    exact hnext.le

/-- **A frame while somebody talks.** If it is played, it is not older than what was played. -/
theorem Talking.talkFrame (hm : 0 < m) (h : Talking m i played) (hs : i.silenceBeginTs = 0)
    {f : Frame δ} (hvoice : f.type = .voice → f.ms = m)
    (hsilence : f.type = .silence → ∀ g ∈ played, g.ts ≤ f.ts)
    (hdue : f.ts ≤ i.nextVoiceTs - i.current) (diff now : ℤ) :
    Playing m (i.talkFrame f diff now).1 (played ++ voiceOk f (i.talkFrame f diff now).2) ∧
      (voiceOk f (i.talkFrame f diff now).2 ≠ [] → ∀ g ∈ played, g.ts ≤ f.ts) := by
  have hle := h.le
  have hnone : ∀ c, ¬ (c = Code.ok ∧ f.type = .voice) → voiceOk f c = [] := fun c hc => if_neg hc
  by_cases htype : f.type = .voice
  · have hms := hvoice htype
    have hsome : voiceOk f .ok = [f] := if_pos ⟨rfl, htype⟩
    have hdrop : voiceOk f .drop = [] := hnone _ fun hc => Code.noConfusion hc.1
    have hpos : f.ms > 0 := hms ▸ hm
    unfold Info.talkFrame
    rw [if_neg (not_not.mpr htype), if_pos hpos]
    dsimp only
    split_ifs with hlate hquick
    · -- interpolated past it, but within the last frame
      rw [hsome]
      have hf : ∀ g ∈ played, g.ts ≤ f.ts := fun g hg => by
        have hended := h.ended g hg
        omega
      refine ⟨Talking.playing ?_ hs, fun _ => hf⟩
      refine talking_concat h.nonneg h.le hf ?_
      change f.ts + m = f.ts + i.current + f.ms - i.current
      omega
    · rw [hdrop, List.append_nil]
      refine ⟨Talking.playing ?_ hs, fun hne => absurd rfl hne⟩
      exact h.mono h.nonneg h.le le_rfl
    · rw [hdrop, List.append_nil]
      refine ⟨Talking.playing ?_ hs, fun hne => absurd rfl hne⟩
      refine h.mono hpos.le hms.le ?_
      change i.nextVoiceTs - i.current ≤ i.nextVoiceTs - (i.current - f.ms)
      omega
    · -- exactly on time
      rw [hsome]
      have hf : ∀ g ∈ played, g.ts ≤ f.ts := fun g hg => by
        have hended := h.ended g hg
        omega
      refine ⟨Talking.playing ?_ hs, fun _ => hf⟩
      refine talking_concat hpos.le hms.le hf ?_
      change f.ts + m = i.nextVoiceTs + f.ms - i.current
      omega
  · rw [hnone _ fun hc => htype hc.2, List.append_nil]
    refine ⟨?_, fun hne => absurd rfl hne⟩
    unfold Info.talkFrame
    rw [if_pos htype]
    split_ifs with hsil
    · exact ⟨fun _ => ⟨h.nonneg, h.le, h.ended⟩, fun _ => hsilence hsil⟩
    · refine Talking.playing ?_ hs
      exact h.mono h.nonneg h.le le_rfl

/-- **A frame in silence.** A voice frame played is not older than where the silence began. -/
theorem Playing.silentFrame (hm : 0 < m) (h : Playing m i played) (hs : i.silenceBeginTs ≠ 0)
    {f : Frame δ} (hvoice : f.type = .voice → f.ms = m) :
    Playing m (i.silentFrame f).1 (played ++ voiceOk f (i.silentFrame f).2) ∧
      (voiceOk f (i.silentFrame f).2 ≠ [] → ∀ g ∈ played, g.ts ≤ f.ts) := by
  have hnone : ∀ c, ¬ (c = Code.ok ∧ f.type = .voice) → voiceOk f c = [] := fun c hc => if_neg hc
  have hsame : ∀ i' : Info, i'.silenceBeginTs = i.silenceBeginTs → Playing m i' played :=
    fun i' hi => ⟨fun h0 => absurd (hi.symm.trans h0) hs, fun _ g hg => hi ▸ h.silent hs g hg⟩
  unfold Info.silentFrame
  split_ifs with htype hlate
  · rw [hnone _ fun hc => htype hc.2, List.append_nil]
    exact ⟨hsame _ rfl, fun hne => absurd rfl hne⟩
  · rw [hnone _ fun hc => Code.noConfusion hc.1, List.append_nil]
    exact ⟨hsame _ rfl, fun hne => absurd rfl hne⟩
  · have hms := hvoice (not_not.mp htype)
    have hf : ∀ g ∈ played, g.ts ≤ f.ts := fun g hg =>
      (h.silent hs g hg).trans (not_lt.mp hlate)
    rw [show voiceOk f .ok = [f] from if_pos ⟨rfl, not_not.mp htype⟩]
    refine ⟨Talking.playing ?_ rfl, fun _ => hf⟩
    refine talking_concat (hm.le.trans hms.ge) hms.le hf ?_
    dsimp only
    omega

end Info

/-! ## One call -/

section Call

variable {m : ℤ} {jb : JitterBuf (List (Frame δ)) η} {played pool : List (Frame δ)}

/-- Frames of the queue that stay. -/
theorem Queued.sublist {pool' : List (Frame δ)} (h : Queued m pool played)
    (hsub : ∀ b ∈ pool', b ∈ pool) : Queued m pool' played :=
  ⟨fun b hb => h.voice b (hsub b hb), fun b hb => h.silence b (hsub b hb)⟩

/-- **Serving** a frame: the others are not older. -/
theorem Queued.serve {f : Frame δ} (h : Queued m pool played)
    (hf : earliest Frame.ts pool = some f) (c : Code) :
    Queued m (serve Frame.ts pool) (played ++ voiceOk f c) := by
  have hsub : ∀ b ∈ StableInsert.serve Frame.ts pool, b ∈ pool := fun b hb =>
    (perm_serve hf).mem_iff.mpr (List.mem_cons_of_mem f hb)
  refine ⟨(h.sublist hsub).voice, fun b hb hsil g hg => ?_⟩
  rcases List.mem_append.mp hg with hg | hg
  · exact h.silence b (hsub b hb) hsil g hg
  · unfold voiceOk at hg
    split_ifs at hg
    · rw [List.mem_singleton.mp hg]
      exact earliest_le hf b (hsub b hb)
    · exact absurd hg List.not_mem_nil

/-- A frame handed out and, if it is to be played, put behind the others. -/
theorem pairwise_voiceOk {f : Frame δ} {c : Code}
    (h : played.Pairwise fun f g => f.ts ≤ g.ts)
    (hf : voiceOk f c ≠ [] → ∀ g ∈ played, g.ts ≤ f.ts) :
    (played ++ voiceOk f c).Pairwise fun f g => f.ts ≤ g.ts := by
  refine List.pairwise_append.mpr ⟨h, ?_, fun g hg b hb => ?_⟩
  · unfold voiceOk
    split_ifs
    · exact List.pairwise_singleton _ f
    · exact List.Pairwise.nil
  · have hle := hf (List.ne_nil_of_mem hb) g hg
    unfold voiceOk at hb
    split_ifs at hb
    · rw [List.mem_singleton.mp hb]
      exact hle
    · exact absurd hb List.not_mem_nil

/-- A call that plays nothing and keeps what the invariant speaks of. -/
theorem Playout.keep {jb' : JitterBuf (List (Frame δ)) η} (h : Playout m jb played)
    (hinfo : Playing m jb.info played → Playing m jb'.info played)
    (hpool : Queued m jb.frames played → Queued m jb'.frames played) : Playout m jb' played :=
  ⟨hinfo h.info, hpool h.pool, h.sorted⟩

/-- The statistics that the invariant does not speak of. -/
theorem Playing.congr {i i' : Info} (h : Playing m i played)
    (hsilence : i'.silenceBeginTs = i.silenceBeginTs) (hnext : i'.nextVoiceTs = i.nextVoiceTs)
    (hcurrent : i'.current = i.current) (hms : i'.lastVoiceMs = i.lastVoiceMs) :
    Playing m i' played := by
  refine ⟨fun h0 => ?_, fun hne g hg => ?_⟩
  · refine (h.talk (hsilence ▸ h0)).mono ?_ ?_ ?_
    · exact hms ▸ (h.talk (hsilence ▸ h0)).nonneg
    · exact hms ▸ (h.talk (hsilence ▸ h0)).le
    · rw [hnext, hcurrent]
  · rw [hsilence] at hne ⊢
    exact h.silent hne g hg

/-- The voice a request for a frame plays. -/
def playedOf (r : Code × Option (Frame δ)) : List (Frame δ) :=
  match r.2 with
  | none => []
  | some f => voiceOk f r.1

theorem playedBy_get (now interpl : ℤ) (c : Code) (o : Option (Frame δ)) :
    (playedBy (.get now interpl, .code c o)).toList = playedOf (c, o) := by
  cases o with
  | none => cases c <;> rfl
  | some f =>
      by_cases hok : c = .ok ∧ f.type = .voice
      · obtain ⟨rfl, hv⟩ := hok
        have hby : playedBy (.get now interpl, .code .ok (some f)) = some f := if_pos hv
        have hof : playedOf (.ok, some f) = [f] := if_pos ⟨rfl, hv⟩
        rw [hby, hof]
        rfl
      · have hby : playedBy (.get now interpl, .code c (some f)) = none := by
          cases c with
          | ok => exact if_neg fun hv => hok ⟨rfl, hv⟩
          | _ => rfl
        have hof : playedOf (c, some f) = [] := if_neg hok
        rw [hby, hof]
        rfl

/-- **A request while somebody talks.** -/
theorem Playout.jbTalk (hm : 0 < m) (h : Playout m jb played) (hs : jb.info.silenceBeginTs = 0)
    (diff now : ℤ) {interpl : ℤ} (h0 : 0 ≤ interpl) (hle : interpl ≤ m) :
    Playout m (jbTalk jb diff now interpl).1
      (played ++ playedOf (jbTalk jb diff now interpl).2) := by
  have htalk := h.info.talk hs
  unfold Jitter.jbTalk
  split_ifs
  · rw [show playedOf (Code.interp, (none : Option (Frame δ))) = [] from rfl, List.append_nil]
    exact h.keep (fun _ => htalk.grow hm hs now h0 hle) id
  · rcases queueGet_cases jb (jb.info.nextVoiceTs - jb.info.current) false with
      hg | ⟨f, hf, hdue, hg⟩
    · rw [hg]
      dsimp only
      rw [playedOf, List.append_nil]
      exact h.keep (fun _ => htalk.talkNone hm hs diff now h0 hle) id
    · rw [hg]
      dsimp only
      have hfirst : earliest Frame.ts jb.frames = some f := hf
      have hmem : f ∈ jb.frames := (perm_serve hfirst).mem_iff.mpr List.mem_cons_self
      have hdue' : f.ts ≤ jb.info.nextVoiceTs - jb.info.current :=
        hdue.resolve_left Bool.false_ne_true
      -- taking the frame out of the queue only counts it
      have htalk' : Talking m { jb.info with framesCur := jb.info.framesCur - 1 } played :=
        htalk.mono htalk.nonneg htalk.le le_rfl
      obtain ⟨hinfo, horder⟩ := htalk'.talkFrame hm hs (h.pool.voice f hmem)
        (h.pool.silence f hmem) hdue' diff now
      exact ⟨hinfo, h.pool.serve hfirst _, pairwise_voiceOk h.sorted horder⟩

/-- **A request in silence.** -/
theorem Playout.jbSilent (hm : 0 < m) (h : Playout m jb played) (hs : jb.info.silenceBeginTs ≠ 0)
    (diff now interpl : ℤ) :
    Playout m (jbSilent jb diff now interpl).1
      (played ++ playedOf (jbSilent jb diff now interpl).2) := by
  unfold Jitter.jbSilent
  dsimp only
  have hsil : (jb.info.silentShrink diff now interpl).silenceBeginTs = jb.info.silenceBeginTs := by
    unfold Info.silentShrink
    split_ifs <;> rfl
  generalize jb.info.silentShrink diff now interpl = i at hsil
  have hi : Playing m i played :=
    ⟨fun h0 => absurd (hsil.symm.trans h0) hs, fun _ g hg => hsil ▸ h.info.silent hs g hg⟩
  rcases queueGet_cases { jb with info := i } (now - i.current) false with hg | ⟨f, hf, -, hg⟩
  · rw [hg]
    dsimp only
    rw [playedOf, List.append_nil]
    exact h.keep (fun _ => hi) id
  · rw [hg]
    dsimp only
    have hfirst : earliest Frame.ts jb.frames = some f := hf
    have hmem : f ∈ jb.frames := (perm_serve hfirst).mem_iff.mpr List.mem_cons_self
    have hi' : Playing m { i with framesCur := i.framesCur - 1 } played :=
      hi.congr rfl rfl rfl rfl
    obtain ⟨hinfo, horder⟩ := hi'.silentFrame hm (hsil ▸ hs) (h.pool.voice f hmem)
    exact ⟨hinfo, h.pool.serve hfirst _, pairwise_voiceOk h.sorted horder⟩

/-- A request for any frame plays nothing. -/
theorem Playout.jbGetall (h : Playout m jb played) : Playout m (jbGetall jb).1 played := by
  unfold Jitter.jbGetall
  rcases queueGet_cases jb 0 true with hg | ⟨f, hf, -, hg⟩
  · rw [hg]
    exact h
  · rw [hg]
    have hsub : ∀ b ∈ serve Frame.ts jb.frames, b ∈ jb.frames := fun b hb =>
      (perm_serve hf).mem_iff.mpr (List.mem_cons_of_mem f hb)
    exact h.keep (fun hi => hi.congr rfl rfl rfl rfl) fun hp => hp.sublist hsub

/-- Putting a frame into the queue. -/
theorem Playout.queuePut (h : Playout m jb played) (data : δ) (type : FrameType) (ms ts : ℤ)
    (hvoice : type = .voice → ms = m)
    (hsilence : type = .silence → ∀ g ∈ played, g.ts ≤ ts - jb.info.resyncOffset) :
    Playout m (queuePut jb data type ms ts).1 played := by
  have hpool : Queued m (jb.frames ++ [⟨data, ts - jb.info.resyncOffset, ms, type⟩]) played := by
    refine ⟨fun b hb => ?_, fun b hb => ?_⟩ <;> rcases List.mem_append.mp hb with hb | hb
    · exact h.pool.voice b hb
    · rw [List.mem_singleton.mp hb]
      exact hvoice
    · exact h.pool.silence b hb
    · rw [List.mem_singleton.mp hb]
      exact hsilence
  unfold Jitter.queuePut
  dsimp only
  split
  · exact ⟨h.info.congr rfl rfl rfl rfl, hpool, h.sorted⟩
  · split_ifs <;> exact ⟨h.info.congr rfl rfl rfl rfl, hpool, h.sorted⟩

variable [DelayHistory η]

/-- **A request for a frame.** -/
theorem Playout.jbGet (hm : 0 < m) (h : Playout m jb played) (now : ℤ) {interpl : ℤ}
    (h0 : 0 ≤ interpl) (hle : interpl ≤ m) :
    Playout m (jbGet jb now interpl).1 (played ++ playedOf (jbGet jb now interpl).2) := by
  have hinfo : Playing m (historyGet jb).info.retarget played := by
    refine h.info.congr ?_ ?_ ?_ ?_ <;>
      · unfold Info.retarget historyGet Info.measured
        dsimp only
        split_ifs <;> rfl
  have hb : Playout m { historyGet jb with info := (historyGet jb).info.retarget } played :=
    ⟨hinfo, h.pool, h.sorted⟩
  unfold Jitter.jbGet
  dsimp only
  split_ifs with hs
  · exact hb.jbTalk hm hs _ now h0 hle
  · exact hb.jbSilent hm hs _ now interpl

/-- Recording a delay. -/
theorem Playout.historyPut (h : Playout m jb played) (ts now : ℤ) :
    Playout m (historyPut jb ts now).1 played := by
  unfold Jitter.historyPut
  dsimp only
  split_ifs <;> exact h.keep (fun hi => hi.congr rfl rfl rfl rfl) id

/-- **Putting a frame.** -/
theorem Playout.jbPut (h : Playout m jb played) (data : δ) (type : FrameType) (ms ts now : ℤ)
    (hc : Orderly m jb.info played (.put data type ms ts now)) :
    Playout m (jbPut jb data type ms ts now).1 played := by
  have hin :
      Playout m { jb with info := { jb.info with framesIn := jb.info.framesIn + 1 } } played :=
    h.keep (fun hi => hi.congr rfl rfl rfl rfl) id
  unfold Jitter.jbPut
  dsimp only
  by_cases hv : type = .voice
  · -- the delay of a voice frame is recorded first, and the frame may be refused
    subst hv
    rw [if_pos rfl]
    have hput := hin.historyPut ts now
    split_ifs
    · exact hput
    all_goals exact hput.queuePut data .voice ms ts (fun _ => hc) fun hs => FrameType.noConfusion hs
  · rw [if_neg hv, if_neg Bool.false_ne_true]
    refine hin.queuePut data type ms ts (fun h => absurd h hv) fun hs => ?_
    subst hs
    exact hc

/-- **Every orderly call** keeps the invariant. -/
theorem Playout.jbCall (hm : 0 < m) (h : Playout m jb played) (c : Call δ)
    (hc : Orderly m jb.info played c) :
    Playout m (jbCall jb c).1 (played ++ (playedBy (c, (jbCall jb c).2)).toList) := by
  cases c with
  | put data type ms ts now =>
      exact (List.append_nil played).symm ▸ h.jbPut data type ms ts now hc
  | get now interpl =>
      rw [Jitter.jbCall]
      dsimp only
      rw [playedBy_get]
      exact h.jbGet hm now hc.1 hc.2
  | getall => exact (List.append_nil played).symm ▸ h.jbGetall
  | getinfo =>
      exact (List.append_nil played).symm ▸ h.keep (fun hi => hi.congr rfl rfl rfl rfl) id
  | setconf conf =>
      -- in silence the length of the buffer does not matter
      have hs : jb.info.silenceBeginTs ≠ 0 := hc
      exact (List.append_nil played).symm ▸
        h.keep (fun hi => ⟨fun h0 => absurd h0 hs, hi.silent⟩) id
  | next => exact (List.append_nil played).symm ▸ h

/-- **Every orderly run** keeps the invariant. -/
theorem Playout.jbRun (hm : 0 < m) (h : Playout m jb played) (calls : List (Call δ))
    (hc : OrderlyRun m jb played calls) :
    Playout m (jbRun jb calls) (played ++ (log jb calls).filterMap playedBy) := by
  induction calls generalizing jb played with
  | nil => exact (List.append_nil played).symm ▸ h
  | cons c calls ih =>
      have hrest := ih (h.jbCall hm c hc.1) hc.2
      have hlog : (log jb (c :: calls)).filterMap playedBy =
          (playedBy (c, (Jitter.jbCall jb c).2)).toList ++
            (log (Jitter.jbCall jb c).1 calls).filterMap playedBy := by
        rw [← filterMap_single playedBy, ← List.filterMap_append]
        rfl
      rw [hlog, ← List.append_assoc]
      exact hrest

end Call

/-! ## Refusals -/

section Get

variable {φ : Type*} [FrameQueue φ δ]

theorem assumeSilence_discont (i : Info) : i.assumeSilence.cntDelayDiscont = i.cntDelayDiscont := by
  unfold Info.assumeSilence
  split_ifs <;> rfl

/-- Nothing a request for a frame does to the statistics counts a sudden change. -/
theorem jbTalk_discont (jb : JitterBuf φ η) (diff now interpl : ℤ) :
    (jbTalk jb diff now interpl).1.info.cntDelayDiscont = jb.info.cntDelayDiscont := by
  unfold jbTalk
  split_ifs
  · exact assumeSilence_discont _
  · rcases queueGet_cases jb (jb.info.nextVoiceTs - jb.info.current) false with
      hg | ⟨f, -, -, hg⟩
    · rw [hg]
      dsimp only
      unfold Info.talkNone
      split_ifs
      · rfl
      · exact assumeSilence_discont _
    · rw [hg]
      dsimp only
      unfold Info.talkFrame
      dsimp only
      split_ifs <;> rfl

theorem jbSilent_discont (jb : JitterBuf φ η) (diff now interpl : ℤ) :
    (jbSilent jb diff now interpl).1.info.cntDelayDiscont = jb.info.cntDelayDiscont := by
  unfold jbSilent
  dsimp only
  have hshrink : (jb.info.silentShrink diff now interpl).cntDelayDiscont =
      jb.info.cntDelayDiscont := by
    unfold Info.silentShrink
    split_ifs <;> rfl
  generalize jb.info.silentShrink diff now interpl = i at hshrink
  rcases queueGet_cases { jb with info := i } (now - i.current) false with hg | ⟨f, -, -, hg⟩
  · rw [hg]
    exact hshrink
  · rw [hg]
    dsimp only
    unfold Info.silentFrame
    split_ifs <;> exact hshrink

theorem jbGet_discont [DelayHistory η] (jb : JitterBuf φ η) (now interpl : ℤ) :
    (jbGet jb now interpl).1.info.cntDelayDiscont = jb.info.cntDelayDiscont := by
  have hretarget : (historyGet jb).info.retarget.cntDelayDiscont = jb.info.cntDelayDiscont := by
    unfold Info.retarget
    dsimp only
    split_ifs <;> rfl
  unfold jbGet
  dsimp only
  split_ifs
  · exact (jbTalk_discont ..).trans hretarget
  · exact (jbSilent_discont ..).trans hretarget

end Get

section Refusals

/-- The voice frames refused in a row, after one more call. Frames with special times do not
count. -/
def refusals (n : ℕ) : Call δ × Answer δ → ℕ
  | (.put _ .voice _ ts _, .code c _) => if ts ≤ 0 then n else if c = .drop then n + 1 else 0
  | _ => n

variable {φ : Type*} [FrameQueue φ δ] [DelayHistory η] {jb : JitterBuf φ η} {n : ℕ}

/-- The code's own count of sudden changes is not behind, and does not pass 3. -/
structure Counted (n : ℕ) (i : Info) : Prop where
  le : (n : ℤ) ≤ i.cntDelayDiscont
  three : i.cntDelayDiscont ≤ 3

/-- **Recording a delay** refuses a frame only when it counts one more sudden change. -/
theorem Counted.historyPut (h : Counted n jb.info) (ts now : ℤ) :
    Counted (if ts ≤ 0 then n else if (historyPut jb ts now).2 = true then n + 1 else 0)
      (historyPut jb ts now).1.info := by
  have hle := h.le
  have hthree := h.three
  unfold Jitter.historyPut
  by_cases hts : ts ≤ 0
  · rw [if_pos hts, if_pos hts]
    exact h
  rw [if_neg hts, if_neg hts]
  dsimp only
  by_cases hres : jb.info.conf.resyncThreshold ≠ -1
  · rw [if_pos hres]
    by_cases hjump : intAbs (now - (ts - jb.info.resyncOffset) - jb.info.lastDelay) >
        2 * jb.info.jitter + jb.info.conf.resyncThreshold
    · rw [if_pos hjump]
      by_cases hfour : jb.info.cntDelayDiscont + 1 > 3
      · rw [if_pos hfour, if_neg Bool.false_ne_true]
        exact ⟨le_rfl, (by decide : (0 : ℤ) ≤ 3)⟩
      · rw [if_neg hfour, if_pos rfl]
        refine ⟨?_, not_lt.mp hfour⟩
        change ((n + 1 : ℕ) : ℤ) ≤ jb.info.cntDelayDiscont + 1
        omega
    · rw [if_neg hjump, if_neg Bool.false_ne_true]
      exact ⟨le_rfl, (by decide : (0 : ℤ) ≤ 3)⟩
  · rw [if_neg hres, if_neg Bool.false_ne_true]
    exact ⟨le_trans (Int.natCast_nonneg n) hle, hthree⟩

theorem Counted.congr {i i' : Info} (h : Counted n i)
    (hi : i'.cntDelayDiscont = i.cntDelayDiscont) : Counted n i' :=
  ⟨hi ▸ h.le, hi ▸ h.three⟩

/-- **Putting a frame** counts what is refused. -/
theorem Counted.jbPut (h : Counted n jb.info) (data : δ) (type : FrameType) (ms ts now : ℤ) :
    Counted (refusals n (.put data type ms ts now, .code (jbPut jb data type ms ts now).2 none))
      (jbPut jb data type ms ts now).1.info := by
  have hqueue : ∀ b : JitterBuf φ η, (queuePut b data type ms ts).1.info.cntDelayDiscont =
      b.info.cntDelayDiscont := by
    intro b
    unfold queuePut
    dsimp only
    split
    · rfl
    · split_ifs <;> rfl
  unfold Jitter.jbPut
  dsimp only
  generalize hb : ({ jb with info := { jb.info with framesIn := jb.info.framesIn + 1 } } :
    JitterBuf φ η) = b
  have hin : Counted n b.info := h.congr (by rw [← hb])
  by_cases hv : type = .voice
  · subst hv
    rw [if_pos rfl]
    have hput := hin.historyPut ts now
    generalize Jitter.historyPut b ts now = r at hput ⊢
    obtain ⟨b, refused⟩ := r
    cases refused with
    | true => exact hput
    | false =>
        have hcode : (if (queuePut b data .voice ms ts).2 = true then Code.sched else Code.ok) ≠
            .drop := by
          split_ifs <;> exact Code.noConfusion
        rw [if_neg Bool.false_ne_true] at hput ⊢
        have hn : refusals n (Call.put data .voice ms ts now, Answer.code
            (if (queuePut b data .voice ms ts).2 = true then Code.sched else Code.ok)
            (none : Option (Frame δ))) = if ts ≤ 0 then n else 0 := by
          rw [refusals, if_neg hcode]
        exact Counted.congr (hn.symm ▸ hput) (hqueue b)
  · rw [if_neg hv, if_neg Bool.false_ne_true]
    have hn : ∀ c, refusals n (Call.put data type ms ts now, Answer.code c
        (none : Option (Frame δ))) = n := by
      intro c
      cases type <;> first | rfl | exact absurd rfl hv
    rw [hn]
    exact hin.congr (hqueue _)

/-- **Every call** keeps the count. -/
theorem Counted.jbCall (h : Counted n jb.info) (c : Call δ) :
    Counted (refusals n (c, (jbCall jb c).2)) (jbCall jb c).1.info := by
  cases c with
  | put data type ms ts now => exact h.jbPut data type ms ts now
  | get now interpl => exact h.congr (jbGet_discont jb now interpl)
  | getall =>
      refine h.congr ?_
      rw [Jitter.jbCall, jbGetall]
      rcases queueGet_cases jb 0 true with hg | ⟨f, -, -, hg⟩ <;> rw [hg]
  | getinfo => exact h.congr rfl
  | setconf conf => exact h.congr rfl
  | next => exact h

/-- **Every run** keeps the count. -/
theorem Counted.jbRun (h : Counted n jb.info) (calls : List (Call δ)) :
    Counted ((log jb calls).foldl refusals n) (jbRun jb calls).info := by
  induction calls generalizing jb n with
  | nil => exact h
  | cons c calls ih => exact ih (h.jbCall c)

end Refusals

/-! ## The jitter buffer in memory -/

section Memory

/-- Orderly calls are orderly for jitter buffers that behave alike. -/
theorem Alike.orderlyRun {φ φ' η η' : Type*} [FrameQueue φ δ] [FrameQueue φ' δ] [DelayHistory η]
    [DelayHistory η'] {R : φ → φ' → Prop} {H : η → η' → Prop} {jb : JitterBuf φ η}
    {jb' : JitterBuf φ' η'} (h : Alike R H jb jb') (hq : QueueSim R) (hh : HistorySim H) {m : ℤ}
    {played : List (Frame δ)} {calls : List (Call δ)} (hc : OrderlyRun m jb played calls) :
    OrderlyRun m jb' played calls := by
  induction calls generalizing jb jb' played with
  | nil => trivial
  | cons c calls ih =>
      obtain ⟨halike, hanswer⟩ := h.jbCall hq hh c
      refine ⟨h.info ▸ hc.1, ?_⟩
      have hrest := ih halike hc.2
      rwa [hanswer] at hrest

/-- **Voice never goes back in time.** In every run in which all voice frames last `m`, the caller
asks for frames of at most that length, silence is not announced for a time before the voice played
and the settings change only in silence, the voice frames played come in the order of their
times. -/
theorem jitterbuf_plays_in_order (conf : Conf) (node : ℕ → Frame δ) (links : Links ℕ) (m : ℤ)
    (hm : 0 < m) (calls : List (Call δ)) (hc : OrderlyRun m (coded conf node links) [] calls) :
    ((log (coded conf node links) calls).filterMap playedBy).Pairwise
      fun f g => f.ts ≤ g.ts := by
  have halike := alike_start conf node links
  have hlog : log (coded conf node links) calls = log (plain δ conf) calls := by
    have hans := halike.answers RingQueue.ringSim historySim calls
    rw [log, log, hans]
  have hstart : Playout m (plain δ conf) [] :=
    ⟨⟨fun _ => ⟨le_rfl, hm.le, fun g hg => absurd hg List.not_mem_nil⟩,
        fun _ g hg => absurd hg List.not_mem_nil⟩,
      ⟨fun b hb => absurd hb List.not_mem_nil, fun b hb => absurd hb List.not_mem_nil⟩,
      List.Pairwise.nil⟩
  rw [hlog]
  exact (hstart.jbRun hm calls (halike.orderlyRun RingQueue.ringSim historySim hc)).sorted

/-- Two voice frames that come in the wrong order, and the silence after them. -/
theorem jitterbuf_plays_in_order_swapped :
    ((log (coded ⟨0, -1, 0, 40⟩ (fun _ => ⟨0, 0, 0, .control⟩) ⟨id, id⟩)
      [.put 8 .voice 20 120 1000, .put 7 .voice 20 100 1001, .get 1200 20, .get 1220 20,
        .put 9 .silence 0 140 1040, .get 1240 20]).filterMap playedBy).Pairwise
      fun f g => f.ts ≤ g.ts :=
  jitterbuf_plays_in_order ⟨0, -1, 0, 40⟩ (fun _ => ⟨0, 0, 0, .control⟩) ⟨id, id⟩ 20 (by decide) _
    (by decide)

/-- **No more than three voice frames in a row are refused** in any run. -/
theorem jitterbuf_refuses_three (conf : Conf) (node : ℕ → Frame δ) (links : Links ℕ)
    (calls : List (Call δ)) : (log (coded conf node links) calls).foldl refusals 0 ≤ 3 := by
  have hstart : Counted 0 (coded conf node links).info := ⟨le_rfl, (by decide : (0 : ℤ) ≤ 3)⟩
  have hrun := hstart.jbRun calls
  exact Int.ofNat_le.mp (hrun.le.trans hrun.three)

end Memory

end Fgcom.Jitter
