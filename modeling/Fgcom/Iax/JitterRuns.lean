import Fgcom.Iax.JitterQueue

/-! # Runs of the jitter buffer

What holds after every sequence of calls on a jitter buffer that starts empty.

* **`Ledger`** — the frames taken in are the frames handed out and those still queued, each once,
  and the counters of `jb_info` say how many there were of each.
* **`jbDestroy`** — `jb_destroy` frees the nodes that are not queued, and a node is allocated only
  when more frames are queued than ever before.

The ledger is kept on the plain buffer, and read on the one in memory, which it stands for. -/

namespace Fgcom.Jitter

open StableInsert Ring

/-! ## The log of a run -/

section Log

variable {δ : Type*}

/-- The frame a call hands out. -/
def Answer.frame : Answer δ → Option (Frame δ)
  | .code _ f => f
  | _ => none

/-- What a call gives the jitter buffer to keep: the data of a frame put and not refused. -/
def accepted : Call δ × Answer δ → Option δ
  | (.put data .., .code c _) => if c = .drop then none else some data
  | _ => none

/-- A frame is put. -/
def isPut : Call δ × Answer δ → Bool
  | (.put .., _) => true
  | _ => false

/-- A frame comes out of `jb_get`. -/
def isOut : Call δ × Answer δ → Bool
  | (.get .., .code _ (some _)) => true
  | _ => false

/-- A frame comes out of `jb_get` that is not to be played. -/
def isDrop : Call δ × Answer δ → Bool
  | (.get .., .code .drop _) => true
  | _ => false

variable {φ η : Type*} [FrameQueue φ δ] [DelayHistory η]

/-- The calls of a run with their answers. -/
def log (jb : JitterBuf φ η) (calls : List (Call δ)) : List (Call δ × Answer δ) :=
  calls.zip (answers jb calls)

theorem jbRun_concat (jb : JitterBuf φ η) (calls : List (Call δ)) (c : Call δ) :
    jbRun jb (calls ++ [c]) = (jbCall (jbRun jb calls) c).1 := by
  rw [jbRun, List.foldl_append]
  rfl

theorem answers_append (jb : JitterBuf φ η) (calls more : List (Call δ)) :
    answers jb (calls ++ more) = answers jb calls ++ answers (jbRun jb calls) more := by
  induction calls generalizing jb with
  | nil => rfl
  | cons c calls ih => exact congrArg ((jbCall jb c).2 :: ·) (ih (jbCall jb c).1)

theorem length_answers (jb : JitterBuf φ η) (calls : List (Call δ)) :
    (answers jb calls).length = calls.length := by
  induction calls generalizing jb with
  | nil => rfl
  | cons c calls ih => exact congrArg (· + 1) (ih (jbCall jb c).1)

/-- A run grows at its end. -/
theorem log_concat (jb : JitterBuf φ η) (calls : List (Call δ)) (c : Call δ) :
    log jb (calls ++ [c]) = log jb calls ++ [(c, (jbCall (jbRun jb calls) c).2)] := by
  rw [log, answers_append, List.zip_append (length_answers jb calls).symm]
  rfl

end Log

/-! ## What a call does to the statistics -/

/-- The share of lost frames, in thousandths of a percent. -/
def Info.LossOk (i : Info) : Prop := 0 ≤ i.losspct ∧ i.losspct ≤ 100000

/-- The counters stay. -/
structure Info.Quiet (i i' : Info) : Prop where
  framesIn : i'.framesIn = i.framesIn
  framesOut : i'.framesOut = i.framesOut
  thrown : i'.framesLate + i'.framesDropped = i.framesLate + i.framesDropped
  framesCur : i'.framesCur = i.framesCur
  loss : i.LossOk → i'.LossOk

/-- A frame is counted out, to be played or thrown away. -/
structure Info.Gives (i i' : Info) (c : Code) : Prop where
  code : c = .ok ∨ c = .drop
  framesIn : i'.framesIn = i.framesIn
  framesOut : i'.framesOut = i.framesOut + 1
  thrown : i'.framesLate + i'.framesDropped =
    i.framesLate + i.framesDropped + if c = .drop then 1 else 0
  framesCur : i'.framesCur = i.framesCur
  loss : i.LossOk → i'.LossOk

namespace Info

variable {i i' i'' : Info}

theorem Quiet.refl (i : Info) : i.Quiet i := ⟨rfl, rfl, rfl, rfl, id⟩

theorem Quiet.trans (h : i.Quiet i') (h' : i'.Quiet i'') : i.Quiet i'' where
  framesIn := h'.framesIn.trans h.framesIn
  framesOut := h'.framesOut.trans h.framesOut
  thrown := h'.thrown.trans h.thrown
  framesCur := h'.framesCur.trans h.framesCur
  loss hl := h'.loss (h.loss hl)

/-- Quiet steps before a frame comes out. -/
theorem Quiet.gives {c : Code} (h : i.Quiet i') (h' : i'.Gives i'' c) : i.Gives i'' c where
  code := h'.code
  framesIn := h'.framesIn.trans h.framesIn
  framesOut := by rw [h'.framesOut, h.framesOut]
  thrown := by rw [h'.thrown, h.thrown]
  framesCur := h'.framesCur.trans h.framesCur
  loss hl := h'.loss (h.loss hl)

/-- The loss never leaves the range between nothing and all. -/
theorem LossOk.increment (h : i.LossOk) : i.incrementLosspct.LossOk := by
  obtain ⟨h0, h1⟩ := h
  have hq : (100000 + 499 * i.losspct).tdiv 500 = (100000 + 499 * i.losspct) / 500 :=
    Int.tdiv_eq_ediv_of_nonneg (by omega)
  change 0 ≤ (100000 + 499 * i.losspct).tdiv 500 ∧ (100000 + 499 * i.losspct).tdiv 500 ≤ 100000
  rw [hq]
  omega

theorem LossOk.decrement (h : i.LossOk) : i.decrementLosspct.LossOk := by
  obtain ⟨h0, h1⟩ := h
  have hq : (499 * i.losspct).tdiv 500 = 499 * i.losspct / 500 :=
    Int.tdiv_eq_ediv_of_nonneg (by omega)
  change 0 ≤ (499 * i.losspct).tdiv 500 ∧ (499 * i.losspct).tdiv 500 ≤ 100000
  rw [hq]
  omega

theorem quiet_measured (i : Info) (m : ℤ × ℤ) : i.Quiet (i.measured m) := ⟨rfl, rfl, rfl, rfl, id⟩

theorem quiet_retarget (i : Info) : i.Quiet i.retarget := by
  unfold retarget
  dsimp only
  split_ifs <;> exact ⟨rfl, rfl, rfl, rfl, id⟩

theorem quiet_assumeSilence (i : Info) : i.Quiet i.assumeSilence := by
  unfold assumeSilence
  split_ifs <;> exact ⟨rfl, rfl, rfl, rfl, id⟩

theorem quiet_grow (i : Info) (now interpl : ℤ) : i.Quiet (i.grow now interpl) := by
  unfold grow
  refine Quiet.trans ?_ (quiet_assumeSilence _)
  exact ⟨rfl, rfl, rfl, rfl, id⟩

theorem quiet_silentShrink (i : Info) (diff now interpl : ℤ) :
    i.Quiet (i.silentShrink diff now interpl) := by
  unfold silentShrink
  split_ifs <;> exact ⟨rfl, rfl, rfl, rfl, id⟩

/-- Without a frame the caller is to interpolate or to wait. -/
theorem quiet_talkNone (i : Info) (diff now interpl : ℤ) :
    i.Quiet (i.talkNone diff now interpl).1 ∧
      ((i.talkNone diff now interpl).2 = .interp ∨ (i.talkNone diff now interpl).2 = .noframe) := by
  unfold talkNone
  split_ifs
  · exact ⟨⟨rfl, rfl, rfl, rfl, LossOk.increment⟩, .inr rfl⟩
  · refine ⟨Quiet.trans ?_ (quiet_assumeSilence _), .inl rfl⟩
    exact ⟨rfl, rfl, rfl, rfl, LossOk.increment⟩

/-- A frame the buffer hands out while somebody talks is counted as what it is. -/
theorem gives_talkFrame {δ : Type*} (i : Info) (f : Frame δ) (diff now : ℤ) :
    i.Gives (i.talkFrame f diff now).1 (i.talkFrame f diff now).2 := by
  unfold talkFrame
  dsimp only
  split_ifs
  · exact ⟨.inl rfl, rfl, rfl, (add_zero _).symm, rfl, id⟩
  · exact ⟨.inl rfl, rfl, rfl, (add_zero _).symm, rfl, id⟩
  · exact ⟨.inl rfl, rfl, rfl, (add_zero _).symm, rfl, LossOk.decrement⟩
  · exact ⟨.inr rfl, rfl, rfl, add_right_comm .., rfl, LossOk.decrement⟩
  · exact ⟨.inr rfl, rfl, rfl, (add_assoc ..).symm, rfl, LossOk.decrement⟩
  · exact ⟨.inl rfl, rfl, rfl, (add_zero _).symm, rfl, LossOk.decrement⟩
  · exact ⟨.inr rfl, rfl, rfl, (add_assoc ..).symm, rfl, LossOk.decrement⟩
  · exact ⟨.inl rfl, rfl, rfl, (add_zero _).symm, rfl, LossOk.decrement⟩

/-- So is one it hands out in silence. -/
theorem gives_silentFrame {δ : Type*} (i : Info) (f : Frame δ) :
    i.Gives (i.silentFrame f).1 (i.silentFrame f).2 := by
  unfold silentFrame
  split_ifs
  · exact ⟨.inl rfl, rfl, rfl, (add_zero _).symm, rfl, id⟩
  · exact ⟨.inr rfl, rfl, rfl, add_right_comm .., rfl, LossOk.decrement⟩
  · exact ⟨.inl rfl, rfl, rfl, (add_zero _).symm, rfl, LossOk.decrement⟩

end Info

/-! ## What a call does to the queue -/

section Cases

variable {φ η δ : Type*} [FrameQueue φ δ]

/-- `_queue_get` leaves everything as it is, or takes the first frame out and counts it. -/
theorem queueGet_cases (jb : JitterBuf φ η) (ts : ℤ) (all : Bool) :
    queueGet jb ts all = (none, jb) ∨
      ∃ f, FrameQueue.first jb.frames = some f ∧ (all = true ∨ ts ≥ f.ts) ∧
        queueGet jb ts all = (some f, { jb with
          info := { jb.info with framesCur := jb.info.framesCur - 1 }
          frames := FrameQueue.drop jb.frames }) := by
  unfold queueGet
  cases h : FrameQueue.first jb.frames with
  | none => exact .inl rfl
  | some f =>
      dsimp only
      split_ifs with hdue
      · exact .inr ⟨f, rfl, hdue, rfl⟩
      · exact .inl rfl

/-- What a request for a frame comes to: nothing is handed out and the caller is to interpolate or
to wait, or the first frame of the queue is handed out, to be played or thrown away. -/
inductive Got (jb : JitterBuf φ η) (r : JitterBuf φ η × Code × Option (Frame δ)) : Prop
  | nothing (none : r.2.2 = none) (code : r.2.1 = .interp ∨ r.2.1 = .noframe)
      (frames : r.1.frames = jb.frames) (info : jb.info.Quiet r.1.info)
  | frame (f : Frame δ) (some : r.2.2 = some f) (first : FrameQueue.first jb.frames = .some f)
      (frames : r.1.frames = FrameQueue.drop jb.frames)
      (info : ({ jb.info with framesCur := jb.info.framesCur - 1 } : Info).Gives r.1.info r.2.1)

theorem got_jbTalk (jb : JitterBuf φ η) (diff now interpl : ℤ) :
    Got jb (jbTalk jb diff now interpl) := by
  unfold jbTalk
  split_ifs
  · exact .nothing rfl (.inl rfl) rfl (Info.quiet_grow ..)
  · rcases queueGet_cases jb (jb.info.nextVoiceTs - jb.info.current) false with
      hg | ⟨f, hf, -, hg⟩
    · rw [hg]
      obtain ⟨hquiet, hcode⟩ := jb.info.quiet_talkNone diff now interpl
      exact .nothing rfl hcode rfl hquiet
    · rw [hg]
      exact .frame f rfl hf rfl (Info.gives_talkFrame ..)

theorem got_jbSilent (jb : JitterBuf φ η) (diff now interpl : ℤ) :
    Got jb (jbSilent jb diff now interpl) := by
  unfold jbSilent
  dsimp only
  have hquiet := jb.info.quiet_silentShrink diff now interpl
  generalize jb.info.silentShrink diff now interpl = i at hquiet
  rcases queueGet_cases { jb with info := i } (now - i.current) false with hg | ⟨f, hf, -, hg⟩
  · rw [hg]
    exact .nothing rfl (.inr rfl) rfl hquiet
  · rw [hg]
    have hcur : ({ jb.info with framesCur := jb.info.framesCur - 1 } : Info).Quiet
        { i with framesCur := i.framesCur - 1 } :=
      ⟨hquiet.framesIn, hquiet.framesOut, hquiet.thrown, congrArg (· - 1) hquiet.framesCur,
        hquiet.loss⟩
    exact .frame f rfl hf rfl (hcur.gives (Info.gives_silentFrame ..))

theorem got_jbGet [DelayHistory η] (jb : JitterBuf φ η) (now interpl : ℤ) :
    Got jb (jbGet jb now interpl) := by
  have hquiet : jb.info.Quiet (historyGet jb).info.retarget :=
    (Info.quiet_measured ..).trans (Info.quiet_retarget _)
  have hgot : Got { historyGet jb with info := (historyGet jb).info.retarget }
      (jbGet jb now interpl) := by
    unfold jbGet
    dsimp only
    split_ifs
    · exact got_jbTalk ..
    · exact got_jbSilent ..
  cases hgot with
  | nothing hnone hcode hframes hinfo => exact .nothing hnone hcode hframes (hquiet.trans hinfo)
  | frame f hsome hfirst hframes hinfo =>
      have hcur : ({ jb.info with framesCur := jb.info.framesCur - 1 } : Info).Quiet
          { (historyGet jb).info.retarget with
            framesCur := (historyGet jb).info.retarget.framesCur - 1 } :=
        ⟨hquiet.framesIn, hquiet.framesOut, hquiet.thrown, congrArg (· - 1) hquiet.framesCur,
          hquiet.loss⟩
      exact .frame f hsome hfirst hframes (hcur.gives hinfo)

/-- What putting a frame comes to: it is refused, or taken into the queue. -/
inductive Taken (jb : JitterBuf φ η) (data : δ) (r : JitterBuf φ η × Code) : Prop
  | refused (code : r.2 = .drop) (frames : r.1.frames = jb.frames)
      (info : ({ jb.info with framesIn := jb.info.framesIn + 1 } : Info).Quiet r.1.info)
  | queued (f : Frame δ) (data : f.data = data) (code : r.2 ≠ .drop)
      (frames : r.1.frames = FrameQueue.insert jb.frames f)
      (info : ({ jb.info with
        framesIn := jb.info.framesIn + 1
        framesCur := jb.info.framesCur + 1 } : Info).Quiet r.1.info)

omit [FrameQueue φ δ] in
/-- Recording a delay leaves the queue and the counters alone. -/
theorem historyPut_quiet [DelayHistory η] (jb : JitterBuf φ η) (ts now : ℤ) :
    (historyPut jb ts now).1.frames = jb.frames ∧ jb.info.Quiet (historyPut jb ts now).1.info := by
  unfold historyPut
  dsimp only
  split_ifs <;> exact ⟨rfl, rfl, rfl, rfl, rfl, id⟩

/-- `queue_put` counts the frame it takes in. -/
theorem queuePut_queued (jb : JitterBuf φ η) (data : δ) (type : FrameType) (ms ts : ℤ) :
    ∃ f : Frame δ, f.data = data ∧
      (queuePut jb data type ms ts).1.frames = FrameQueue.insert jb.frames f ∧
      ({ jb.info with framesCur := jb.info.framesCur + 1 } : Info).Quiet
        (queuePut jb data type ms ts).1.info := by
  refine ⟨⟨data, ts - jb.info.resyncOffset, ms, type⟩, rfl, ?_⟩
  unfold queuePut
  dsimp only
  split
  · exact ⟨rfl, rfl, rfl, rfl, rfl, id⟩
  · split_ifs <;> exact ⟨rfl, rfl, rfl, rfl, rfl, id⟩

theorem taken_jbPut [DelayHistory η] (jb : JitterBuf φ η) (data : δ) (type : FrameType)
    (ms ts now : ℤ) : Taken jb data (jbPut jb data type ms ts now) := by
  unfold jbPut
  dsimp only
  have hrec : ∀ b : JitterBuf φ η,
      (if type = .voice then historyPut b ts now else (b, false)).1.frames = b.frames ∧
      b.info.Quiet (if type = .voice then historyPut b ts now else (b, false)).1.info := by
    intro b
    split_ifs
    · exact historyPut_quiet b ts now
    · exact ⟨rfl, Info.Quiet.refl _⟩
  obtain ⟨hframes, hquiet⟩ :=
    hrec { jb with info := { jb.info with framesIn := jb.info.framesIn + 1 } }
  generalize (if type = .voice then
    historyPut { jb with info := { jb.info with framesIn := jb.info.framesIn + 1 } } ts now
    else ({ jb with info := { jb.info with framesIn := jb.info.framesIn + 1 } }, false)) = r
    at hframes hquiet ⊢
  split_ifs with hrefused hhead
  · exact .refused rfl hframes hquiet
  all_goals
    obtain ⟨f, hdata, hput, hcur⟩ := queuePut_queued r.1 data type ms ts
    refine .queued f hdata ?_ (hframes ▸ hput) (Info.Quiet.trans ?_ hcur)
    · exact Code.noConfusion
    · exact ⟨hquiet.framesIn, hquiet.framesOut, hquiet.thrown, congrArg (· + 1) hquiet.framesCur,
        hquiet.loss⟩

end Cases

/-! ## The ledger -/

section Ledger

variable {δ η : Type*}

/-- The frames taken in and not yet handed out are those in the queue, and the counters tell. -/
structure Ledger (jb : JitterBuf (List (Frame δ)) η) (log : List (Call δ × Answer δ)) : Prop where
  conserved : (log.filterMap accepted).Perm
    ((log.filterMap fun x => x.2.frame).map Frame.data ++ jb.frames.map Frame.data)
  framesIn : jb.info.framesIn = log.countP isPut
  framesOut : jb.info.framesOut = log.countP isOut
  thrown : jb.info.framesLate + jb.info.framesDropped = log.countP isDrop
  framesCur : jb.info.framesCur = jb.frames.length
  loss : jb.info.LossOk

theorem ledger_start (conf : Conf) : Ledger (plain δ conf) [] where
  conserved := List.Perm.nil
  framesIn := rfl
  framesOut := rfl
  thrown := rfl
  framesCur := rfl
  loss := ⟨le_rfl, (by decide : (0 : ℤ) ≤ 100000)⟩

/-- One line of the ledger: what the call takes in and what it hands out balances with the queue,
and every counter moves by what it counts. -/
structure Entry (jb : JitterBuf (List (Frame δ)) η) (x : Call δ × Answer δ)
    (jb' : JitterBuf (List (Frame δ)) η) : Prop where
  balance : ((accepted x).toList ++ jb.frames.map Frame.data).Perm
    ((x.2.frame.map Frame.data).toList ++ jb'.frames.map Frame.data)
  framesIn : jb'.info.framesIn = jb.info.framesIn + if isPut x then 1 else 0
  framesOut : jb'.info.framesOut = jb.info.framesOut + if isOut x then 1 else 0
  thrown : jb'.info.framesLate + jb'.info.framesDropped =
    jb.info.framesLate + jb.info.framesDropped + if isDrop x then 1 else 0
  framesCur : jb'.info.framesCur - jb.info.framesCur = jb'.frames.length - jb.frames.length
  loss : jb.info.LossOk → jb'.info.LossOk

variable {jb jb' : JitterBuf (List (Frame δ)) η} {past : List (Call δ × Answer δ)}
  {x : Call δ × Answer δ}

/-- A log of one call. -/
theorem filterMap_single {α β : Type*} (f : α → Option β) (a : α) :
    [a].filterMap f = (f a).toList := by
  cases h : f a with
  | none => exact List.filterMap_cons_none h
  | some b => exact List.filterMap_cons_some h

/-- **One more line** keeps the ledger. -/
theorem Ledger.step (h : Ledger jb past) (he : Entry jb x jb') : Ledger jb' (past ++ [x]) where
  conserved := by
    rw [List.filterMap_append, List.filterMap_append, List.map_append, filterMap_single,
      filterMap_single, List.append_assoc, ← Option.toList_map]
    refine (h.conserved.append_right _).trans ?_
    rw [List.append_assoc]
    exact (List.perm_append_comm.trans he.balance).append_left _
  framesIn := by
    rw [he.framesIn, h.framesIn, List.countP_append, List.countP_singleton]
    split_ifs <;> simp
  framesOut := by
    rw [he.framesOut, h.framesOut, List.countP_append, List.countP_singleton]
    split_ifs <;> simp
  thrown := by
    rw [he.thrown, h.thrown, List.countP_append, List.countP_singleton]
    split_ifs <;> simp
  framesCur := by
    have hcur := he.framesCur
    have hold := h.framesCur
    omega
  loss := he.loss h.loss

variable [DelayHistory η]

/-- A frame put is refused or taken in. -/
theorem entry_put (jb : JitterBuf (List (Frame δ)) η) (data : δ) (type : FrameType)
    (ms ts now : ℤ) :
    Entry jb (.put data type ms ts now, (jbCall jb (.put data type ms ts now)).2)
      (jbCall jb (.put data type ms ts now)).1 := by
  unfold jbCall
  dsimp only
  have htaken := taken_jbPut jb data type ms ts now
  generalize jbPut jb data type ms ts now = r at htaken
  obtain ⟨jb', c⟩ := r
  rcases htaken with ⟨hcode, hframes, hinfo⟩ | ⟨f, hdata, hcode, hframes, hinfo⟩
  · have hnone : accepted (Call.put data type ms ts now, Answer.code c (none : Option (Frame δ))) =
        none := if_pos hcode
    refine ⟨?_, hinfo.framesIn, hinfo.framesOut.trans (add_zero _).symm,
      hinfo.thrown.trans (add_zero _).symm, ?_, hinfo.loss⟩
    · rw [hnone]
      exact List.Perm.of_eq (congrArg (List.map Frame.data) hframes).symm
    · rw [hinfo.framesCur, show jb'.frames = jb.frames from hframes, sub_self, sub_self]
  · have hsome : accepted (Call.put data type ms ts now, Answer.code c (none : Option (Frame δ))) =
        some data := if_neg hcode
    have hpool : jb'.frames = jb.frames ++ [f] := hframes
    refine ⟨?_, hinfo.framesIn, hinfo.framesOut.trans (add_zero _).symm,
      hinfo.thrown.trans (add_zero _).symm, ?_, hinfo.loss⟩
    · rw [hsome, hpool, List.map_append, List.map_singleton, hdata]
      exact List.perm_append_comm
    · rw [hinfo.framesCur, hpool, List.length_append, List.length_singleton]
      push_cast
      omega

/-- A request for a frame is answered without one, or with the one that is served. -/
theorem entry_get (jb : JitterBuf (List (Frame δ)) η) (now interpl : ℤ) :
    Entry jb (.get now interpl, (jbCall jb (.get now interpl)).2)
      (jbCall jb (.get now interpl)).1 := by
  unfold jbCall
  dsimp only
  have hgot := got_jbGet jb now interpl
  generalize jbGet jb now interpl = r at hgot
  obtain ⟨jb', c, o⟩ := r
  rcases hgot with ⟨hnone, hcode, hframes, hinfo⟩ | ⟨f, hsome, hfirst, hframes, hinfo⟩
  · obtain rfl : o = none := hnone
    have hdrop :
        isDrop (Call.get now interpl, Answer.code c (none : Option (Frame δ))) = false := by
      rcases hcode with rfl | rfl <;> rfl
    refine ⟨?_, hinfo.framesIn.trans (add_zero _).symm, hinfo.framesOut.trans (add_zero _).symm,
      ?_, ?_, hinfo.loss⟩
    · exact List.Perm.of_eq (congrArg (List.map Frame.data) hframes).symm
    · rw [hdrop]
      exact hinfo.thrown.trans (add_zero _).symm
    · rw [hinfo.framesCur, show jb'.frames = jb.frames from hframes, sub_self, sub_self]
  · obtain rfl : o = some f := hsome
    have hserve := perm_serve hfirst
    have hpool : jb'.frames = serve Frame.ts jb.frames := hframes
    refine ⟨?_, hinfo.framesIn.trans (add_zero _).symm, hinfo.framesOut, hinfo.thrown.trans ?_, ?_,
      hinfo.loss⟩
    · rw [hpool]
      exact hserve.map Frame.data
    · rcases hinfo.code with rfl | rfl <;> rfl
    · have hlen := hserve.length_eq
      rw [hinfo.framesCur, hpool, hlen, List.length_cons]
      push_cast
      omega

/-- A request for any frame. -/
theorem entry_getall (jb : JitterBuf (List (Frame δ)) η) :
    Entry jb (.getall, (jbCall jb (.getall : Call δ)).2) (jbCall jb (.getall : Call δ)).1 := by
  unfold jbCall jbGetall
  dsimp only
  rcases queueGet_cases jb 0 true with hg | ⟨f, hfirst, -, hg⟩
  · rw [hg]
    exact ⟨List.Perm.refl _, (add_zero _).symm, (add_zero _).symm, (add_zero _).symm,
      (sub_self _).trans (sub_self _).symm, id⟩
  · rw [hg]
    have hserve := perm_serve hfirst
    refine ⟨hserve.map Frame.data, (add_zero _).symm, (add_zero _).symm, (add_zero _).symm, ?_, id⟩
    have hlen := hserve.length_eq
    rw [List.length_cons] at hlen
    change jb.info.framesCur - 1 - jb.info.framesCur =
      (serve Frame.ts jb.frames).length - jb.frames.length
    omega

/-- **Every call** is a line of the ledger. -/
theorem entry_jbCall (jb : JitterBuf (List (Frame δ)) η) (c : Call δ) :
    Entry jb (c, (jbCall jb c).2) (jbCall jb c).1 := by
  cases c with
  | put data type ms ts now => exact entry_put jb data type ms ts now
  | get now interpl => exact entry_get jb now interpl
  | getall => exact entry_getall jb
  | getinfo =>
      exact ⟨List.Perm.refl _, (add_zero _).symm, (add_zero _).symm, (add_zero _).symm,
        (sub_self _).trans (sub_self _).symm, id⟩
  | setconf conf =>
      exact ⟨List.Perm.refl _, (add_zero _).symm, (add_zero _).symm, (add_zero _).symm,
        (sub_self _).trans (sub_self _).symm, id⟩
  | next =>
      exact ⟨List.Perm.refl _, (add_zero _).symm, (add_zero _).symm, (add_zero _).symm,
        (sub_self _).trans (sub_self _).symm, id⟩

/-- **Every run** keeps the ledger. -/
theorem ledger_run (conf : Conf) (calls : List (Call δ)) :
    Ledger (jbRun (plain δ conf) calls) (log (plain δ conf) calls) := by
  induction calls using List.reverseRecOn with
  | nil => exact ledger_start conf
  | append_singleton calls c ih =>
      rw [jbRun_concat, log_concat]
      exact ih.step (entry_jbCall _ c)

end Ledger

/-! ## The jitter buffer in memory -/

section Memory

variable {δ : Type*} (conf : Conf) (node : ℕ → Frame δ) (links : Links ℕ)

/-- The plain jitter buffer keeps the ledger of the one in memory. -/
theorem exists_ledger_run (calls : List (Call δ)) :
    ∃ (nodes spare : List ℕ) (pool : JitterBuf (List (Frame δ)) (List ℤ)),
      (jbRun (coded conf node links) calls).frames.WellFormed nodes spare ∧
      (nodes.map (jbRun (coded conf node links) calls).frames.node).Perm pool.frames ∧
      pool.info = (jbRun (coded conf node links) calls).info ∧
      Ledger pool (log (coded conf node links) calls) := by
  have hlog : log (coded conf node links) calls = log (plain δ conf) calls := by
    have hans := (alike_start conf node links).answers RingQueue.ringSim historySim calls
    rw [log, log, hans]
  have halike := (alike_start conf node links).jbRun RingQueue.ringSim historySim calls
  obtain ⟨nodes, spare, hwf, harr⟩ := halike.frames
  exact ⟨nodes, spare, _, hwf, harr.perm, halike.info.symm, hlog ▸ ledger_run conf calls⟩

/-- **Nothing is lost and nothing comes twice.** After every run the ring in memory is whole; what
was put and not refused is what was handed out and what the nodes of the ring hold, each as often;
and the counters of `jb_info` say how many frames were put, handed out by `jb_get`, thrown away by
it and are queued. -/
theorem jitterbuf_conserves (calls : List (Call δ)) :
    ∃ nodes spare, (jbRun (coded conf node links) calls).frames.WellFormed nodes spare ∧
      ((log (coded conf node links) calls).filterMap accepted).Perm
        (((log (coded conf node links) calls).filterMap fun x => x.2.frame).map Frame.data ++
          nodes.map fun a => ((jbRun (coded conf node links) calls).frames.node a).data) ∧
      (jbRun (coded conf node links) calls).info.framesIn =
        (log (coded conf node links) calls).countP isPut ∧
      (jbRun (coded conf node links) calls).info.framesOut =
        (log (coded conf node links) calls).countP isOut ∧
      (jbRun (coded conf node links) calls).info.framesLate +
          (jbRun (coded conf node links) calls).info.framesDropped =
        (log (coded conf node links) calls).countP isDrop ∧
      (jbRun (coded conf node links) calls).info.framesCur = nodes.length ∧
      0 ≤ (jbRun (coded conf node links) calls).info.losspct ∧
      (jbRun (coded conf node links) calls).info.losspct ≤ 100000 := by
  obtain ⟨nodes, spare, pool, hwf, hperm, hinfo, hledger⟩ := exists_ledger_run conf node links calls
  have hdata := hperm.map Frame.data
  rw [List.map_map] at hdata
  refine ⟨nodes, spare, hwf, hledger.conserved.trans (hdata.symm.append_left _), ?_⟩
  have hlen := hperm.length_eq
  rw [List.length_map] at hlen
  rw [← hinfo, hlen]
  exact ⟨hledger.framesIn, hledger.framesOut, hledger.thrown, hledger.framesCur, hledger.loss⟩

end Memory

/-! ## Allocation and destruction -/

namespace RingQueue

variable {δ : Type*}

/-- The loop of `jb_destroy`: the nodes freed, walking the free list. It goes round at most once for
every node there is. -/
def freed (q : RingQueue δ) : ℕ → ℕ → List ℕ
  | 0, _ => []
  | fuel + 1, frame => if frame = 0 then [] else frame :: freed q fuel (q.links.next frame)

/-- `jb_destroy`: the nodes it frees. -/
def jbDestroy (q : RingQueue δ) : List ℕ := q.freed q.brk q.free

variable {q : RingQueue δ} {nodes spare : List ℕ}

/-- The walk visits the free list. -/
theorem freed_eq {fuel p : ℕ} {l : List ℕ} (h : FreeList q.links.next p l)
    (hlen : l.length ≤ fuel) : q.freed fuel p = l := by
  induction l generalizing p fuel with
  | nil =>
      obtain rfl : p = 0 := h
      cases fuel with
      | zero => rfl
      | succ fuel => exact if_pos rfl
  | cons a l ih =>
      obtain ⟨rfl, hp, hl⟩ := h
      cases fuel with
      | zero => exact absurd hlen (Nat.not_succ_le_zero _)
      | succ fuel => rw [freed, if_neg hp, ih hl (Nat.le_of_succ_le_succ hlen)]

/-- The nodes of a well formed memory are all those allocated. -/
theorem WellFormed.perm_range (h : q.WellFormed nodes spare) :
    (nodes ++ spare).Perm (List.range' 1 (q.brk - 1)) := by
  refine (List.perm_ext_iff_of_nodup h.nodup List.nodup_range').mpr fun a => ?_
  have hbrk := h.brk
  rw [h.all a, List.mem_range'_1]
  omega

theorem WellFormed.length_add (h : q.WellFormed nodes spare) :
    nodes.length + spare.length + 1 = q.brk := by
  have hlen := h.perm_range.length_eq
  have hbrk := h.brk
  rw [List.length_append, List.length_range'] at hlen
  omega

/-- **`jb_destroy`** frees the nodes that are not queued. -/
theorem WellFormed.jbDestroy_eq (h : q.WellFormed nodes spare) : q.jbDestroy = spare :=
  freed_eq h.free (by have := h.length_add; omega)

/-- A node is allocated only when the free list is empty. -/
theorem WellFormed.insert_brk (h : q.WellFormed nodes spare) (f : Frame δ) :
    (q.insert f).brk = if spare = [] then q.brk + 1 else q.brk := by
  have hnew : (q.insert f).brk = q.newNode.2.brk := by
    unfold RingQueue.insert
    dsimp only
    split_ifs <;> rfl
  rw [hnew, RingQueue.newNode]
  cases spare with
  | nil =>
      have hfree : q.free = 0 := h.free
      rw [if_neg (not_not.mpr hfree), if_pos rfl]
  | cons a l =>
      obtain ⟨hfree, ha, -⟩ := h.free
      rw [if_pos (hfree ▸ ha), if_neg (List.cons_ne_nil a l)]

end RingQueue

/-- What a call does to the queue. -/
theorem frames_jbCall {φ η δ : Type*} [FrameQueue φ δ] [DelayHistory η] (jb : JitterBuf φ η)
    (c : Call δ) :
    (jbCall jb c).1.frames = jb.frames ∨
      (∃ f : Frame δ, (jbCall jb c).1.frames = FrameQueue.insert jb.frames f ∧
        (jbCall jb c).1.info.framesCur = jb.info.framesCur + 1) ∨
      (jbCall jb c).1.frames = FrameQueue.drop jb.frames := by
  cases c with
  | put data type ms ts now =>
      rcases taken_jbPut jb data type ms ts now with
        ⟨-, hframes, -⟩ | ⟨f, -, -, hframes, hinfo⟩
      · exact .inl hframes
      · exact .inr (.inl ⟨f, hframes, hinfo.framesCur⟩)
  | get now interpl =>
      rcases got_jbGet jb now interpl with ⟨-, -, hframes, -⟩ | ⟨f, -, -, hframes, -⟩
      · exact .inl hframes
      · exact .inr (.inr hframes)
  | getall =>
      unfold jbCall jbGetall
      dsimp only
      rcases queueGet_cases jb 0 true with hg | ⟨f, -, -, hg⟩
      · rw [hg]
        exact .inl rfl
      · rw [hg]
        exact .inr (.inr rfl)
  | getinfo => exact .inl rfl
  | setconf conf => exact .inl rfl
  | next => exact .inl rfl

section Memory

variable {δ : Type*} (conf : Conf) (node : ℕ → Frame δ) (links : Links ℕ)

/-- After every run the queue is whole and `frames_cur` long. -/
theorem exists_nodes_run (calls : List (Call δ)) :
    ∃ nodes spare, (jbRun (coded conf node links) calls).frames.WellFormed nodes spare ∧
      (jbRun (coded conf node links) calls).info.framesCur = nodes.length := by
  obtain ⟨nodes, spare, pool, hwf, hperm, hinfo, hledger⟩ := exists_ledger_run conf node links calls
  have hlen := hperm.length_eq
  rw [List.length_map] at hlen
  refine ⟨nodes, spare, hwf, ?_⟩
  rw [← hinfo, hlen]
  exact hledger.framesCur

/-- One more call: the memory grows by one node when it takes a frame in that makes the queue longer
than ever, and else stays. -/
theorem brk_jbCall (calls : List (Call δ)) (c : Call δ) :
    (jbRun (coded conf node links) (calls ++ [c])).frames.brk =
        (jbRun (coded conf node links) calls).frames.brk ∨
      (jbRun (coded conf node links) (calls ++ [c])).frames.brk =
        (jbRun (coded conf node links) calls).frames.brk + 1 ∧
      (jbRun (coded conf node links) (calls ++ [c])).info.framesCur + 1 =
        (jbRun (coded conf node links) (calls ++ [c])).frames.brk := by
  obtain ⟨nodes, spare, hwf, hcur⟩ := exists_nodes_run conf node links calls
  rw [jbRun_concat]
  rcases frames_jbCall (jbRun (coded conf node links) calls) c with
    hkept | ⟨f, hput, hcount⟩ | hout
  · exact .inl (congrArg RingQueue.brk hkept)
  · have hbrk := hwf.insert_brk f
    rw [hput]
    change RingQueue.brk (RingQueue.insert _ f) = _ ∨ RingQueue.brk (RingQueue.insert _ f) = _ ∧
      _ = ((RingQueue.brk (RingQueue.insert _ f) : ℕ) : ℤ)
    rw [hbrk]
    by_cases hspare : spare = []
    · have hlen := hwf.length_add
      rw [hspare, List.length_nil] at hlen
      rw [if_pos hspare, hcount, hcur]
      exact .inr ⟨rfl, by omega⟩
    · rw [if_neg hspare]
      exact .inl rfl
  · rw [hout]
    exact .inl rfl

/-- There are never more frames queued than nodes. -/
theorem framesCur_lt_brk (calls : List (Call δ)) :
    (jbRun (coded conf node links) calls).info.framesCur <
      (jbRun (coded conf node links) calls).frames.brk := by
  obtain ⟨nodes, spare, hwf, hcur⟩ := exists_nodes_run conf node links calls
  have hlen := hwf.length_add
  omega

/-- The memory allocated is the longest the queue ever was. -/
theorem brk_eq_peak (calls : List (Call δ)) :
    (∀ p, p <+: calls → (jbRun (coded conf node links) p).info.framesCur <
      (jbRun (coded conf node links) calls).frames.brk) ∧
    ∃ p, p <+: calls ∧ (jbRun (coded conf node links) p).info.framesCur + 1 =
      (jbRun (coded conf node links) calls).frames.brk := by
  induction calls using List.reverseRecOn with
  | nil =>
      refine ⟨fun p hp => ?_, [], List.prefix_rfl, rfl⟩
      rw [List.prefix_nil.mp hp]
      exact framesCur_lt_brk conf node links []
  | append_singleton calls c ih =>
      obtain ⟨hbound, p, hp, hpeak⟩ := ih
      have hgrow := brk_jbCall conf node links calls c
      refine ⟨fun p hp => ?_, ?_⟩
      · rcases List.prefix_concat_iff.mp hp with rfl | hp
        · exact framesCur_lt_brk conf node links (calls ++ [c])
        · have hp' := hbound p hp
          omega
      · rcases hgrow with hsame | ⟨-, hnew⟩
        · exact ⟨p, hp.trans (List.prefix_append calls [c]), by rw [hsame]; exact hpeak⟩
        · exact ⟨calls ++ [c], List.prefix_rfl, hnew⟩

/-- **Memory is reused, and given back.** After every run the number of nodes allocated is the
largest number of frames that were ever queued at once; `jb_destroy` frees no node twice, and every
node that is not in the queue any more. -/
theorem jitterbuf_memory (calls : List (Call δ)) :
    (∀ p, p <+: calls → (jbRun (coded conf node links) p).info.framesCur <
      (jbRun (coded conf node links) calls).frames.brk) ∧
    (∃ p, p <+: calls ∧ (jbRun (coded conf node links) p).info.framesCur + 1 =
      (jbRun (coded conf node links) calls).frames.brk) ∧
    ∃ nodes spare, (jbRun (coded conf node links) calls).frames.WellFormed nodes spare ∧
      (nodes ++ (jbRun (coded conf node links) calls).frames.jbDestroy).Perm
        (List.range' 1 ((jbRun (coded conf node links) calls).frames.brk - 1)) := by
  obtain ⟨nodes, spare, hwf, -⟩ := exists_nodes_run conf node links calls
  obtain ⟨hbound, hpeak⟩ := brk_eq_peak conf node links calls
  refine ⟨hbound, hpeak, nodes, spare, hwf, ?_⟩
  rw [hwf.jbDestroy_eq]
  exact hwf.perm_range

end Memory

end Fgcom.Jitter
