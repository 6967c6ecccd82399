import Fgcom.Iax.Schedule
import Fgcom.Lib.EventRun

/-! # The life of a session

A session is a block of memory, and the schedule of `iax.c` goes on pointing to it after
`destroy_session` has freed it: the frames stay, marked as acknowledged. Their time still comes, and
a frame that is `final` then has the session it points to destroyed once more. That does nothing, if
no new session has been put at the same address.

* **`destroySession`**, **`sendCommandFinal`**, **`getSched`** — `destroy_session`,
  `send_command_final`, and the loop over the schedule in `iax_get_event`.
* **`final_never_repeated`** — a frame that ends a session is sent once and never again, and only
  the frames of a live session time out.
* **`destroyed_on_own_behalf`** — if the memory of a session is not handed out again while a final
  frame points to it, every session that is destroyed is destroyed on its own behalf.
* **`reuse_destroys_iff`** — if it is handed out while one does, and only then, time alone destroys
  the new session, however it passes.

Addresses are of any type; `malloc` hands out any that is not in use. Sessions are numbered in the
order in which they are made. The numbers, `owner` and `log` are not in the code, and nothing reads
them. -/

namespace Fgcom.Iax

open EventRun StableInsert

/-! ## The code -/

/-- `struct iax_frame` in the schedule, and the session it was made for. -/
structure Pending (α : Type*) where
  session : α
  owner : ℕ
  final : Bool
  retries : ℤ
  retrytime : ℤ

/-- What an entry of the schedule holds: a frame, or `send_ping` and its argument. -/
inductive Task (α : Type*)
  | frame (f : Pending α)
  | ping (session : α)

/-- What happens to a session. -/
inductive Happening
  /-- `destroy_session` has destroyed it, on behalf of a session. -/
  | destroyed (session owner : ℕ)
  /-- The application is told that a frame of `owner` was not acknowledged. -/
  | timeout (session owner : ℕ)
  /-- A frame is sent once more. -/
  | repeated (owner : ℕ) (final : Bool)
  /-- The first attempt to send its last frame has failed. -/
  | refused (session : ℕ)
deriving DecidableEq

/-- The sessions and the schedule. -/
structure Library (α : Type*) where
  sessions : List (α × ℕ)
  schedq : List (Entry (Task α))
  born : ℕ
  log : List Happening

/-- Nothing yet. -/
def Library.start {α : Type*} : Library α := ⟨[], [], 0, []⟩

/-- `iax_session_new`, with the address `malloc` has handed out. -/
def iaxSessionNew {α : Type*} (l : Library α) (session : α) : Library α :=
  { l with sessions := (session, l.born) :: l.sessions, born := l.born + 1 }

section Code

variable {α : Type*} [DecidableEq α]

/-- `iax_session_valid`, and which session it is. -/
def Library.find (l : Library α) (session : α) : Option ℕ :=
  (l.sessions.find? fun s => s.1 = session).map Prod.snd

/-- Just mark these frames as if they've been sent. -/
def Task.mark (session : α) : Task α → Task α
  | .frame f => .frame (if f.session = session then { f with retries := -1 } else f)
  | .ping session' => .ping session'

/-- `destroy_session`. -/
def destroySession (l : Library α) (session : α) (owner : ℕ) : Library α :=
  { l with
    schedq := l.schedq.map fun cur => { cur with what := cur.what.mark session }
    sessions := l.sessions.eraseP fun s => s.1 = session
    log := l.log ++ ((l.find session).map fun i => .destroyed i owner).toList }

/-- `iax_reliable_xmit`: the frame as `iax_send` makes it goes into the schedule. -/
def reliableXmit (l : Library α) (session : α) (owner : ℕ) (final : Bool) (pingtime : ℕ)
    (now : TimeVal) : Library α :=
  let f : Pending α := ⟨session, owner, final, maxretries, retrytimeOf pingtime⟩
  { l with schedq := iaxSchedAdd now f.retrytime (.frame f) l.schedq }

/-- `send_command_final`: unless it could not be sent, the session goes at once. -/
def sendCommandFinal (l : Library α) (session : α) (owner : ℕ) (sent : Bool) (pingtime : ℕ)
    (now : TimeVal) : Library α :=
  let l := reliableXmit l session owner true pingtime now
  if sent then destroySession l session owner else { l with log := l.log ++ [.refused owner] }

/-- `iax_sched_del(NULL, NULL, send_ping, session, 1)`. -/
def delPing (l : Library α) (session : α) : Library α :=
  { l with
    schedq := l.schedq.filter fun cur =>
      match cur.what with
      | .ping session' => session' ≠ session
      | .frame _ => true }

/-- `iax_sched_add(NULL, NULL, send_ping, session, ms)`. -/
def addPing (l : Library α) (session : α) (ms : ℤ) (now : TimeVal) : Library α :=
  { l with schedq := iaxSchedAdd now ms (.ping session) l.schedq }

/-- A frame that is sent once more. -/
def Pending.again (f : Pending α) : Pending α :=
  { f with
    retries := f.retries - 1
    retrytime := if f.retrytime * 4 > maxRetryTime then maxRetryTime else f.retrytime * 4 }

/-- An entry taken out of the schedule, in the loop of `iax_get_event`. -/
def Library.handle (l : Library α) (pingtime : ℕ) (now : TimeVal) : Task α → Library α
  | .frame f =>
      if f.retries < 0 then
        if f.final then destroySession l f.session f.owner else l
      else if f.retries = 0 then
        if f.final then destroySession l f.session f.owner
        -- `handle_event` passes it on if the session is valid
        else { l with log := l.log ++ ((l.find f.session).map fun i => .timeout i f.owner).toList }
      else
        { l with
          schedq := iaxSchedAdd now f.again.retrytime (.frame f.again) l.schedq
          log := l.log ++ [.repeated f.owner f.final] }
  | .ping session =>
      match l.find session with
      | none => l
      | some i => addPing (reliableXmit l session i false pingtime now) session 10000 now

/-- One turn of the loop over the schedule in `iax_get_event`. -/
def getSched (l : Library α) (tv : TimeVal) (pingtime : ℕ) (now : TimeVal) : Library α :=
  match iaxGetSched tv l.schedq with
  | none => l
  | some (cur, schedq) => { l with schedq := schedq }.handle pingtime now cur.what

/-- What is done with sessions. The application and the network name only sessions there are, by
their address; a session is told here by its number, too. -/
inductive Use (α : Type*)
  /-- `iax_session_new`, at an address. -/
  | new (session : α)
  /-- `send_command` and the like. -/
  | send (session : α) (i pingtime : ℕ) (now : TimeVal)
  /-- The first ping, in `iax_call` and `iax_find_session`. -/
  | startPing (session : α) (i : ℕ) (now : TimeVal)
  /-- `iax_hangup`. -/
  | hangup (session : α) (i : ℕ) (sent : Bool) (pingtime : ℕ) (now : TimeVal)
  /-- `iax_reject`, and the refusal of a codec. -/
  | reject (session : α) (i : ℕ) (sent : Bool) (pingtime : ℕ) (now : TimeVal)
  /-- A frame of the session is acknowledged. -/
  | acked (session : α) (i k : ℕ)
  /-- `iax_destroy`, and `iax_event_free` of a hang-up or a reject. -/
  | release (session : α) (i : ℕ)
  /-- The loop over the schedule. -/
  | timer (tv : TimeVal) (pingtime : ℕ) (now : TimeVal)

/-- The frame at `k` is acknowledged. -/
def Library.ack (l : Library α) (session : α) (k : ℕ) : Library α :=
  { l with schedq := l.schedq.modify k fun cur => { cur with what := cur.what.mark session } }

/-- One step. -/
def Library.use (l : Library α) : Use α → Option (Library α)
  | .new session =>
      if session ∈ l.sessions.map Prod.fst then none
      else some (iaxSessionNew l session)
  | .send session i pingtime now =>
      if (session, i) ∈ l.sessions then some (reliableXmit l session i false pingtime now)
      else none
  | .startPing session i now =>
      if (session, i) ∈ l.sessions then some (addPing l session 2000 now) else none
  | .hangup session i sent pingtime now =>
      if (session, i) ∈ l.sessions then
        some (sendCommandFinal (delPing l session) session i sent pingtime now)
      else none
  | .reject session i sent pingtime now =>
      if (session, i) ∈ l.sessions then some (sendCommandFinal l session i sent pingtime now)
      else none
  | .acked session i k => if (session, i) ∈ l.sessions then some (l.ack session k) else none
  | .release session i =>
      if (session, i) ∈ l.sessions then some (destroySession l session i) else none
  | .timer tv pingtime now => some (getSched l tv pingtime now)

end Code

/-! ## Sessions and entries -/

section Basics

variable {α : Type*} {l : Library α} {session : α} {i : ℕ} {now : TimeVal} {t : Task α}

/-- What the schedule holds. -/
def Library.tasks (l : Library α) : List (Task α) := l.schedq.map Entry.what

/-- A session there is. -/
def Library.Live (l : Library α) (i : ℕ) : Prop := ∃ session, (session, i) ∈ l.sessions

/-- Adding an entry adds what it holds. -/
theorem mem_what_iaxSchedAdd {ms : ℤ} {what : Task α} {schedq : List (Entry (Task α))} :
    t ∈ (iaxSchedAdd now ms what schedq).map Entry.what ↔
      t = what ∨ t ∈ schedq.map Entry.what := by
  unfold iaxSchedAdd
  rw [putInOrder_eq, List.mem_map, List.mem_map]
  constructor
  · rintro ⟨e, he, rfl⟩
    rcases (mem_insertAfter _).mp he with rfl | he
    · exact Or.inl rfl
    · exact Or.inr ⟨e, he, rfl⟩
  · rintro (rfl | ⟨e, he, rfl⟩)
    · exact ⟨_, (mem_insertAfter _).mpr (Or.inl rfl), rfl⟩
    · exact ⟨e, (mem_insertAfter _).mpr (Or.inr he), rfl⟩

/-- What comes out of the schedule was in it, and so was what is left. -/
theorem iaxGetSched_mem {tv : TimeVal} {schedq rest : List (Entry (Task α))}
    {cur : Entry (Task α)} (h : iaxGetSched tv schedq = some (cur, rest)) :
    cur ∈ schedq ∧ ∀ e ∈ rest, e ∈ schedq := by
  induction schedq with
  | nil => exact absurd h (by simp [iaxGetSched])
  | cons e schedq ih =>
      rw [iaxGetSched] at h
      split_ifs at h
      · obtain ⟨rfl, rfl⟩ := Prod.mk.inj (Option.some.inj h)
        exact ⟨by simp, fun e he => by simp [he]⟩
      · obtain ⟨hcur, hrest⟩ := ih h
        exact ⟨by simp [hcur], fun e he => by simp [hrest e he]⟩

/-- No two sessions have the same address or the same number. -/
structure Library.Apart (l : Library α) : Prop where
  addresses : (l.sessions.map Prod.fst).Nodup
  numbers : (l.sessions.map Prod.snd).Nodup
  known : ∀ s ∈ l.sessions, s.2 < l.born

/-- A number stands for one session. -/
theorem Library.Apart.eq_of_number (h : l.Apart) {a b : α} (ha : (a, i) ∈ l.sessions)
    (hb : (b, i) ∈ l.sessions) : a = b :=
  congrArg Prod.fst (List.inj_on_of_nodup_map h.numbers ha hb rfl)

/-- An address stands for one session. -/
theorem Library.Apart.eq_of_address (h : l.Apart) {j : ℕ} (hi : (session, i) ∈ l.sessions)
    (hj : (session, j) ∈ l.sessions) : i = j :=
  congrArg Prod.snd (List.inj_on_of_nodup_map h.addresses hi hj rfl)

end Basics

section Destroy

variable {α : Type*} [DecidableEq α] {l : Library α} {session : α} {i : ℕ}

/-- The session at an address. -/
theorem find_eq_some_iff (h : l.Apart) : l.find session = some i ↔ (session, i) ∈ l.sessions := by
  unfold Library.find
  rw [Option.map_eq_some_iff]
  constructor
  · rintro ⟨s, hs, rfl⟩
    obtain rfl : s.1 = session := by simpa using List.find?_some hs
    exact List.mem_of_find?_eq_some hs
  · intro hmem
    cases hs : l.sessions.find? fun s => s.1 = session with
    | none => exact absurd (List.find?_eq_none.mp hs _ hmem) (by simp)
    | some s =>
        have hfst : s.1 = session := by simpa using List.find?_some hs
        have heq : s = (session, i) :=
          List.inj_on_of_nodup_map h.addresses (List.mem_of_find?_eq_some hs) hmem hfst
        exact ⟨s, rfl, by rw [heq]⟩

/-- Without the session at an address. -/
theorem mem_sessions_destroySession (h : l.Apart) (session : α) (owner : ℕ) (s : α × ℕ) :
    s ∈ (destroySession l session owner).sessions ↔ s ∈ l.sessions ∧ s.1 ≠ session := by
  change s ∈ l.sessions.eraseP _ ↔ _
  have haddresses := h.addresses
  generalize l.sessions = sessions at haddresses ⊢
  induction sessions with
  | nil => simp
  | cons s' sessions ih =>
      rw [List.map_cons, List.nodup_cons] at haddresses
      rw [List.eraseP_cons]
      by_cases hs' : s'.1 = session
      · -- the others are at other addresses
        rw [decide_eq_true hs', cond_true, List.mem_cons]
        constructor
        · intro hs
          refine ⟨Or.inr hs, fun heq => haddresses.1 ?_⟩
          rw [hs', ← heq]
          exact List.mem_map_of_mem hs
        · rintro ⟨rfl | hs, hne⟩
          · exact absurd hs' hne
          · exact hs
      · have hrest := ih haddresses.2
        rw [decide_eq_false hs', cond_false, List.mem_cons, List.mem_cons]
        refine (or_congr Iff.rfl hrest).trans ?_
        constructor
        · rintro (rfl | ⟨hs, hne⟩)
          · exact ⟨Or.inl rfl, hs'⟩
          · exact ⟨Or.inr hs, hne⟩
        · rintro ⟨rfl | hs, hne⟩
          · exact Or.inl rfl
          · exact Or.inr ⟨hs, hne⟩

theorem Library.Apart.destroy (h : l.Apart) (session : α) (owner : ℕ) :
    (destroySession l session owner).Apart where
  addresses := h.addresses.sublist (List.eraseP_sublist.map _)
  numbers := h.numbers.sublist (List.eraseP_sublist.map _)
  known := fun s hs => h.known s ((mem_sessions_destroySession h session owner s).mp hs).1

end Destroy

/-! ## Frames and their sessions -/

section Owned

variable {α : Type*} {l l' : Library α} {session : α} {i : ℕ} {f : Pending α}

/-- A frame in the schedule points to the session it was made for, or that session is gone and the
frame marked. -/
structure Library.Fits (l : Library α) (f : Pending α) : Prop where
  known : f.owner < l.born
  retrytime : 0 ≤ f.retrytime
  session : (f.session, f.owner) ∈ l.sessions ∨ f.retries < 0 ∧ ¬ l.Live f.owner

/-- Every frame does. -/
structure Library.Owned (l : Library α) : Prop extends l.Apart where
  frames : ∀ f, .frame f ∈ l.tasks → l.Fits f

/-- A frame that is marked. -/
def Pending.acked (f : Pending α) : Pending α := { f with retries := -1 }

/-- A marked frame still fits. -/
theorem Library.Fits.acked (h : l.Fits f) : l.Fits f.acked where
  known := h.known
  retrytime := h.retrytime
  session := h.session.imp_right fun hdead => ⟨by simp [Pending.acked], hdead.2⟩

/-- What fits does not depend on the schedule and the log. -/
theorem Library.Fits.congr (h : l.Fits f) (hsessions : l'.sessions = l.sessions)
    (hborn : l'.born = l.born) : l'.Fits f where
  known := hborn ▸ h.known
  retrytime := h.retrytime
  session := by
    unfold Library.Live
    rw [hsessions]
    exact h.session

/-- Nothing happens to the sessions, and every frame fits. -/
theorem Library.Owned.congr (h : l.Owned) (hsessions : l'.sessions = l.sessions)
    (hborn : l'.born = l.born) (hframes : ∀ f, .frame f ∈ l'.tasks → l.Fits f) : l'.Owned where
  addresses := hsessions ▸ h.addresses
  numbers := hsessions ▸ h.numbers
  known := by
    rw [hsessions, hborn]
    exact h.known
  frames := fun f hf => (hframes f hf).congr hsessions hborn

/-- A new session fits. -/
theorem Library.Owned.new (h : l.Owned) (hfree : session ∉ l.sessions.map Prod.fst) :
    (iaxSessionNew l session).Owned where
  addresses := List.nodup_cons.mpr ⟨hfree, h.addresses⟩
  numbers := by
    refine List.nodup_cons.mpr ⟨fun hmem => ?_, h.numbers⟩
    obtain ⟨s, hs, hborn⟩ := List.mem_map.mp hmem
    exact absurd (h.known s hs) (by rw [hborn]; exact lt_irrefl _)
  known := by
    intro s hs
    rcases List.mem_cons.mp hs with rfl | hs
    · exact Nat.lt_succ_self _
    · exact Nat.lt_succ_of_lt (h.known s hs)
  frames := by
    intro f hf
    have hfits := h.frames f hf
    refine ⟨Nat.lt_succ_of_lt hfits.known, hfits.retrytime, ?_⟩
    refine hfits.session.imp (List.mem_cons_of_mem _) fun hdead => ⟨hdead.1, ?_⟩
    rintro ⟨session', hlive⟩
    rcases List.mem_cons.mp hlive with hnew | hold
    · have hnumber : f.owner = l.born := congrArg Prod.snd hnew
      exact absurd hfits.known (by omega)
    · exact hdead.2 ⟨session', hold⟩

/-- The retry time is not negative. -/
theorem retrytimeOf_nonneg (pingtime : ℕ) : 0 ≤ retrytimeOf pingtime := by
  unfold retrytimeOf minRetryTime maxRetryTime
  dsimp only
  split_ifs <;> omega

/-- A new frame of a session fits. -/
theorem Library.Owned.xmit (h : l.Owned) (hlive : (session, i) ∈ l.sessions)
    (final : Bool) (pingtime : ℕ) (now : TimeVal) :
    (reliableXmit l session i final pingtime now).Owned := by
  refine h.congr rfl rfl fun f hf => ?_
  rcases mem_what_iaxSchedAdd.mp hf with hnew | hold
  · obtain rfl := Task.frame.inj hnew
    refine ⟨h.known _ hlive, ?_, Or.inl hlive⟩
    dsimp only
    exact retrytimeOf_nonneg pingtime
  · exact h.frames f hold

end Owned

section Kept

variable {α : Type*} [DecidableEq α] {l : Library α} {session : α} {i : ℕ} {f : Pending α}

/-- A marked frame was there before, marked or not. -/
theorem mem_mark {tasks : List (Task α)} (h : .frame f ∈ tasks.map (Task.mark session)) :
    ∃ g, .frame g ∈ tasks ∧
      ((g.session ≠ session ∧ f = g) ∨ (g.session = session ∧ f = g.acked)) := by
  obtain ⟨t, ht, hmark⟩ := List.mem_map.mp h
  cases t with
  | ping session' => exact absurd hmark (by simp [Task.mark])
  | frame g =>
      refine ⟨g, ht, ?_⟩
      rw [Task.mark, Task.frame.injEq] at hmark
      by_cases hg : g.session = session
      · exact Or.inr ⟨hg, by rw [← hmark, if_pos hg, Pending.acked]⟩
      · exact Or.inl ⟨hg, by rw [← hmark, if_neg hg]⟩

/-- **The frames of a session that is destroyed are marked.** -/
theorem Library.Owned.destroy (h : l.Owned) (session : α) (owner : ℕ) :
    (destroySession l session owner).Owned where
  toApart := h.toApart.destroy session owner
  frames := by
    intro f hf
    have hmarked : .frame f ∈ l.tasks.map (Task.mark session) := by
      simpa [Library.tasks, destroySession] using hf
    have hdead : ∀ j, ¬ l.Live j → ¬ (destroySession l session owner).Live j := by
      rintro j hj ⟨session', hlive⟩
      exact hj ⟨session', ((mem_sessions_destroySession h.toApart session owner _).mp hlive).1⟩
    obtain ⟨g, hg, ⟨hne, rfl⟩ | ⟨heq, rfl⟩⟩ := mem_mark hmarked
    · have hfits := h.frames f hg
      refine ⟨hfits.known, hfits.retrytime, hfits.session.imp (fun hlive => ?_) fun hgone =>
        ⟨hgone.1, hdead _ hgone.2⟩⟩
      exact (mem_sessions_destroySession h.toApart session owner _).mpr ⟨hlive, hne⟩
    · have hfits := h.frames g hg
      refine ⟨hfits.known, hfits.retrytime, Or.inr ⟨by simp [Pending.acked], ?_⟩⟩
      rcases hfits.session with hlive | hgone
      · -- the session at this address is the one the frame was made for
        rintro ⟨session', hlive'⟩
        obtain ⟨hmem, hne⟩ := (mem_sessions_destroySession h.toApart session owner _).mp hlive'
        exact hne ((h.toApart.eq_of_number hmem hlive).trans heq)
      · exact hdead _ hgone.2

end Kept

/-! ## One step -/

section Sound

variable {α : Type*} {l l' : Library α} {session : α} {i : ℕ} {f : Pending α}

/-- What may have happened: a time-out is that of the session whose frame was not acknowledged, and
a frame that ends a session is sent once more only if it could not be sent the first time. -/
def Happening.Fine (log : List Happening) : Happening → Prop
  | .timeout session owner => session = owner
  | .repeated owner final => final = true → .refused owner ∈ log
  | _ => True

/-- What holds in every state. A frame that ends a session belongs to one that is gone, unless it
could not be sent. -/
structure Library.Sound (l : Library α) : Prop extends l.Owned where
  finals : ∀ f, .frame f ∈ l.tasks → f.final = true → ¬ l.Live f.owner ∨ .refused f.owner ∈ l.log
  log : ∀ h ∈ l.log, h.Fine l.log

theorem sound_start {α : Type*} : (Library.start : Library α).Sound where
  addresses := List.nodup_nil
  numbers := List.nodup_nil
  known := by simp [Library.start]
  frames := by simp [Library.start, Library.tasks]
  finals := by simp [Library.start, Library.tasks]
  log := by simp [Library.start]

/-- With more of a log the same is fine. -/
theorem Happening.Fine.mono {log log' : List Happening} {h : Happening} (hfine : h.Fine log)
    (hlog : log ⊆ log') : h.Fine log' := by
  cases h with
  | repeated owner final => exact fun hfinal => hlog (hfine hfinal)
  | timeout session owner => exact hfine
  | destroyed session owner => trivial
  | refused session => trivial

/-- A step that leaves the sessions alone: each frame fits, one that ends a session stands for one
that was there, and what has happened is fine. -/
theorem Library.Sound.keep (h : l.Sound) (hsessions : l'.sessions = l.sessions)
    (hborn : l'.born = l.born) (hframes : ∀ f, .frame f ∈ l'.tasks → l.Fits f)
    (hfinals : ∀ f, .frame f ∈ l'.tasks → f.final = true →
      ¬ l.Live f.owner ∨ .refused f.owner ∈ l'.log)
    (more : List Happening) (hlog : l'.log = l.log ++ more) (hmore : ∀ x ∈ more, x.Fine l.log) :
    l'.Sound where
  toOwned := h.toOwned.congr hsessions hborn hframes
  finals := by
    unfold Library.Live
    rw [hsessions]
    exact hfinals
  log := by
    have hsub : l.log ⊆ l'.log := by simp [hlog]
    intro x hx
    rw [hlog] at hx
    rcases List.mem_append.mp hx with hx | hx
    · exact (h.log x hx).mono hsub
    · exact (hmore x hx).mono hsub

/-- Nothing has happened, and no frame is new. -/
theorem Library.Sound.fewer (h : l.Sound) (hsessions : l'.sessions = l.sessions)
    (hborn : l'.born = l.born) (hlog : l'.log = l.log)
    (hframes : ∀ f, .frame f ∈ l'.tasks → .frame f ∈ l.tasks) : l'.Sound :=
  h.keep hsessions hborn (fun f hf => h.frames f (hframes f hf))
    (fun f hf hfinal => by
      rw [hlog]
      exact h.finals f (hframes f hf) hfinal)
    [] (by rw [hlog, List.append_nil]) (by simp)

theorem Library.Sound.new (h : l.Sound) (hfree : session ∉ l.sessions.map Prod.fst) :
    (iaxSessionNew l session).Sound where
  toOwned := h.toOwned.new hfree
  finals := by
    intro f hf hfinal
    refine (h.finals f hf hfinal).imp_left fun hdead => ?_
    rintro ⟨session', hlive⟩
    rcases List.mem_cons.mp hlive with hnew | hold
    · have hnumber : f.owner = l.born := congrArg Prod.snd hnew
      have hknown := (h.frames f hf).known
      omega
    · exact hdead ⟨session', hold⟩
  log := h.log

theorem Library.Sound.xmit (h : l.Sound) (hlive : (session, i) ∈ l.sessions) (pingtime : ℕ)
    (now : TimeVal) : (reliableXmit l session i false pingtime now).Sound where
  toOwned := h.toOwned.xmit hlive false pingtime now
  finals := by
    intro f hf hfinal
    rcases mem_what_iaxSchedAdd.mp hf with hnew | hold
    · obtain rfl := Task.frame.inj hnew
      exact absurd hfinal (by simp)
    · exact h.finals f hold hfinal
  log := h.log

theorem Library.Sound.addPing (h : l.Sound) (session : α) (ms : ℤ) (now : TimeVal) :
    (addPing l session ms now).Sound := by
  refine h.fewer rfl rfl rfl fun f hf => ?_
  rcases mem_what_iaxSchedAdd.mp hf with hnew | hold
  · exact absurd hnew (by simp)
  · exact hold

end Sound

section Step

variable {α : Type*} [DecidableEq α] {l l' : Library α} {session : α} {i owner pingtime : ℕ}
  {now tv : TimeVal}

theorem Library.Sound.delPing (h : l.Sound) (session : α) : (delPing l session).Sound :=
  h.fewer rfl rfl rfl fun _ hf => List.map_subset _ (List.filter_subset_self _) hf

/-- Marking some frames leaves everything sound. -/
theorem Library.Sound.marked (h : l.Sound) (hsessions : l'.sessions = l.sessions)
    (hborn : l'.born = l.born) (hlog : l'.log = l.log)
    (htasks : ∀ t ∈ l'.tasks, t ∈ l.tasks ∨ t ∈ l.tasks.map (Task.mark session)) : l'.Sound := by
  have hold : ∀ f, .frame f ∈ l'.tasks → ∃ g, .frame g ∈ l.tasks ∧ (f = g ∨ f = g.acked) := by
    intro f hf
    rcases htasks _ hf with hf | hf
    · exact ⟨f, hf, Or.inl rfl⟩
    · obtain ⟨g, hg, ⟨-, rfl⟩ | ⟨-, rfl⟩⟩ := mem_mark hf
      · exact ⟨f, hg, Or.inl rfl⟩
      · exact ⟨g, hg, Or.inr rfl⟩
  refine h.keep hsessions hborn (fun f hf => ?_) (fun f hf hfinal => ?_) []
    (by rw [hlog, List.append_nil]) (by simp)
  · obtain ⟨g, hg, rfl | rfl⟩ := hold f hf
    · exact h.frames f hg
    · exact (h.frames g hg).acked
  · rw [hlog]
    obtain ⟨g, hg, rfl | rfl⟩ := hold f hf
    · exact h.finals f hg hfinal
    · exact h.finals g hg hfinal

/-- Acknowledging a frame marks it, if it points to the session. -/
theorem mem_ack {t : Task α} {k : ℕ} (ht : t ∈ (l.ack session k).tasks) :
    t ∈ l.tasks ∨ t ∈ l.tasks.map (Task.mark session) := by
  obtain ⟨e, he, rfl⟩ := List.mem_map.mp ht
  obtain ⟨n, hn⟩ := List.mem_iff_getElem?.mp he
  rw [Library.ack, List.getElem?_modify] at hn
  by_cases hk : k = n
  · obtain ⟨e', he', rfl⟩ := Option.map_eq_some_iff.mp (by simpa [hk] using hn)
    right
    exact List.mem_map.mpr ⟨e'.what, List.mem_map_of_mem (List.mem_of_getElem? he'), rfl⟩
  · left
    exact List.mem_map_of_mem (List.mem_of_getElem? (by simpa [hk] using hn))

theorem Library.Sound.ack (h : l.Sound) (session : α) (k : ℕ) : (l.ack session k).Sound :=
  h.marked rfl rfl rfl fun _ => mem_ack

theorem Library.Sound.destroy (h : l.Sound) (session : α) (owner : ℕ) :
    (destroySession l session owner).Sound where
  toOwned := h.toOwned.destroy session owner
  finals := by
    intro f hf hfinal
    have hmarked : .frame f ∈ l.tasks.map (Task.mark session) := by
      simpa [Library.tasks, destroySession] using hf
    have hold : ¬ l.Live f.owner ∨ .refused f.owner ∈ l.log := by
      obtain ⟨g, hg, ⟨-, rfl⟩ | ⟨-, rfl⟩⟩ := mem_mark hmarked
      · exact h.finals f hg hfinal
      · exact h.finals g hg hfinal
    refine hold.imp (fun hdead => ?_) fun hrefused => List.mem_append_left _ hrefused
    rintro ⟨session', hlive⟩
    exact hdead ⟨session', ((mem_sessions_destroySession h.toApart session owner _).mp hlive).1⟩
  log := by
    intro x hx
    rcases List.mem_append.mp hx with hx | hx
    · exact (h.log x hx).mono (List.subset_append_left _ _)
    · obtain ⟨j, -, rfl⟩ := Option.map_eq_some_iff.mp (Option.mem_toList.mp hx)
      trivial

/-- **The last frame of a session.** It stands in the schedule marked, as the session is gone. -/
theorem Library.Sound.sendCommandFinal (h : l.Sound) (hlive : (session, i) ∈ l.sessions)
    (sent : Bool) (pingtime : ℕ) (now : TimeVal) :
    (sendCommandFinal l session i sent pingtime now).Sound := by
  have howned : (reliableXmit l session i true pingtime now).Owned :=
    h.toOwned.xmit hlive true pingtime now
  -- only the new frame is not as it should be yet
  have hfinals : ∀ f, .frame f ∈ (reliableXmit l session i true pingtime now).tasks →
      f.final = true → f.owner = i ∨ ¬ l.Live f.owner ∨ .refused f.owner ∈ l.log := by
    intro f hf hfinal
    rcases mem_what_iaxSchedAdd.mp hf with hnew | hold
    · obtain rfl := Task.frame.inj hnew
      exact Or.inl rfl
    · exact Or.inr (h.finals f hold hfinal)
  unfold Iax.sendCommandFinal
  dsimp only
  split_ifs
  · refine ⟨howned.destroy session i, fun f hf hfinal => ?_, fun x hx => ?_⟩
    · have hmarked : .frame f ∈ (reliableXmit l session i true pingtime now).tasks.map
          (Task.mark session) := by
        simpa [Library.tasks, destroySession] using hf
      have hdead : ∀ j, j = i ∨ ¬ l.Live j →
          ¬ (destroySession (reliableXmit l session i true pingtime now) session i).Live j := by
        rintro j hj ⟨session', hlive'⟩
        obtain ⟨hmem, hne⟩ := (mem_sessions_destroySession howned.toApart session i _).mp hlive'
        rcases hj with rfl | hj
        · exact hne (h.toApart.eq_of_number hmem hlive)
        · exact hj ⟨session', hmem⟩
      have hold : f.owner = i ∨ ¬ l.Live f.owner ∨ .refused f.owner ∈ l.log := by
        obtain ⟨g, hg, ⟨-, rfl⟩ | ⟨-, rfl⟩⟩ := mem_mark hmarked
        · exact hfinals f hg hfinal
        · exact hfinals g hg hfinal
      rcases hold with hi | hgone | hrefused
      · exact Or.inl (hdead _ (Or.inl hi))
      · exact Or.inl (hdead _ (Or.inr hgone))
      · exact Or.inr (List.mem_append_left _ hrefused)
    · rcases List.mem_append.mp hx with hx | hx
      · exact (h.log x hx).mono (List.subset_append_left _ _)
      · obtain ⟨j, -, rfl⟩ := Option.map_eq_some_iff.mp (Option.mem_toList.mp hx)
        trivial
  · refine h.keep rfl rfl (fun f hf => ?_) (fun f hf hfinal => ?_) [.refused i] rfl
      (by simp [Happening.Fine])
    · exact (howned.frames f hf).congr rfl rfl
    · rcases hfinals f hf hfinal with hi | hgone | hrefused
      · exact Or.inr (List.mem_append_right _ (by simp [hi]))
      · exact Or.inl hgone
      · exact Or.inr (List.mem_append_left _ hrefused)

/-- **An entry whose time has come**, taken out of the schedule. -/
theorem Library.Sound.handle {t : Task α} (h : l.Sound)
    (hframe : ∀ f, t = .frame f → l.Fits f ∧
      (f.final = true → ¬ l.Live f.owner ∨ .refused f.owner ∈ l.log))
    (pingtime : ℕ) (now : TimeVal) : (l.handle pingtime now t).Sound := by
  cases t with
  | ping session =>
      rw [Library.handle]
      cases hfind : l.find session with
      | none => exact h
      | some i =>
          exact (h.xmit ((find_eq_some_iff h.toApart).mp hfind) pingtime now).addPing session _ now
  | frame f =>
      obtain ⟨hfits, hfinal⟩ := hframe f rfl
      rw [Library.handle]
      by_cases hneg : f.retries < 0
      · rw [if_pos hneg]
        split_ifs
        · exact h.destroy f.session f.owner
        · exact h
      -- a frame that is not marked has its session
      have hlive := hfits.session.resolve_right fun hdead => hneg hdead.1
      rw [if_neg hneg]
      by_cases hzero : f.retries = 0
      · rw [if_pos hzero, (find_eq_some_iff h.toApart).mpr hlive]
        split_ifs
        · exact h.destroy f.session f.owner
        · exact h.keep rfl rfl h.frames (fun g hg hg' => (h.finals g hg hg').imp_right
            (List.mem_append_left _)) [.timeout f.owner f.owner] rfl (by simp [Happening.Fine])
      · have hrefused : f.final = true → .refused f.owner ∈ l.log := fun hf =>
          (hfinal hf).resolve_left fun hdead => hdead ⟨f.session, hlive⟩
        have hagain : l.Fits f.again := by
          refine ⟨hfits.known, ?_, Or.inl hlive⟩
          have hnonneg := hfits.retrytime
          unfold Pending.again maxRetryTime
          dsimp only
          split_ifs <;> omega
        rw [if_neg hzero]
        refine h.keep rfl rfl (fun g hg => ?_) (fun g hg hg' => ?_) [.repeated f.owner f.final] rfl
          (by simpa [Happening.Fine] using hrefused)
        · rcases mem_what_iaxSchedAdd.mp hg with hnew | hold
          · obtain rfl := Task.frame.inj hnew
            exact hagain
          · exact h.frames g hold
        · rcases mem_what_iaxSchedAdd.mp hg with hnew | hold
          · obtain rfl := Task.frame.inj hnew
            exact Or.inr (List.mem_append_left _ (hrefused hg'))
          · exact (h.finals g hold hg').imp_right (List.mem_append_left _)

theorem Library.Sound.getSched (h : l.Sound) (tv : TimeVal) (pingtime : ℕ) (now : TimeVal) :
    (getSched l tv pingtime now).Sound := by
  unfold Iax.getSched
  split
  · exact h
  · rename_i cur rest hcur
    obtain ⟨hmem, hrest⟩ := iaxGetSched_mem hcur
    have hsub : ∀ t, t ∈ rest.map Entry.what → t ∈ l.tasks := by
      intro t ht
      obtain ⟨e, he, rfl⟩ := List.mem_map.mp ht
      exact List.mem_map_of_mem (hrest e he)
    have hleft : ({ l with schedq := rest } : Library α).Sound :=
      h.fewer rfl rfl rfl fun f hf => hsub _ hf
    have hcurrent : cur.what ∈ l.tasks := List.mem_map_of_mem hmem
    refine hleft.handle (fun f hf => ?_) pingtime now
    rw [hf] at hcurrent
    exact ⟨(h.frames f hcurrent).congr rfl rfl, h.finals f hcurrent⟩

/-- What one step can do. -/
inductive Library.Uses (l : Library α) : Use α → Library α → Prop
  | new {session : α} (hfree : session ∉ l.sessions.map Prod.fst) :
      l.Uses (.new session) (iaxSessionNew l session)
  | send {session : α} {i : ℕ} (hlive : (session, i) ∈ l.sessions) (pingtime : ℕ)
      (now : TimeVal) :
      l.Uses (.send session i pingtime now) (reliableXmit l session i false pingtime now)
  | startPing {session : α} {i : ℕ} (hlive : (session, i) ∈ l.sessions) (now : TimeVal) :
      l.Uses (.startPing session i now) (addPing l session 2000 now)
  | hangup {session : α} {i : ℕ} (hlive : (session, i) ∈ l.sessions) (sent : Bool)
      (pingtime : ℕ) (now : TimeVal) :
      l.Uses (.hangup session i sent pingtime now)
        (sendCommandFinal (Iax.delPing l session) session i sent pingtime now)
  | reject {session : α} {i : ℕ} (hlive : (session, i) ∈ l.sessions) (sent : Bool)
      (pingtime : ℕ) (now : TimeVal) :
      l.Uses (.reject session i sent pingtime now) (sendCommandFinal l session i sent pingtime now)
  | acked {session : α} {i : ℕ} (hlive : (session, i) ∈ l.sessions) (k : ℕ) :
      l.Uses (.acked session i k) (l.ack session k)
  | release {session : α} {i : ℕ} (hlive : (session, i) ∈ l.sessions) :
      l.Uses (.release session i) (destroySession l session i)
  | timer (tv : TimeVal) (pingtime : ℕ) (now : TimeVal) :
      l.Uses (.timer tv pingtime now) (Iax.getSched l tv pingtime now)

theorem uses_of_use {u : Use α} (h : l.use u = some l') : l.Uses u l' := by
  cases u <;> rw [Library.use] at h
  case timer tv pingtime now =>
    obtain rfl := Option.some.inj h
    exact .timer tv pingtime now
  all_goals
    split_ifs at h with hcond
    obtain rfl := Option.some.inj h
    constructor
    exact hcond

/-- **The step.** -/
theorem Library.Sound.use {u : Use α} (h : l.Sound) (hstep : l.use u = some l') : l'.Sound := by
  cases uses_of_use hstep with
  | new hfree => exact h.new hfree
  | send hlive pingtime now => exact h.xmit hlive pingtime now
  | startPing hlive now => exact h.addPing _ _ now
  | hangup hlive sent pingtime now =>
      exact (h.delPing _).sendCommandFinal hlive sent pingtime now
  | reject hlive sent pingtime now => exact h.sendCommandFinal hlive sent pingtime now
  | acked hlive k => exact h.ack _ k
  | release hlive => exact h.destroy _ _
  | timer tv pingtime now => exact h.getSched tv pingtime now

/-- **Every state of a run.** -/
theorem sound_of_mem_trail {us : List (Use α)} :
    ∀ l ∈ trail Library.use (Library.start : Library α) us, l.Sound :=
  trail_forall (fun _ _ _ h hstep => Library.Sound.use h hstep) sound_start

end Step

/-! ## On whose behalf -/

section Safe

variable {α : Type*} {l l' : Library α} {session : α} {i : ℕ}

/-- The last frame of a session that is gone does not point to another. -/
def Library.Past (l : Library α) (f : Pending α) : Prop :=
  f.final = true → ¬ l.Live f.owner → f.session ∉ l.sessions.map Prod.fst

/-- None of the last frames points to another session, and none has destroyed one. -/
structure Library.Safe (l : Library α) : Prop extends l.Owned where
  past : ∀ f, .frame f ∈ l.tasks → l.Past f
  own : ∀ session owner, .destroyed session owner ∈ l.log → session = owner

/-- A last frame that points to an address. -/
def Task.LastAt (session : α) : Task α → Prop
  | .frame f => f.final = true ∧ f.session = session
  | .ping _ => False

instance [DecidableEq α] (session : α) : DecidablePred (Task.LastAt session)
  | .frame _ => inferInstanceAs (Decidable (_ ∧ _))
  | .ping _ => isFalse id

/-- The memory of a new session has no last frame pointing to it. -/
def FreshMemory (l : Library α) : Use α → Prop
  | .new session => ∀ t ∈ l.tasks, ¬ t.LastAt session
  | _ => True

instance [DecidableEq α] (l : Library α) : DecidablePred (FreshMemory l)
  | .new _ => inferInstanceAs (Decidable (∀ _ ∈ _, _))
  | .send .. | .startPing .. | .hangup .. | .reject .. | .acked .. | .release .. | .timer .. =>
      isTrue trivial

/-- A step that leaves the sessions alone and destroys nothing. -/
theorem Library.Safe.keep (h : l.Safe) (howned : l'.Owned) (hsessions : l'.sessions = l.sessions)
    (hpast : ∀ f, .frame f ∈ l'.tasks → l.Past f)
    (hlog : ∀ session owner, .destroyed session owner ∈ l'.log →
      .destroyed session owner ∈ l.log) : l'.Safe where
  toOwned := howned
  past := by
    unfold Library.Past Library.Live
    rw [hsessions]
    exact hpast
  own := fun session owner hx => h.own session owner (hlog session owner hx)

theorem Library.Safe.new (h : l.Safe) (hfree : session ∉ l.sessions.map Prod.fst)
    (hfresh : ∀ t ∈ l.tasks, ¬ t.LastAt session) : (iaxSessionNew l session).Safe where
  toOwned := h.toOwned.new hfree
  past := by
    intro f hf hfinal hdead
    rw [iaxSessionNew, List.map_cons, List.mem_cons, not_or]
    refine ⟨fun heq => hfresh _ hf ⟨hfinal, heq⟩, h.past f hf hfinal ?_⟩
    rintro ⟨session', hlive⟩
    exact hdead ⟨session', List.mem_cons_of_mem _ hlive⟩
  own := h.own

theorem Library.Safe.xmit (h : l.Safe) (hlive : (session, i) ∈ l.sessions) (final : Bool)
    (pingtime : ℕ) (now : TimeVal) : (reliableXmit l session i final pingtime now).Safe := by
  refine h.keep (h.toOwned.xmit hlive final pingtime now) rfl (fun f hf => ?_) fun _ _ hx => hx
  rcases mem_what_iaxSchedAdd.mp hf with hnew | hold
  · obtain rfl := Task.frame.inj hnew
    exact fun _ hdead => absurd ⟨session, hlive⟩ hdead
  · exact h.past f hold

/-- With fewer entries in the schedule nothing gets worse. -/
theorem Library.Safe.fewer (h : l.Safe) (hsessions : l'.sessions = l.sessions)
    (hborn : l'.born = l.born) (hlog : l'.log = l.log)
    (hframes : ∀ f, .frame f ∈ l'.tasks → .frame f ∈ l.tasks) : l'.Safe :=
  h.keep (h.toOwned.congr hsessions hborn fun f hf => h.frames f (hframes f hf)) hsessions
    (fun f hf => h.past f (hframes f hf)) (by simp [hlog])

theorem Library.Safe.addPing (h : l.Safe) (session : α) (ms : ℤ) (now : TimeVal) :
    (addPing l session ms now).Safe := by
  refine h.fewer rfl rfl rfl fun f hf => ?_
  exact (mem_what_iaxSchedAdd.mp hf).resolve_left (by simp)

end Safe

section Behalf

variable {α : Type*} [DecidableEq α] {l l' : Library α} {session : α} {i owner : ℕ}

/-- **Destroying a session** on its own behalf, or where there is none. -/
theorem Library.Safe.destroy (h : l.Safe) (hown : ∀ i ∈ l.find session, i = owner) :
    (destroySession l session owner).Safe where
  toOwned := h.toOwned.destroy session owner
  past := by
    intro f hf hfinal hdead
    have hmarked : .frame f ∈ l.tasks.map (Task.mark session) := by
      simpa [Library.tasks, destroySession] using hf
    obtain ⟨g, hg, hsame⟩ : ∃ g, .frame g ∈ l.tasks ∧
        (f.session = g.session ∧ f.owner = g.owner ∧ f.final = g.final) := by
      obtain ⟨g, hg, ⟨-, rfl⟩ | ⟨-, rfl⟩⟩ := mem_mark hmarked
      · exact ⟨f, hg, rfl, rfl, rfl⟩
      · exact ⟨g, hg, rfl, rfl, rfl⟩
    obtain ⟨hsession, howner, hfin⟩ := hsame
    intro hmem
    obtain ⟨s, hs, hs'⟩ := List.mem_map.mp hmem
    obtain ⟨hold, hne⟩ := (mem_sessions_destroySession h.toApart session owner s).mp hs
    by_cases hlive : l.Live g.owner
    · -- it was made for the session destroyed, so it points there
      obtain ⟨session', hlive'⟩ := hlive
      have hthere : (g.session, g.owner) ∈ l.sessions :=
        (h.frames g hg).session.resolve_right fun hgone => hgone.2 ⟨session', hlive'⟩
      have hgone : g.session = session := by
        by_contra hother
        refine hdead ⟨g.session, ?_⟩
        rw [howner]
        exact (mem_sessions_destroySession h.toApart session owner _).mpr ⟨hthere, hother⟩
      exact hne (hs'.trans (hsession.trans hgone))
    · refine h.past g hg (hfin ▸ hfinal) hlive ?_
      rw [← hsession, ← hs']
      exact List.mem_map_of_mem hold
  own := by
    intro i j hx
    rcases List.mem_append.mp hx with hx | hx
    · exact h.own i j hx
    · obtain ⟨i', hi', heq⟩ := Option.map_eq_some_iff.mp (Option.mem_toList.mp hx)
      obtain ⟨rfl, rfl⟩ := Happening.destroyed.inj heq
      exact hown i' hi'

/-- Destroying a session by its address and its number. -/
theorem Library.Safe.release (h : l.Safe) (hlive : (session, i) ∈ l.sessions) :
    (destroySession l session i).Safe :=
  h.destroy fun _ hj => h.toApart.eq_of_address ((find_eq_some_iff h.toApart).mp hj) hlive

theorem Library.Safe.delPing (h : l.Safe) (session : α) : (delPing l session).Safe :=
  h.fewer rfl rfl rfl fun _ hf => List.map_subset _ (List.filter_subset_self _) hf

theorem Library.Safe.ack {k : ℕ} (h : l.Safe) (howned : (l.ack session k).Owned) :
    (l.ack session k).Safe := by
  refine h.keep howned rfl (fun f hf => ?_) fun _ _ hx => hx
  rcases mem_ack hf with hf | hf
  · exact h.past f hf
  · obtain ⟨g, hg, ⟨-, rfl⟩ | ⟨-, rfl⟩⟩ := mem_mark hf
    · exact h.past f hg
    · exact fun hfinal hdead => h.past g hg hfinal hdead

theorem Library.Safe.sendCommandFinal (h : l.Safe) (hlive : (session, i) ∈ l.sessions)
    (sent : Bool) (pingtime : ℕ) (now : TimeVal) :
    (sendCommandFinal l session i sent pingtime now).Safe := by
  have hadded : (reliableXmit l session i true pingtime now).Safe :=
    h.xmit hlive true pingtime now
  unfold Iax.sendCommandFinal
  dsimp only
  split_ifs
  · exact hadded.release hlive
  · refine hadded.keep (hadded.toOwned.congr rfl rfl fun f hf => hadded.frames f hf) rfl
      (fun f hf => hadded.past f hf) fun j owner hx => ?_
    exact (List.mem_append.mp hx).resolve_right (by simp)

theorem Library.Safe.handle {t : Task α} (h : l.Safe)
    (hframe : ∀ f, t = .frame f → l.Fits f ∧ l.Past f) {pingtime : ℕ} {now : TimeVal}
    (howned : (l.handle pingtime now t).Owned) : (l.handle pingtime now t).Safe := by
  cases t with
  | ping session =>
      rw [Library.handle]
      cases hfind : l.find session with
      | none => exact h
      | some i =>
          have hlive := (find_eq_some_iff h.toApart).mp hfind
          exact (h.xmit hlive false pingtime now).addPing session _ now
  | frame f =>
      obtain ⟨hfits, hpast⟩ := hframe f rfl
      -- where a last frame points there is its own session, or none
      have hdestroy : f.final = true → (destroySession l f.session f.owner).Safe := by
        intro hfinal
        refine h.destroy fun j hj => ?_
        have hthere := (find_eq_some_iff h.toApart).mp hj
        by_cases hlive : l.Live f.owner
        · have hown := hfits.session.resolve_right fun hgone => hgone.2 hlive
          exact h.toApart.eq_of_address hthere hown
        · exact absurd (List.mem_map_of_mem hthere) (hpast hfinal hlive)
      rw [Library.handle] at howned ⊢
      split_ifs at howned ⊢ with hneg hfinal hzero hfinal
      · exact hdestroy hfinal
      · exact h
      · exact hdestroy hfinal
      · refine h.keep howned rfl h.past fun i j hx => ?_
        refine (List.mem_append.mp hx).resolve_right fun hx => ?_
        obtain ⟨i', -, heq⟩ := Option.map_eq_some_iff.mp (Option.mem_toList.mp hx)
        exact absurd heq (by simp)
      · refine h.keep howned rfl (fun g hg => ?_) fun i j hx => ?_
        · rcases mem_what_iaxSchedAdd.mp hg with hnew | hold
          · obtain rfl := Task.frame.inj hnew
            exact fun hfinal hdead => hpast hfinal hdead
          · exact h.past g hold
        · exact (List.mem_append.mp hx).resolve_right (by simp)

theorem Library.Safe.getSched (h : l.Safe) {tv : TimeVal} {pingtime : ℕ} {now : TimeVal}
    (howned : (getSched l tv pingtime now).Owned) : (getSched l tv pingtime now).Safe := by
  unfold Iax.getSched at howned ⊢
  split at howned
  · exact h
  · rename_i cur rest hcur
    obtain ⟨hmem, hrest⟩ := iaxGetSched_mem hcur
    have hleft : ({ l with schedq := rest } : Library α).Safe := by
      refine h.fewer rfl rfl rfl fun f hf => ?_
      obtain ⟨e, he, hwhat⟩ := List.mem_map.mp hf
      exact List.mem_map.mpr ⟨e, hrest e he, hwhat⟩
    have hcurrent : cur.what ∈ l.tasks := List.mem_map_of_mem hmem
    refine hleft.handle (fun f hf => ?_) howned
    rw [hf] at hcurrent
    exact ⟨(h.frames f hcurrent).congr rfl rfl, h.past f hcurrent⟩

/-- **The step**, with fresh memory. -/
theorem Library.Safe.use {u : Use α} (h : l.Safe) (hsound : l.Sound) (hfresh : FreshMemory l u)
    (hstep : l.use u = some l') : l'.Safe := by
  have howned : l'.Owned := (hsound.use hstep).toOwned
  cases uses_of_use hstep with
  | new hfree => exact h.new hfree hfresh
  | send hlive pingtime now => exact h.xmit hlive false pingtime now
  | startPing hlive now => exact h.addPing _ _ now
  | hangup hlive sent pingtime now =>
      exact (h.delPing _).sendCommandFinal hlive sent pingtime now
  | reject hlive sent pingtime now => exact h.sendCommandFinal hlive sent pingtime now
  | acked hlive k => exact h.ack howned
  | release hlive => exact h.release hlive
  | timer tv pingtime now => exact h.getSched howned

/-- **Sessions end on their own behalf.** In every run in which the memory of a session is not
handed out while a last frame points to it, a session is destroyed only in its own name: it was
hung up or rejected, it was released, or its own last frame was acknowledged or given up. -/
theorem destroyed_on_own_behalf (us : List (Use α))
    (hfresh : StepsMeet Library.use FreshMemory (Library.start : Library α) us) :
    ∀ l ∈ trail Library.use (Library.start : Library α) us, ∀ session owner,
      .destroyed session owner ∈ l.log → session = owner := by
  have hstart : (Library.start : Library α).Safe :=
    ⟨sound_start.toOwned, by simp [Library.start, Library.tasks], by simp [Library.start]⟩
  have hinv : ∀ l ∈ trail Library.use (Library.start : Library α) us, l.Sound ∧ l.Safe :=
    trail_invariant (fun l u l' h hfresh hstep =>
      ⟨h.1.use hstep, h.2.use h.1 hfresh hstep⟩) ⟨sound_start, hstart⟩ hfresh
  exact fun l hl => (hinv l hl).2.own

/-- A call is hung up, its last frame leaves the schedule, and another is made at its address. -/
theorem destroyed_on_own_behalf_again :
    ∃ l, (trail Library.use (Library.start : Library ℕ)
        [.new 7, .hangup 7 0 true 100 ⟨5, 0⟩, .timer ⟨6, 0⟩ 100 ⟨6, 0⟩, .new 7,
          .release 7 1]).getLast? = some l ∧ .destroyed 1 0 ∉ l.log := by
  refine ⟨_, rfl, fun hother => ?_⟩
  have hown := destroyed_on_own_behalf _ (by decide +kernel) _ (List.mem_of_getLast? rfl) 1 0 hother
  exact absurd hown (by decide)

end Behalf

/-! ## When memory is handed out again -/

section Reuse

variable {α : Type*} {l l' : Library α} {session : α} {i n : ℕ} {sec : ℤ} {now : TimeVal}

/-- A marked last frame that points to an address. -/
def Task.Doomed (session : α) : Task α → Prop
  | .frame f => f.final = true ∧ f.session = session ∧ f.retries < 0
  | .ping _ => False

/-- The schedule starts with `n` entries from before a second, and one of them is a marked last
frame. -/
def Library.Ahead (l : Library α) (session : α) (sec : ℤ) (n : ℕ) : Prop :=
  ∃ front back, l.schedq = front ++ back ∧ front.length = n ∧
    (∀ b ∈ front, b.when.sec < sec) ∧ ∃ b ∈ front, b.what.Doomed session

/-- Time passes: one turn of the loop over the schedule after the other, each with its time before
and after it and the ping time. -/
def elapse (turns : List (TimeVal × ℕ × TimeVal)) : List (Use α) :=
  turns.map fun turn => .timer turn.1 turn.2.1 turn.2.2

/-- A turn in which the clock has come to a second. -/
def Reached (sec : ℤ) (turn : TimeVal × ℕ × TimeVal) : Prop :=
  sec ≤ turn.1.sec ∧ sec ≤ turn.2.2.sec

/-- What is asked for later is later. -/
theorem TimeVal.sec_le_from (now : TimeVal) {ms : ℤ} (hms : 0 ≤ ms) :
    now.sec ≤ (now.from ms).sec := by
  have hsec : 0 ≤ ms.tdiv 1000 := Int.tdiv_nonneg hms (by omega)
  unfold TimeVal.from
  dsimp only
  split_ifs <;> dsimp only <;> omega

/-- An entry added now stands behind those of an earlier second. -/
theorem iaxSchedAdd_append {ms : ℤ} (hms : 0 ≤ ms) (what : Task α)
    {front : List (Entry (Task α))} (hdue : ∀ b ∈ front, b.when.sec < now.sec)
    (back : List (Entry (Task α))) :
    iaxSchedAdd now ms what (front ++ back) = front ++ iaxSchedAdd now ms what back := by
  unfold iaxSchedAdd
  rw [putInOrder_eq, putInOrder_eq]
  refine insertAfter_append_left _ (fun b hb => ?_) back
  have hlate : b.when.sec < (now.from ms).sec := (hdue b hb).trans_le (now.sec_le_from hms)
  exact (TimeVal.key_le_iff _ _).mpr (Or.inl hlate)

/-- **What is added does not get ahead.** -/
theorem Library.Ahead.add (h : l.Ahead session sec n) (hnow : sec ≤ now.sec) {ms : ℤ}
    (hms : 0 ≤ ms) {what : Task α} (hadd : l'.schedq = iaxSchedAdd now ms what l.schedq) :
    l'.Ahead session sec n := by
  obtain ⟨front, back, hschedq, hlength, hdue, hdoomed⟩ := h
  refine ⟨front, iaxSchedAdd now ms what back, ?_, hlength, hdue, hdoomed⟩
  rw [hadd, hschedq, iaxSchedAdd_append hms what fun b hb => (hdue b hb).trans_le hnow]

/-- Some second is later than all the entries. -/
theorem exists_later (schedq : List (Entry (Task α))) :
    ∃ sec : ℤ, ∀ b ∈ schedq, b.when.sec < sec := by
  induction schedq with
  | nil => exact ⟨0, by simp⟩
  | cons b schedq ih =>
      obtain ⟨sec, hsec⟩ := ih
      refine ⟨max sec (b.when.sec + 1), List.forall_mem_cons.mpr ⟨?_, fun c hc => ?_⟩⟩
      · exact (Int.lt_succ _).trans_le (le_max_right _ _)
      · exact (hsec c hc).trans_le (le_max_left _ _)

theorem Library.Ahead.xmit (h : l.Ahead session sec n) (hnow : sec ≤ now.sec) (session' : α)
    (j : ℕ) (final : Bool) (pingtime : ℕ) :
    (reliableXmit l session' j final pingtime now).Ahead session sec n := by
  have hsent : (reliableXmit l session' j final pingtime now).schedq =
      iaxSchedAdd now (retrytimeOf pingtime)
        (.frame ⟨session', j, final, maxretries, retrytimeOf pingtime⟩) l.schedq := by
    dsimp only [reliableXmit]
  exact h.add hnow (retrytimeOf_nonneg pingtime) hsent

/-- The number of a session that is left is found at its address. -/
theorem mem_of_live {sessions : List (α × ℕ)} (h : l.Apart) (hlive : (session, i) ∈ l.sessions)
    (hsub : ∀ s ∈ sessions, s ∈ l.sessions) (hleft : ∃ session', (session', i) ∈ sessions) :
    (session, i) ∈ sessions := by
  obtain ⟨session', hleft⟩ := hleft
  rwa [h.eq_of_number hlive (hsub _ hleft)]

end Reuse

section Turns

variable {α : Type*} [DecidableEq α] {l : Library α} {session : α} {i n : ℕ} {sec : ℤ}

theorem Task.Doomed.mark {t : Task α} (h : t.Doomed session) (session' : α) :
    (t.mark session').Doomed session := by
  cases t with
  | ping _ => exact h
  | frame f =>
      obtain ⟨hfinal, hsession, hretries⟩ := h
      rw [Task.mark]
      split_ifs
      · exact ⟨hfinal, hsession, Int.negSucc_lt_zero 0⟩
      · exact ⟨hfinal, hsession, hretries⟩

theorem Library.Ahead.destroy (h : l.Ahead session sec n) (session' : α) (owner : ℕ) :
    (destroySession l session' owner).Ahead session sec n := by
  obtain ⟨front, back, hschedq, hlength, hdue, b, hb, hdoomed⟩ := h
  let marked (cur : Entry (Task α)) : Entry (Task α) :=
    { cur with what := cur.what.mark session' }
  have hmarked :
      (destroySession l session' owner).schedq = front.map marked ++ back.map marked := by
    rw [← List.map_append, ← hschedq]
    rfl
  refine ⟨front.map marked, back.map marked, hmarked, by rw [List.length_map, hlength], ?_,
    marked b, List.mem_map_of_mem hb, hdoomed.mark session'⟩
  intro c hc
  obtain ⟨c', hc', rfl⟩ := List.mem_map.mp hc
  exact hdue c' hc'

/-- What is done with an entry leaves those ahead where they are. -/
theorem Library.Ahead.handle {t : Task α} {now : TimeVal} (h : l.Ahead session sec n)
    (hnow : sec ≤ now.sec) (hretrytime : ∀ f, t = .frame f → 0 ≤ f.retrytime) (pingtime : ℕ) :
    (l.handle pingtime now t).Ahead session sec n := by
  cases t with
  | ping session' =>
      rw [Library.handle]
      cases l.find session' with
      | none => exact h
      | some j =>
          exact (h.xmit hnow session' j false pingtime).add hnow (by omega) rfl
  | frame f =>
      rw [Library.handle]
      split_ifs
      · exact h.destroy _ _
      · exact h
      · exact h.destroy _ _
      · exact h
      · have hagain : 0 ≤ f.again.retrytime := by
          have := hretrytime f rfl
          unfold Pending.again maxRetryTime
          dsimp only
          split_ifs <;> omega
        exact h.add hnow hagain rfl

/-- No step adds a session by handling an entry. -/
theorem mem_sessions_handle (h : l.Apart) {t : Task α} {pingtime : ℕ} {now : TimeVal}
    {s : α × ℕ} (hs : s ∈ (l.handle pingtime now t).sessions) : s ∈ l.sessions := by
  cases t with
  | ping session' =>
      rw [Library.handle] at hs
      split at hs <;> exact hs
  | frame f =>
      rw [Library.handle] at hs
      split_ifs at hs
      · exact ((mem_sessions_destroySession h _ _ s).mp hs).1
      · exact hs
      · exact ((mem_sessions_destroySession h _ _ s).mp hs).1
      · exact hs
      · exact hs

/-- The time of a marked last frame has come: where it points to there is nothing after it. -/
theorem notMem_handle_of_doomed (h : l.Apart) {t : Task α} (hdoomed : t.Doomed session)
    (pingtime : ℕ) (now : TimeVal) (i : ℕ) :
    (session, i) ∉ (l.handle pingtime now t).sessions := by
  cases t with
  | ping _ => exact absurd hdoomed id
  | frame f =>
      obtain ⟨hfinal, rfl, hretries⟩ := hdoomed
      rw [Library.handle, if_pos hretries, if_pos hfinal]
      exact fun hs => ((mem_sessions_destroySession h _ _ _).mp hs).2 rfl

/-- **A marked last frame comes to its turn**, and destroys the session it points to if nothing
has done so before: every turn takes out one of the entries ahead, and none gets ahead of them. -/
theorem gone_of_ahead (h : l.Sound) (hlive : (session, i) ∈ l.sessions)
    (hahead : l.Ahead session sec n) {turns : List (TimeVal × ℕ × TimeVal)}
    (hreached : ∀ turn ∈ turns, Reached sec turn) (hlong : n ≤ turns.length) :
    ∃ l' ∈ trail Library.use l (elapse turns), ¬ l'.Live i := by
  induction turns generalizing l n with
  | nil =>
      obtain ⟨front, back, -, hlength, -, b, hb, -⟩ := hahead
      rw [List.length_eq_zero_iff.mp (hlength.trans (Nat.le_zero.mp hlong))] at hb
      exact absurd hb List.not_mem_nil
  | cons turn turns ih =>
      obtain ⟨tv, pingtime, now⟩ := turn
      obtain ⟨⟨htv, hnow⟩, hreached⟩ := List.forall_mem_cons.mp hreached
      obtain ⟨front, back, hschedq, rfl, hdue, hdoomed⟩ := hahead
      cases front with
      | nil =>
          obtain ⟨b, hb, -⟩ := hdoomed
          exact absurd hb List.not_mem_nil
      | cons b front =>
          obtain ⟨hbdue, hdue⟩ := List.forall_mem_cons.mp hdue
          let rest : Library α := { l with schedq := front ++ back }
          -- the first entry is due, so it is the one taken out
          have hturn : Iax.getSched l tv pingtime now = rest.handle pingtime now b.what := by
            have hdue : b.due tv := Or.inl (hbdue.trans_le htv)
            unfold Iax.getSched
            rw [hschedq, List.cons_append, iaxGetSched, if_pos hdue]
          have hmem : b.what ∈ l.tasks := by
            rw [Library.tasks, hschedq]
            exact List.mem_map_of_mem (by simp)
          have hrest : rest.Apart := ⟨h.addresses, h.numbers, h.known⟩
          rw [elapse, List.map_cons, ← elapse, trail_cons_some _
            (show l.use (.timer tv pingtime now) = some (Iax.getSched l tv pingtime now) from rfl)]
          by_cases hleft : (Iax.getSched l tv pingtime now).Live i
          · have hthere : (session, i) ∈ (Iax.getSched l tv pingtime now).sessions := by
              refine mem_of_live h.toApart hlive (fun s hs => ?_) hleft
              rw [hturn] at hs
              exact mem_sessions_handle hrest hs
            -- it was not the first that points to the session
            have hfront : ∃ c ∈ front, c.what.Doomed session := by
              obtain ⟨c, hc, hdoomed⟩ := hdoomed
              rcases List.mem_cons.mp hc with rfl | hc
              · rw [hturn] at hthere
                exact absurd hthere (notMem_handle_of_doomed hrest hdoomed pingtime now i)
              · exact ⟨c, hc, hdoomed⟩
            have hahead : rest.Ahead session sec front.length :=
              ⟨front, back, rfl, rfl, hdue, hfront⟩
            have hnext : (Iax.getSched l tv pingtime now).Ahead session sec front.length := by
              rw [hturn]
              refine hahead.handle hnow (fun f hf => ?_) pingtime
              rw [hf] at hmem
              exact (h.frames f hmem).retrytime
            obtain ⟨l', hl', hgone⟩ := ih (h.getSched tv pingtime now) hthere hnext hreached
              (Nat.le_of_succ_le_succ hlong)
            exact ⟨l', List.mem_cons_of_mem _ hl', hgone⟩
          · exact ⟨_, List.mem_cons_of_mem _ List.mem_cons_self, hleft⟩

/-! ### Without a last frame -/

theorem lastAt_mark {t : Task α} {session' : α} :
    (t.mark session').LastAt session ↔ t.LastAt session := by
  cases t with
  | ping _ => exact Iff.rfl
  | frame f =>
      rw [Task.mark]
      split_ifs <;> exact Iff.rfl

/-- Handling any other entry leaves the session where it is, and makes no last frame for it. -/
theorem handle_of_not_lastAt (h : l.Apart) (hlive : (session, i) ∈ l.sessions)
    (hnone : ∀ t ∈ l.tasks, ¬ t.LastAt session) {t : Task α} (ht : ¬ t.LastAt session)
    (pingtime : ℕ) (now : TimeVal) :
    (session, i) ∈ (l.handle pingtime now t).sessions ∧
      ∀ t' ∈ (l.handle pingtime now t).tasks, ¬ t'.LastAt session := by
  cases t with
  | ping session' =>
      rw [Library.handle]
      cases l.find session' with
      | none => exact ⟨hlive, hnone⟩
      | some j =>
          refine ⟨hlive, fun t' ht' => ?_⟩
          rcases mem_what_iaxSchedAdd.mp ht' with rfl | ht'
          · exact id
          · rcases mem_what_iaxSchedAdd.mp ht' with rfl | ht'
            · exact fun hlast => Bool.false_ne_true hlast.1
            · exact hnone t' ht'
  | frame f =>
      have hdestroy : f.final = true →
          (session, i) ∈ (destroySession l f.session f.owner).sessions ∧
            ∀ t' ∈ (destroySession l f.session f.owner).tasks, ¬ t'.LastAt session := by
        intro hfinal
        refine ⟨(mem_sessions_destroySession h _ _ _).mpr ⟨hlive, ?_⟩, fun t' ht' => ?_⟩
        · exact fun heq => ht ⟨hfinal, heq.symm⟩
        · have hmarked : t' ∈ l.tasks.map (Task.mark f.session) := by
            simpa [Library.tasks, destroySession] using ht'
          obtain ⟨t, ht, rfl⟩ := List.mem_map.mp hmarked
          rw [lastAt_mark]
          exact hnone t ht
      rw [Library.handle]
      split_ifs with hneg hfinal hzero hfinal
      · exact hdestroy hfinal
      · exact ⟨hlive, hnone⟩
      · exact hdestroy hfinal
      · exact ⟨hlive, hnone⟩
      · refine ⟨hlive, fun t' ht' => ?_⟩
        rcases mem_what_iaxSchedAdd.mp ht' with rfl | ht'
        · exact fun hlast => ht hlast
        · exact hnone t' ht'

/-- **One turn.** -/
theorem getSched_of_not_lastAt (h : l.Apart) (hlive : (session, i) ∈ l.sessions)
    (hnone : ∀ t ∈ l.tasks, ¬ t.LastAt session) (tv : TimeVal) (pingtime : ℕ) (now : TimeVal) :
    (session, i) ∈ (getSched l tv pingtime now).sessions ∧
      ∀ t ∈ (getSched l tv pingtime now).tasks, ¬ t.LastAt session := by
  unfold getSched
  split
  · exact ⟨hlive, hnone⟩
  · rename_i cur rest hcur
    obtain ⟨hmem, hrest⟩ := iaxGetSched_mem hcur
    have hleft : ∀ t ∈ ({ l with schedq := rest } : Library α).tasks, ¬ t.LastAt session := by
      intro t ht
      obtain ⟨e, he, rfl⟩ := List.mem_map.mp ht
      exact hnone _ (List.mem_map_of_mem (hrest e he))
    have hapart : ({ l with schedq := rest } : Library α).Apart :=
      ⟨h.addresses, h.numbers, h.known⟩
    exact handle_of_not_lastAt hapart hlive hleft (hnone _ (List.mem_map_of_mem hmem)) pingtime now

/-- **However much time passes**, a session to which no last frame points stays. -/
theorem live_of_not_lastAt (h : l.Sound) (hlive : (session, i) ∈ l.sessions)
    (hnone : ∀ t ∈ l.tasks, ¬ t.LastAt session) (turns : List (TimeVal × ℕ × TimeVal)) :
    ∀ l' ∈ trail Library.use l (elapse turns), l'.Live i := by
  induction turns generalizing l with
  | nil =>
      intro l' hl'
      rw [List.mem_singleton.mp hl']
      exact ⟨session, hlive⟩
  | cons turn turns ih =>
      obtain ⟨tv, pingtime, now⟩ := turn
      obtain ⟨hlive', hnone'⟩ :=
        getSched_of_not_lastAt h.toApart hlive hnone tv pingtime now
      rw [elapse, List.map_cons, ← elapse, trail_cons_some _
        (show l.use (.timer tv pingtime now) = some (getSched l tv pingtime now) from rfl)]
      intro l' hl'
      rcases List.mem_cons.mp hl' with rfl | hl'
      · exact ⟨session, hlive⟩
      · exact ih (h.getSched tv pingtime now) hlive' hnone' l' hl'

/-- **When memory is handed out again**, at any state of any run: time alone can destroy the new
session if and only if a last frame of another one still points to its address. Then it does,
however it passes: as many turns as there are entries, at whatever times later than all of these,
are enough. -/
theorem reuse_destroys_iff (us : List (Use α)) :
    ∀ l ∈ trail Library.use (Library.start : Library α) us,
      ∀ session, session ∉ l.sessions.map Prod.fst →
        ((∃ turns, ∃ l' ∈ trail Library.use (iaxSessionNew l session) (elapse turns),
            ¬ l'.Live l.born) ↔
          ∃ t ∈ l.tasks, t.LastAt session) ∧
        ((∃ t ∈ l.tasks, t.LastAt session) →
          ∀ sec, (∀ b ∈ l.schedq, b.when.sec < sec) →
            ∀ turns, (∀ turn ∈ turns, Reached sec turn) → l.schedq.length ≤ turns.length →
              ∃ l' ∈ trail Library.use (iaxSessionNew l session) (elapse turns),
                ¬ l'.Live l.born) := by
  intro l hl session hfree
  have hsound := sound_of_mem_trail l hl
  have hnew := hsound.new hfree
  have hlive : (session, l.born) ∈ (iaxSessionNew l session).sessions := List.mem_cons_self
  have hgone : (∃ t ∈ l.tasks, t.LastAt session) →
      ∀ sec, (∀ b ∈ l.schedq, b.when.sec < sec) →
        ∀ turns, (∀ turn ∈ turns, Reached sec turn) → l.schedq.length ≤ turns.length →
          ∃ l' ∈ trail Library.use (iaxSessionNew l session) (elapse turns), ¬ l'.Live l.born := by
    rintro ⟨t, ht, hlast⟩ sec hlater turns hreached hlong
    -- the session it was made for is gone, so the frame is marked
    have hdoomed : t.Doomed session := by
      cases t with
      | ping _ => exact hlast
      | frame f =>
          obtain ⟨hfinal, rfl⟩ := hlast
          have hgone := (hsound.frames f ht).session.resolve_left fun hthere =>
            hfree (List.mem_map_of_mem hthere)
          exact ⟨hfinal, rfl, hgone.1⟩
    obtain ⟨e, he, rfl⟩ := List.mem_map.mp ht
    have hahead : (iaxSessionNew l session).Ahead session sec l.schedq.length :=
      ⟨l.schedq, [], (List.append_nil _).symm, rfl, hlater, e, he, hdoomed⟩
    exact gone_of_ahead hnew hlive hahead hreached hlong
  refine ⟨⟨?_, fun hlast => ?_⟩, hgone⟩
  · rintro ⟨turns, l', hl', hdead⟩
    by_contra! hnone
    exact hdead (live_of_not_lastAt hnew hlive hnone turns l' hl')
  · obtain ⟨sec, hlater⟩ := exists_later l.schedq
    refine ⟨_, hgone hlast sec hlater (List.replicate l.schedq.length (⟨sec, 0⟩, 0, ⟨sec, 0⟩))
      (fun turn hturn => ?_) (List.length_replicate).ge⟩
    rw [List.eq_of_mem_replicate hturn]
    exact ⟨le_rfl, le_rfl⟩

/-- A call is hung up, and the next one gets its memory before the last frame has left. -/
theorem reuse_destroys_iff_at_once :
    ∃ l, (trail Library.use (Library.start : Library ℕ)
        [.new 7, .hangup 7 0 true 100 ⟨5, 0⟩]).getLast? = some l ∧
      ∃ turns, ∃ l' ∈ trail Library.use (iaxSessionNew l 7) (elapse turns), ¬ l'.Live 1 := by
  refine ⟨_, rfl, ?_⟩
  exact (reuse_destroys_iff _ _ (List.mem_of_getLast? rfl) 7 (by decide)).1.mpr
    ⟨_, List.mem_cons_self, by decide⟩

end Turns

end Fgcom.Iax
