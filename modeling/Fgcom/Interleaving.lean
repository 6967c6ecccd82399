import Fgcom.Appearances
import Fgcom.Client
import Fgcom.Lib.EventRun
import Mathlib.Logic.Relation

/-! # The callback between the main thread's statements

`process_packet` and `alarm_handler` run in the main thread, `event_state` in the thread of the IAX
library, and both write `connected`. Here the two functions are taken apart at every statement that
calls the library or touches `connected`, and the library may do something between any two of them,
in the sleeps too.

* **`World`**, **`interleavedStep`** — the client, the place the main thread has reached (`Pc`),
  the appearances of the library, and the call last dialled; **`packet_uninterrupted`** and
  **`alarm_uninterrupted`** connect the pieces to `processPacket` and `alarmHandler`.
* **`Undisturbed`** — the steps after which the flag still tells the truth; **`disturbed_breaks`**:
  after any other, it comes to lie or a second call is dialled.
* **`connected_tells_truth`** — along every interleaving of such steps. -/

namespace Fgcom

open EventRun

/-- `DEFAULT_MAX_CALLS`. -/
abbrev maxCalls : ℕ := 2

/-- Where the main thread stands. -/
inductive Pc
  /-- Between two packets or alarms. -/
  | idle
  /-- The frequency has changed; `if (connected == 1)` comes next. -/
  | retuned
  /-- `iaxc_dump_call` comes next. -/
  | hangup
  /-- In the sleep after it; `connected = 0` comes next. -/
  | hungup
  /-- Lookup and `do_iaxc_call` come next. -/
  | dial
  /-- In the sleep at the end of `do_iaxc_call`; `connected = 1` comes next. -/
  | dialled
  /-- The PTT branch comes next. -/
  | key
  /-- `alarm_handler` has looked up a code; the tests of `connected` come next. -/
  | alarmTest (icao : CStr 4)
  | alarmHangup
  | alarmHungup
  | alarmDial (icao : CStr 4)
  | alarmDialled
  deriving DecidableEq

/-- The client with the library under it. -/
structure World (R : Type) where
  client : Client R
  pc : Pc
  lines : Appearances maxCalls
  /-- The call last dialled, `none` also when there was no appearance for it. -/
  dialled : Option ℕ

/-- The call last dialled by the client is up. -/
def World.Up {R : Type} (w : World R) : Prop := w.lines.Up w.dialled

instance {R : Type} (w : World R) : Decidable w.Up := inferInstanceAs (Decidable (w.lines.Up _))

/-- What happens next. -/
inductive Act
  /-- A packet arrives at the idle main thread. -/
  | packet (buf : List Char)
  /-- The timer of the idle main thread runs out. -/
  | alarm
  /-- The main thread does its next statement. -/
  | main
  /-- The call on an appearance is rejected, hung up or timed out. -/
  | cleared (a : Fin maxCalls)
  /-- A call comes in. -/
  | incoming
  /-- The library reports another state of a call. -/
  | progress (state : ℤ)

section Steps

variable {R : Type} [CFloat R] (cfg : Config R)

/-- `iaxc_clear_call`, with the callback it makes. -/
def World.clear (w : World R) (a : Fin maxCalls) : World R :=
  { w with lines := w.lines.clear a, client := eventState 0 w.client }

/-- `iaxc_dump_call`. -/
def World.dump (w : World R) : World R :=
  if w.lines.call w.lines.selected = none then w else w.clear w.lines.selected

/-- `icao2number` and `do_iaxc_call`. -/
def World.dialCall (icao : CStr 4) (w : World R) : World R :=
  let (code, numBuf) := icao2number icao w.client.selectedFrequency
  let (lines, call) := w.lines.iaxcCall
  { w with client := doIaxcCall cfg code numBuf w.client, lines := lines, dialled := call }

/-- An assignment to `connected`. -/
def World.setConnected (b : Bool) (w : World R) : World R :=
  { w with client := { w.client with connected := b } }

/-- The main thread moves on. -/
def World.goto (pc : Pc) (w : World R) : World R := { w with pc := pc }

/-- The next statement of the main thread. -/
def mainStep (w : World R) : Option (World R) :=
  match w.pc with
  -- an idle main thread waits for a packet or the timer
  | .idle => none
  | .retuned => some (w.goto (if w.client.connected then .hangup else .dial))
  | .hangup => some (w.dump.goto .hungup)
  | .hungup => some ((w.setConnected false).goto .dial)
  | .dial => (icaoHere cfg w.client).map fun icao => (w.dialCall cfg icao).goto .dialled
  | .dialled => some ((w.setConnected true).goto .key)
  | .key => some { w with client := pttChange cfg w.client, pc := .idle }
  -- each test looks at the code first, so `connected` is read once
  | .alarmTest icao =>
      some (w.goto
        (if icao.val.length = 0 ∧ w.client.connected = true then .alarmHangup
        else if icao.val.length ≠ 0 ∧ w.client.connected = false then .alarmDial icao
        else .idle))
  | .alarmHangup => some (w.dump.goto .alarmHungup)
  | .alarmHungup => some ((w.setConnected false).goto .idle)
  | .alarmDial icao => some ((w.dialCall cfg icao).goto .alarmDialled)
  | .alarmDialled => some ((w.setConnected true).goto .idle)

/-- The first statements of `process_packet`, up to the test of `connected` in the frequency branch
or to the PTT branch: nothing in them reads or writes `connected`. -/
def packetStep (buf : List Char) (w : World R) : Option (World R) :=
  if w.pc = .idle then
    (parsePacket w.client.data buf).map fun d =>
      let c := takeData d w.client
      if frequencyChanged c then
        { w with client := { c with previousComFrequency := c.selectedFrequency }, pc := .retuned }
      else { w with client := c, pc := .key }
  else none

/-- One step of the whole. -/
def interleavedStep (w : World R) : Act → Option (World R)
  | .packet buf => packetStep buf w
  | .alarm =>
      if w.pc = .idle then
        (alarmIcao cfg w.client).map fun icao => w.goto (.alarmTest icao)
      else none
  | .main => mainStep cfg w
  -- only a call that is there can end
  | .cleared a => if w.lines.call a = none then none else some (w.clear a)
  | .incoming => w.lines.firstFree.map fun a => { w with lines := w.lines.put a }
  -- state 0 is reported by `cleared` alone
  | .progress state =>
      if state = 0 then none else some { w with client := eventState state w.client }

/-- The world in which `main` enters the loop of mode 1. -/
def World.start : World R := ⟨Client.start cfg, .idle, .start 0, none⟩

end Steps

/-! ## What the flag is worth -/

/-- What the main thread relies on where it stands. -/
inductive Phase
  /-- The flag counts: it was set to what it should be, and is what the next test reads. -/
  | settled
  /-- The call is about to be dumped, whatever the flag says. -/
  | hangingUp
  /-- The call is gone, and the flag is assigned next. -/
  | quiet
  /-- The call has been placed, and the flag is set to 1 next. -/
  | placed
  deriving DecidableEq

/-- The phase of each place. -/
def Pc.phase : Pc → Phase
  | .idle | .retuned | .key | .alarmTest _ => .settled
  | .hangup | .alarmHangup => .hangingUp
  | .hungup | .dial | .alarmHungup | .alarmDial _ => .quiet
  | .dialled | .alarmDialled => .placed

/-- `do_iaxc_call` comes next. -/
def Pc.dials : Pc → Bool
  | .dial | .alarmDial _ => true
  | _ => false

section Truth

variable {R : Type}

/-- What the flag and the call are to each other in each phase. -/
def World.Flag (w : World R) : Prop :=
  match w.pc.phase with
  | .settled => w.client.connected = true ↔ w.Up
  | .hangingUp => True
  | .quiet => ¬ w.Up
  | .placed => w.Up

/-- The flag tells the truth between packets and alarms, and no call is dialled while one is up. -/
def World.Truthful (w : World R) : Prop :=
  (w.pc = .idle → (w.client.connected = true ↔ w.Up)) ∧ (w.pc.dials = true → ¬ w.Up)

instance (w : World R) : Decidable w.Truthful := inferInstanceAs (Decidable (_ ∧ _))

/-- The steps that leave the flag true. The call just placed is not cleared before `connected = 1`
is reached; no other call is cleared while the flag is set and counts; and `do_iaxc_call` finds an
appearance. -/
def Undisturbed (w : World R) : Act → Prop
  | .cleared a =>
      if w.lines.call a = w.dialled then w.pc.phase ≠ .placed
      else ¬ (w.client.connected = true ∧ w.pc.phase = .settled)
  | .main => w.pc.dials = true → w.lines.target ≠ none
  | .packet _ | .alarm | .incoming | .progress _ => True

instance (w : World R) : ∀ act, Decidable (Undisturbed w act)
  | .cleared a =>
      inferInstanceAs (Decidable (if w.lines.call a = w.dialled then w.pc.phase ≠ .placed
        else ¬ (w.client.connected = true ∧ w.pc.phase = .settled)))
  | .main => inferInstanceAs (Decidable (w.pc.dials = true → w.lines.target ≠ none))
  | .packet _ | .alarm | .incoming | .progress _ => isTrue trivial

/-- The call last dialled has a number handed out, and is on the selected appearance while it is
up. -/
structure World.Tracked (w : World R) : Prop where
  known : ∀ c ∈ w.dialled, c < w.lines.next
  onSelected : ∀ a, w.dialled ≠ none → w.lines.call a = w.dialled → a = w.lines.selected

/-- The invariant: the last call is tracked, and the flag is worth what the phase says. -/
structure World.Inv (w : World R) : Prop extends w.Tracked where
  flag : w.Flag

/-- A call is dialled only where the earlier one should be gone. -/
theorem Pc.phase_of_dials {pc : Pc} (h : pc.dials = true) : pc.phase = .quiet := by
  cases pc with
  | dial => rfl
  | alarmDial icao => rfl
  | _ => exact absurd h Bool.false_ne_true

/-- The invariant makes the flag truthful. -/
theorem World.Inv.truthful {w : World R} (h : w.Inv) : w.Truthful := by
  have hflag := h.flag
  unfold World.Flag at hflag
  refine ⟨fun hidle => ?_, fun hdials => ?_⟩
  · rw [hidle] at hflag
    exact hflag
  · rw [Pc.phase_of_dials hdials] at hflag
    exact hflag

/-! ## Parts of a step -/

@[simp] theorem connected_clear (w : World R) (a : Fin maxCalls) :
    (w.clear a).client.connected = false := rfl

@[simp] theorem pc_clear (w : World R) (a : Fin maxCalls) : (w.clear a).pc = w.pc := rfl

/-- After clearing an appearance the last call is up if it was up and not there. -/
theorem up_clear (w : World R) (a : Fin maxCalls) :
    (w.clear a).Up ↔ w.Up ∧ w.lines.call a ≠ w.dialled := Appearances.up_clear

/-- Clearing an appearance leaves the numbers and the selection as they are. -/
theorem World.Tracked.clear {w : World R} (h : w.Tracked) (a : Fin maxCalls) :
    (w.clear a).Tracked := by
  refine ⟨h.known, fun b hne hb => ?_⟩
  by_cases hba : b = a
  · subst hba
    exact absurd (hb.symm.trans (w.lines.call_clear_self b)) hne
  · exact h.onSelected b hne ((w.lines.call_clear_of_ne hba).symm.trans hb)

theorem World.Tracked.dump {w : World R} (h : w.Tracked) : w.dump.Tracked := by
  unfold World.dump
  split
  · exact h
  · exact h.clear _

/-- The last call is up when it is on the selected appearance. -/
theorem World.Tracked.up_iff {w : World R} (h : w.Tracked) :
    w.Up ↔ w.dialled ≠ none ∧ w.lines.call w.lines.selected = w.dialled := by
  unfold World.Up
  rw [Appearances.up_iff]
  refine and_congr_right fun hne => ⟨?_, fun h => ⟨_, h⟩⟩
  rintro ⟨a, ha⟩
  rwa [← h.onSelected a hne ha]

/-- **After `iaxc_dump_call` the last call is gone.** -/
theorem not_up_dump {w : World R} (h : w.Tracked) : ¬ w.dump.Up := by
  unfold World.dump
  split
  · rename_i hfree
    rw [h.up_iff]
    rintro ⟨hne, hcall⟩
    exact hne (hcall.symm.trans hfree)
  · rw [up_clear, h.up_iff]
    rintro ⟨⟨-, hcall⟩, hother⟩
    exact hother hcall

/-- A step from a place where the flag counts to another one, with the call and the flag left alone,
keeps the invariant. -/
theorem inv_of_settled {w w' : World R} (h : w.Inv) (hphase : w.pc.phase = .settled)
    (hphase' : w'.pc.phase = .settled) (hlines : w'.lines = w.lines)
    (hdialled : w'.dialled = w.dialled)
    (hconnected : w'.client.connected = w.client.connected) : w'.Inv := by
  have hflag := h.flag
  unfold World.Flag World.Up at hflag
  rw [hphase] at hflag
  refine ⟨⟨?_, ?_⟩, ?_⟩
  · rw [hlines, hdialled]
    exact h.known
  · rw [hlines, hdialled]
    exact h.onSelected
  · unfold World.Flag World.Up
    rw [hphase', hlines, hdialled, hconnected]
    exact hflag

/-- Moving on keeps the invariant where the flag is worth what the new place needs. -/
theorem World.Tracked.goto {w : World R} (h : w.Tracked) {pc : Pc} (hflag : (w.goto pc).Flag) :
    (w.goto pc).Inv := ⟨⟨h.known, h.onSelected⟩, hflag⟩

/-- An assignment of the truth to `connected`. -/
theorem World.Tracked.setConnected {w : World R} (h : w.Tracked) {b : Bool}
    (hb : b = true ↔ w.Up) {pc : Pc} (hpc : pc.phase = .settled) :
    ((w.setConnected b).goto pc).Inv := by
  refine ⟨⟨h.known, h.onSelected⟩, ?_⟩
  unfold World.Flag
  rw [show ((w.setConnected b).goto pc).pc.phase = .settled from hpc]
  exact hb

/-- A test keeps the invariant: the flag tells the truth there, so a call is dialled only when none
is up. -/
theorem World.Inv.test {w : World R} (h : w.Inv) (hsettled : w.pc.phase = .settled) {pc : Pc}
    (hplaced : pc.phase ≠ .placed) (hquiet : pc.phase = .quiet → w.client.connected = false) :
    (w.goto pc).Inv := by
  have hflag := h.flag
  unfold World.Flag at hflag
  rw [hsettled] at hflag
  refine h.toTracked.goto ?_
  unfold World.Flag
  show match pc.phase with
    | .settled => w.client.connected = true ↔ w.Up
    | .hangingUp => True
    | .quiet => ¬ w.Up
    | .placed => w.Up
  cases hpc : pc.phase with
  | settled => exact hflag
  | hangingUp => trivial
  | quiet =>
      exact fun hup => absurd ((hquiet hpc).symm.trans (hflag.mpr hup)) Bool.false_ne_true
  | placed => exact absurd hpc hplaced

/-- **An undisturbing end of a call keeps the invariant.** -/
theorem inv_clear {w : World R} (h : w.Inv) {a : Fin maxCalls} (hok : Undisturbed w (.cleared a)) :
    (w.clear a).Inv := by
  have hflag := h.flag
  refine ⟨h.toTracked.clear a, ?_⟩
  simp only [Undisturbed] at hok
  unfold World.Flag at hflag ⊢
  rw [pc_clear, connected_clear, up_clear]
  by_cases hlast : w.lines.call a = w.dialled
  · -- the last call is gone, and so is the flag
    rw [if_pos hlast] at hok
    have hgone : ¬ (w.Up ∧ w.lines.call a ≠ w.dialled) := fun hup => hup.2 hlast
    cases hphase : w.pc.phase with
    | settled => exact iff_of_false Bool.false_ne_true hgone
    | hangingUp => trivial
    | quiet => exact hgone
    | placed => exact absurd hphase hok
  · -- another call is gone, and the flag with it
    rw [if_neg hlast] at hok
    cases hphase : w.pc.phase with
    | settled =>
        rw [hphase] at hflag
        have hconnected : w.client.connected ≠ true := fun hc => hok ⟨hc, hphase⟩
        exact iff_of_false Bool.false_ne_true fun hup => hconnected (hflag.mpr hup.1)
    | hangingUp => trivial
    | quiet =>
        rw [hphase] at hflag
        exact fun hup => hflag hup.1
    | placed =>
        rw [hphase] at hflag
        exact ⟨hflag, hlast⟩

/-- An incoming call keeps the invariant: it is a new call on a free appearance. -/
theorem inv_incoming {w : World R} (h : w.Inv) {a : Fin maxCalls} (ha : w.lines.call a = none) :
    World.Inv { w with lines := w.lines.put a } := by
  have hflag := h.flag
  have hup : World.Up { w with lines := w.lines.put a } ↔ w.Up := Appearances.up_put ha h.known
  refine ⟨⟨fun c hc => Nat.lt_succ_of_lt (h.known c hc), fun b hne hb => ?_⟩, ?_⟩
  · by_cases hba : b = a
    · -- the number of the new call was not handed out before
      subst hba
      have hnew : some w.lines.next = w.dialled := (w.lines.call_put_self b).symm.trans hb
      exact absurd (h.known _ hnew.symm) (Nat.lt_irrefl _)
    · exact h.onSelected b hne ((w.lines.call_put_of_ne hba).symm.trans hb)
  · unfold World.Flag at hflag ⊢
    simp only [hup]
    exact hflag

/-- Hanging up, left alone, ends with the flag cleared and otherwise the same client. -/
theorem client_hangup (w : World R) :
    (w.dump.setConnected false).client = { w.client with connected := false } := by
  unfold World.dump
  split
  · rfl
  · rfl

end Truth

/-! ## One step -/

section Step

variable {R : Type} [CFloat R] {cfg : Config R}

/-- The client starts disconnected, with nothing dialled. -/
theorem inv_start (cfg : Config R) : (World.start cfg).Inv where
  known := fun _ h => absurd h (by simp [World.start])
  onSelected := fun _ h => absurd rfl h
  flag := ⟨fun h => absurd h Bool.false_ne_true, False.elim⟩

/-- A call that is placed is tracked. -/
theorem tracked_dialCall (cfg : Config R) {w : World R} (htarget : w.lines.target ≠ none)
    (icao : CStr 4) :
    (w.dialCall cfg icao).Tracked ∧ (w.dialCall cfg icao).Up := by
  obtain ⟨hcall, hnext, hselected⟩ := Appearances.iaxcCall_of_target htarget
  have hdialled : (w.dialCall cfg icao).dialled = some w.lines.next := hcall
  have hup : (w.dialCall cfg icao).lines.call (w.dialCall cfg icao).lines.selected
      = some w.lines.next := hselected
  refine ⟨⟨?_, ?_⟩, ?_⟩
  · intro c hc
    rw [hdialled] at hc
    rw [← Option.some.inj hc]
    exact hnext ▸ Nat.lt_succ_self _
  · intro a _ ha
    rw [hdialled] at ha
    exact (w.dialCall cfg icao).lines.apart _ _ _ ha hup
  · unfold World.Up
    rw [hdialled]
    exact ⟨_, hup⟩

/-- What the statements of the main thread do, each with what holds where it stands. -/
inductive Statement (cfg : Config R) (w : World R) : World R → Prop
  /-- A test of the flag. -/
  | test {pc : Pc} (hsettled : w.pc.phase = .settled) (hplaced : pc.phase ≠ .placed)
      (hquiet : pc.phase = .quiet → w.client.connected = false) : Statement cfg w (w.goto pc)
  /-- The PTT branch. -/
  | key (hsettled : w.pc.phase = .settled) :
      Statement cfg w { w with client := pttChange cfg w.client, pc := .idle }
  /-- `iaxc_dump_call`. -/
  | dump {pc : Pc} (hquiet : pc.phase = .quiet) : Statement cfg w (w.dump.goto pc)
  /-- `do_iaxc_call`. -/
  | dial {pc : Pc} (icao : CStr 4) (hdials : w.pc.dials = true) (hplaced : pc.phase = .placed) :
      Statement cfg w ((w.dialCall cfg icao).goto pc)
  /-- `connected = 0`. -/
  | clear {pc : Pc} (hquiet : w.pc.phase = .quiet) (hpc : pc.phase = .quiet ∨ pc.phase = .settled) :
      Statement cfg w ((w.setConnected false).goto pc)
  /-- `connected = 1`. -/
  | set {pc : Pc} (hplaced : w.pc.phase = .placed) (hpc : pc.phase = .settled) :
      Statement cfg w ((w.setConnected true).goto pc)

/-- **The main thread's next statement** is one of these. -/
theorem statement_of_mainStep {w w' : World R} (hstep : mainStep cfg w = some w') :
    Statement cfg w w' := by
  unfold mainStep at hstep
  cases hpc : w.pc with
  | idle => exact absurd (hpc ▸ hstep) (by simp)
  | retuned =>
      rw [hpc] at hstep
      obtain rfl := Option.some.inj hstep
      refine .test (by rw [hpc]; rfl) ?_ ?_
      · split <;> exact Phase.noConfusion
      · cases w.client.connected with
        | true => exact Phase.noConfusion
        | false => exact fun _ => rfl
  | hangup =>
      rw [hpc] at hstep
      exact Option.some.inj hstep ▸ .dump rfl
  | hungup =>
      rw [hpc] at hstep
      exact Option.some.inj hstep ▸ .clear (by rw [hpc]; rfl) (Or.inl rfl)
  | dial =>
      rw [hpc] at hstep
      obtain ⟨icao, -, rfl⟩ := Option.map_eq_some_iff.mp hstep
      exact .dial icao (by rw [hpc]; rfl) rfl
  | dialled =>
      rw [hpc] at hstep
      exact Option.some.inj hstep ▸ .set (by rw [hpc]; rfl) rfl
  | key =>
      rw [hpc] at hstep
      exact Option.some.inj hstep ▸ .key (by rw [hpc]; rfl)
  | alarmTest icao =>
      rw [hpc] at hstep
      obtain rfl := Option.some.inj hstep
      refine .test (by rw [hpc]; rfl) ?_ ?_
      · split_ifs <;> exact Phase.noConfusion
      · split_ifs with hhangup hdial
        · exact Phase.noConfusion
        · exact fun _ => hdial.2
        · exact Phase.noConfusion
  | alarmHangup =>
      rw [hpc] at hstep
      exact Option.some.inj hstep ▸ .dump rfl
  | alarmHungup =>
      rw [hpc] at hstep
      exact Option.some.inj hstep ▸ .clear (by rw [hpc]; rfl) (Or.inr rfl)
  | alarmDial icao =>
      rw [hpc] at hstep
      exact Option.some.inj hstep ▸ .dial icao (by rw [hpc]; rfl) rfl
  | alarmDialled =>
      rw [hpc] at hstep
      exact Option.some.inj hstep ▸ .set (by rw [hpc]; rfl) rfl

/-- **The main thread's next statement keeps the invariant**, if a call it dials finds an
appearance. -/
theorem inv_mainStep {w w' : World R} (h : w.Inv) (hok : Undisturbed w .main)
    (hstep : mainStep cfg w = some w') : w'.Inv := by
  have hflag := h.flag
  unfold World.Flag at hflag
  cases statement_of_mainStep hstep with
  | test hsettled hplaced hquiet => exact h.test hsettled hplaced hquiet
  | key hsettled =>
      exact inv_of_settled h hsettled rfl rfl rfl (pttChange_frame cfg w.client).2.1
  | @dump pc hquiet =>
      refine h.toTracked.dump.goto ?_
      unfold World.Flag
      rw [show (w.dump.goto pc).pc.phase = .quiet from hquiet]
      exact not_up_dump h.toTracked
  | @dial pc icao hdials hplaced =>
      obtain ⟨htracked, hup⟩ := tracked_dialCall cfg (hok hdials) icao
      refine htracked.goto ?_
      unfold World.Flag
      rw [show ((w.dialCall cfg icao).goto pc).pc.phase = .placed from hplaced]
      exact hup
  | @clear pc hquiet hpc =>
      rw [hquiet] at hflag
      rcases hpc with hpc | hpc
      · refine ⟨⟨h.known, h.onSelected⟩, ?_⟩
        unfold World.Flag
        rw [show ((w.setConnected false).goto pc).pc.phase = .quiet from hpc]
        exact hflag
      · exact h.toTracked.setConnected (iff_of_false Bool.false_ne_true hflag) hpc
  | set hplaced hpc =>
      rw [hplaced] at hflag
      exact h.toTracked.setConnected (iff_of_true rfl hflag) hpc

/-- **Every undisturbing step keeps the invariant.** -/
theorem inv_step {w w' : World R} {act : Act} (h : w.Inv) (hok : Undisturbed w act)
    (hstep : interleavedStep cfg w act = some w') : w'.Inv := by
  cases act with
  | packet buf =>
      simp only [interleavedStep, packetStep, Option.ite_none_right_eq_some] at hstep
      obtain ⟨hidle, hstep⟩ := hstep
      obtain ⟨d, -, rfl⟩ := Option.map_eq_some_iff.mp hstep
      have hphase : w.pc.phase = .settled := by rw [hidle]; rfl
      split
      · exact inv_of_settled h hphase rfl rfl rfl rfl
      · exact inv_of_settled h hphase rfl rfl rfl rfl
  | alarm =>
      simp only [interleavedStep, Option.ite_none_right_eq_some] at hstep
      obtain ⟨hidle, hstep⟩ := hstep
      obtain ⟨icao, -, rfl⟩ := Option.map_eq_some_iff.mp hstep
      exact inv_of_settled h (by rw [hidle]; rfl) rfl rfl rfl rfl
  | main => exact inv_mainStep h hok hstep
  | cleared a =>
      simp only [interleavedStep, Option.ite_none_left_eq_some] at hstep
      obtain ⟨-, hstep⟩ := hstep
      obtain rfl := Option.some.inj hstep
      exact inv_clear h hok
  | incoming =>
      obtain ⟨a, ha, rfl⟩ := Option.map_eq_some_iff.mp hstep
      exact inv_incoming h (Appearances.call_of_firstFree ha)
  | progress state =>
      simp only [interleavedStep, Option.ite_none_left_eq_some] at hstep
      obtain ⟨hstate, hstep⟩ := hstep
      obtain rfl := Option.some.inj hstep
      have hsame : eventState state w.client = w.client := if_neg hstate
      rw [hsame]
      exact h

/-- **The flag tells the truth** along every interleaving of undisturbing steps: whenever the main
thread is between two packets or alarms the client is connected exactly if the call it dialled last
is up, and it never dials while that call is up. -/
theorem connected_tells_truth {acts : List Act}
    (hok : StepsMeet (interleavedStep cfg) Undisturbed (World.start cfg) acts) :
    ∀ w ∈ trail (interleavedStep cfg) (World.start cfg) acts, w.Truthful :=
  fun w hw => (trail_invariant (fun _ _ _ h hok hstep => inv_step h hok hstep) (inv_start cfg) hok w
    hw).truthful

/-! ## A disturbing step -/

/-- The main thread, left alone, comes from one world to another. -/
abbrev RunsTo (cfg : Config R) : World R → World R → Prop :=
  Relation.ReflTransGen fun w v => mainStep cfg w = some v

/-- From a call that is gone before the flag is set, the flag comes to lie. -/
theorem lies_of_placed {w : World R} (hphase : w.pc.phase = .placed) (hdown : ¬ w.Up) :
    ∃ w', RunsTo cfg w w' ∧ ¬ w'.Truthful := by
  cases hpc : w.pc with
  | dialled =>
      have hset : mainStep cfg w = some ((w.setConnected true).goto .key) := by rw [mainStep, hpc]
      refine ⟨_, .head hset (.single rfl), fun h => hdown ((h.1 rfl).mp ?_)⟩
      exact (pttChange_frame cfg _).2.1
  | alarmDialled =>
      have hset : mainStep cfg w = some ((w.setConnected true).goto .idle) := by rw [mainStep, hpc]
      exact ⟨_, .single hset, fun h => hdown ((h.1 rfl).mp rfl)⟩
  | _ => rw [hpc] at hphase; exact absurd hphase (by simp [Pc.phase])

/-- With the flag cleared while the call is up, the flag lies or a second call is dialled. -/
theorem lies_of_settled {w : World R} (hphase : w.pc.phase = .settled)
    (hconnected : w.client.connected = false) (hup : w.Up) :
    ∃ w', RunsTo cfg w w' ∧ ¬ w'.Truthful := by
  have hlie : ∀ {b : Bool}, b = false → ¬ (b = true ↔ w.Up) := by
    rintro b rfl h
    exact Bool.false_ne_true (h.mpr hup)
  cases hpc : w.pc with
  | idle => exact ⟨w, .refl, fun h => hlie hconnected (h.1 hpc)⟩
  | retuned =>
      -- nothing is hung up, and the second call is dialled
      have hdial : mainStep cfg w = some (w.goto .dial) := by simp [mainStep, hpc, hconnected]
      exact ⟨_, .single hdial, fun h => h.2 rfl hup⟩
  | key =>
      have hkey : mainStep cfg w
          = some { w with client := pttChange cfg w.client, pc := .idle } := by
        rw [mainStep, hpc]
      refine ⟨_, .single hkey, fun h => hlie ?_ (h.1 rfl)⟩
      exact (pttChange_frame cfg w.client).2.1.trans hconnected
  | alarmTest icao =>
      by_cases hicao : icao.val.length = 0
      · have hidle : mainStep cfg w = some (w.goto .idle) := by
          simp [mainStep, hpc, hconnected, hicao]
        exact ⟨_, .single hidle, fun h => hlie hconnected (h.1 rfl)⟩
      · have hdial : mainStep cfg w = some (w.goto (.alarmDial icao)) := by
          simp [mainStep, hpc, hconnected, hicao]
        exact ⟨_, .single hdial, fun h => h.2 rfl hup⟩
  | _ => rw [hpc] at hphase; exact absurd hphase (by simp [Pc.phase])

/-- **Every other step disturbs**: left alone after it, the main thread comes to a place where the
flag lies or a second call is dialled. -/
theorem disturbed_breaks {w w' : World R} {act : Act} (h : w.Inv)
    (hstep : interleavedStep cfg w act = some w') (hbad : ¬ Undisturbed w act) :
    ∃ w'', RunsTo cfg w' w'' ∧ ¬ w''.Truthful := by
  have hflag := h.flag
  unfold World.Flag at hflag
  cases act with
  | packet buf => exact absurd trivial hbad
  | alarm => exact absurd trivial hbad
  | incoming => exact absurd trivial hbad
  | progress state => exact absurd trivial hbad
  | cleared a =>
      simp only [interleavedStep, Option.ite_none_left_eq_some] at hstep
      obtain ⟨-, hstep⟩ := hstep
      obtain rfl := Option.some.inj hstep
      simp only [Undisturbed] at hbad
      split at hbad
      · -- the call just placed is gone, and `connected = 1` comes next
        rename_i hlast
        refine lies_of_placed (not_not.mp hbad) ?_
        rw [up_clear]
        exact fun hup => hup.2 hlast
      · -- the callback of another call has cleared the flag
        rename_i hother
        obtain ⟨hconnected, hphase⟩ := not_not.mp hbad
        rw [hphase] at hflag
        exact lies_of_settled hphase rfl ((up_clear w a).mpr ⟨hflag.mp hconnected, hother⟩)
  | main =>
      simp only [Undisturbed, ne_eq, Classical.not_imp, not_not] at hbad
      obtain ⟨hdials, htarget⟩ := hbad
      -- nothing is placed, so nothing is up
      have hnone : ∀ icao, (w.dialCall cfg icao).dialled = none := by
        intro icao
        have hcall : w.lines.iaxcCall.2 = none := by
          unfold Appearances.iaxcCall
          rw [htarget]
        exact hcall
      have hdown : ∀ icao, ¬ (w.dialCall cfg icao).Up := by
        intro icao hup
        unfold World.Up at hup
        rw [hnone] at hup
        exact hup
      simp only [interleavedStep, mainStep] at hstep
      cases hpc : w.pc with
      | dial =>
          rw [hpc] at hstep
          obtain ⟨icao, -, rfl⟩ := Option.map_eq_some_iff.mp hstep
          exact lies_of_placed rfl (hdown icao)
      | alarmDial icao =>
          rw [hpc] at hstep
          obtain rfl := Option.some.inj hstep
          exact lies_of_placed rfl (hdown icao)
      | _ => rw [hpc] at hdials; exact absurd hdials Bool.false_ne_true

/-! ## The pieces put together -/

/-- The hang-up of `process_packet`, left alone: the main thread comes to dial, disconnected. -/
theorem runsTo_dial (cfg : Config R) {w : World R} (hpc : w.pc = .retuned) :
    ∃ w', RunsTo cfg w w' ∧ w'.pc = .dial ∧
      w'.client = { w.client with connected := false } := by
  cases hconnected : w.client.connected with
  | true =>
      have htest : mainStep cfg w = some (w.goto .hangup) := by
        simp only [mainStep, hpc, hconnected, if_true]
      exact ⟨_, .head htest (.head rfl (.single rfl)), rfl, client_hangup (w.goto .hangup)⟩
  | false =>
      have htest : mainStep cfg w = some (w.goto .dial) := by
        simp only [mainStep, hpc, hconnected, Bool.false_eq_true, if_false]
      refine ⟨_, .single htest, rfl, ?_⟩
      rw [← hconnected]
      rfl

/-- The lookup and the call of `process_packet`, left alone, with the PTT branch after them. -/
theorem runsTo_idle {w : World R} (hpc : w.pc = .dial) {icao : CStr 4}
    (hicao : icaoHere cfg w.client = some icao) :
    ∃ w', RunsTo cfg w w' ∧ w'.pc = .idle ∧
      w'.client = pttChange cfg (placeCall cfg icao w.client) := by
  have hdial : mainStep cfg w = some ((w.dialCall cfg icao).goto .dialled) := by
    simp only [mainStep, hpc, hicao, Option.map_some]
  exact ⟨_, .head hdial (.head rfl (.single rfl)), rfl, rfl⟩

/-- **A packet that nothing interrupts** is `process_packet`. -/
theorem packet_uninterrupted {w : World R} (hidle : w.pc = .idle) {buf : List Char} {t : Client R}
    (h : processPacket cfg buf w.client = some t) :
    ∃ w₁ w', interleavedStep cfg w (.packet buf) = some w₁ ∧ RunsTo cfg w₁ w' ∧
      w'.pc = .idle ∧ w'.client = t := by
  obtain ⟨d, u, hd, hu, rfl⟩ := processPacket_eq_some h
  have hpacket : interleavedStep cfg w (.packet buf) = some
      (if frequencyChanged (takeData d w.client) then
        { w with
          client := { takeData d w.client with
            previousComFrequency := (takeData d w.client).selectedFrequency }
          pc := .retuned }
      else { w with client := takeData d w.client, pc := .key }) := by
    simp only [interleavedStep, packetStep, if_pos hidle, hd, Option.map_some]
  rcases retune_eq_some hu with ⟨hsame, rfl⟩ | ⟨hchanged, icao, hicao, rfl⟩
  · -- only the PTT branch is left
    rw [if_neg (by simp [hsame])] at hpacket
    exact ⟨_, _, hpacket, .single rfl, rfl, rfl⟩
  · -- hang up, look up and dial, then the PTT branch
    rw [if_pos hchanged] at hpacket
    obtain ⟨v, hruns, hpc, hclient⟩ := runsTo_dial cfg (w := { w with
      client := { takeData d w.client with
        previousComFrequency := (takeData d w.client).selectedFrequency }
      pc := .retuned }) rfl
    have hhere : icaoHere cfg v.client = some icao := by
      rw [hclient]
      exact hicao
    obtain ⟨w', hruns', hend, hclient'⟩ := runsTo_idle hpc hhere
    refine ⟨_, w', hpacket, hruns.trans hruns', hend, ?_⟩
    rw [hclient', hclient]

/-- **An alarm that nothing interrupts** is `alarm_handler`. -/
theorem alarm_uninterrupted {w : World R} (hidle : w.pc = .idle) {t : Client R}
    (h : alarmHandler cfg w.client = some t) :
    ∃ w₁ w', interleavedStep cfg w .alarm = some w₁ ∧ RunsTo cfg w₁ w' ∧
      w'.pc = .idle ∧ w'.client = t := by
  obtain ⟨icao, hicao, hcases⟩ := alarmHandler_eq_some h
  have halarm : interleavedStep cfg w .alarm = some (w.goto (.alarmTest icao)) := by
    simp only [interleavedStep, if_pos hidle, hicao, Option.map_some]
  rcases hcases with ⟨hlen, hconnected, rfl⟩ | ⟨hlen, hconnected, rfl⟩ | ⟨hagree, rfl⟩
  · -- out of range: hang up
    have htest : mainStep cfg (w.goto (.alarmTest icao)) = some (w.goto .alarmHangup) := by
      simp [mainStep, World.goto, hlen, hconnected]
    exact ⟨_, _, halarm, .head htest (.head rfl (.single rfl)), rfl,
      client_hangup (w.goto .alarmHangup)⟩
  · -- in range again: dial
    have htest : mainStep cfg (w.goto (.alarmTest icao)) = some (w.goto (.alarmDial icao)) := by
      simp [mainStep, World.goto, hlen, hconnected]
    exact ⟨_, _, halarm, .head htest (.head rfl (.single rfl)), rfl, rfl⟩
  · -- flag and lookup agree: nothing is done
    have htest : mainStep cfg (w.goto (.alarmTest icao)) = some (w.goto .idle) := by
      cases hconnected : w.client.connected <;> by_cases hlen : icao.val.length = 0 <;>
        simp_all [mainStep, World.goto]
    exact ⟨_, _, halarm, .single htest, rfl, rfl⟩

end Step

/-- A packet dials the tower, a call comes in, the tower's side hangs up, the caller does too, and
the next alarm dials again. -/
def incomingCall : List Act :=
  [.packet "COM1_FRQ=118.5,COM1_SRV=1,LAT=50,LON=8\n".toList, .main, .main, .main, .main, .incoming,
    .cleared 0, .cleared 1, .alarm, .main, .main, .main]

/-- The flag tells the truth through `incomingCall`. -/
theorem connected_tells_truth_with_incoming_call :
    StepsMeet (interleavedStep twoStations) Undisturbed (World.start twoStations) incomingCall ∧
      ∀ w ∈ trail (interleavedStep twoStations) (World.start twoStations) incomingCall,
        w.Truthful := by
  have hok : StepsMeet (interleavedStep twoStations) Undisturbed (World.start twoStations)
      incomingCall := by decide +kernel
  exact ⟨hok, connected_tells_truth hok⟩

/-- **A call rejected in the sleep at the end of `do_iaxc_call`**: the notification comes before
`connected = 1`, which overwrites it. -/
theorem connected_without_call :
    ∃ w ∈ trail (interleavedStep twoStations) (World.start twoStations)
      [.packet "COM1_FRQ=118.5,COM1_SRV=1,LAT=50,LON=8\n".toList, .main, .main, .cleared 0, .main,
        .main],
      w.pc = .idle ∧ w.client.connected = true ∧ ¬ w.Up := by
  decide +kernel

end Fgcom
