import Mathlib.Data.Prod.Lex
import Fgcom.Iax.Session

/-! # The schedule

What `iax.c` has to do at some time stands in one list for all sessions, `schedq`: events to hand to
the application, full frames to send once more, and functions to call.

* **`iaxSchedAdd`**, **`iaxGetSched`**, **`iaxSchedDel`**, **`iaxTimeToNextEvent`** — the functions
  of that name. The clock may go backwards between two calls.
* **`schedule_refines_pool`** — the list behaves as a pool from which always the earliest is taken,
  and of those due at the same time the one that came first. `iax_get_sched` never moves its `prev`
  on, so it would lose what stands in front of the entry it finds; but nothing ever does.
* **`schedule_keeps_time`** — nothing comes out early, nothing that is due stays behind, and
  `iax_time_to_next_event` is right to within a millisecond, up to 999999999 of them and as long as
  no entry is further away than an `int` can say.
* **`session_sees_own_schedule`** — what a session sees of the schedule is the schedule of
  `Session.lean`. -/

namespace Fgcom.Iax

open StableInsert

/-! ## The code -/

/-- `struct timeval`. -/
structure TimeVal where
  sec : ℤ
  usec : ℤ
deriving DecidableEq

/-- `struct iax_sched`. -/
structure Entry (α : Type*) where
  when : TimeVal
  what : α
deriving DecidableEq

/-- The time `ms` milliseconds from now, in `iax_sched_add`. A full million of microseconds is not
carried. -/
def TimeVal.from (now : TimeVal) (ms : ℤ) : TimeVal :=
  let sec := now.sec + ms.tdiv 1000
  let usec := now.usec + ms.tmod 1000 * 1000
  if usec > 1000000 then ⟨sec + 1, usec - 1000000⟩ else ⟨sec, usec⟩

/-- The milliseconds from one time to another: a `long`, stored in an `int`. -/
def TimeVal.msFrom (t start : TimeVal) : ℤ :=
  Int.bmod ((t.sec - start.sec) * 1000 + (t.usec - start.usec).tdiv 1000) 4294967296

section Code

variable {α : Type*}

/-- The loop of `iax_sched_add`: in front of the first entry that is later. -/
def putInOrder (sched : Entry α) : List (Entry α) → List (Entry α)
  | [] => [sched]
  | cur :: schedq =>
      if cur.when.sec < sched.when.sec ∨
          (cur.when.usec ≤ sched.when.usec ∧ cur.when.sec = sched.when.sec) then
        cur :: putInOrder sched schedq
      else sched :: cur :: schedq

/-- `iax_sched_add`. -/
def iaxSchedAdd (now : TimeVal) (ms : ℤ) (what : α) (schedq : List (Entry α)) : List (Entry α) :=
  putInOrder ⟨now.from ms, what⟩ schedq

/-- The time of an entry has come. -/
def Entry.due (cur : Entry α) (tv : TimeVal) : Prop :=
  tv.sec > cur.when.sec ∨ (tv.sec = cur.when.sec ∧ tv.usec ≥ cur.when.usec)

instance (cur : Entry α) (tv : TimeVal) : Decidable (cur.due tv) :=
  inferInstanceAs (Decidable (_ ∨ _))

/-- `iax_get_sched`: the first entry that is due, and the schedule after it. `prev` stays null, so
the schedule then begins behind that entry. -/
def iaxGetSched (tv : TimeVal) : List (Entry α) → Option (Entry α × List (Entry α))
  | [] => none
  | cur :: schedq => if cur.due tv then some (cur, schedq) else iaxGetSched tv schedq

/-- `iax_sched_del`: what it returns, and the schedule. -/
def iaxSchedDel [DecidableEq α] (what : α) (all : Bool) : List (Entry α) → ℤ × List (Entry α)
  | [] => (0, [])
  | cur :: schedq =>
      if cur.what = what then
        if all then iaxSchedDel what all schedq else (-1, schedq)
      else
        let r := iaxSchedDel what all schedq
        (r.1, cur :: r.2)

/-- The milliseconds to an entry, in `iax_time_to_next_event`. -/
def Entry.msFrom (cur : Entry α) (tv : TimeVal) : ℤ := cur.when.msFrom tv

/-- `iax_time_to_next_event`. -/
def iaxTimeToNextEvent (tv : TimeVal) (schedq : List (Entry α)) : ℤ :=
  if schedq.isEmpty then -1
  else
    let min := schedq.foldl (fun min cur => if cur.msFrom tv < min then cur.msFrom tv else min)
      999999999
    if min < 0 then 0 else min

/-- What is done with the schedule. `iax_sched_del` is always told to take out all;
`destroy_session` takes out the events of a session, and marks its frames, as acknowledgements
do. -/
inductive SchedOp (α : Type*)
  | add (now : TimeVal) (ms : ℤ) (what : α)
  | get (tv : TimeVal)
  | del (what : α)
  | purge (gone : α → Bool)
  | mark (f : α → α)

/-- An operation on the schedule: what comes out, and the schedule after it. -/
def SchedOp.apply [DecidableEq α] (schedq : List (Entry α)) :
    SchedOp α → Option (Entry α) × List (Entry α)
  | .add now ms what => (none, iaxSchedAdd now ms what schedq)
  | .get tv =>
      match iaxGetSched tv schedq with
      | none => (none, schedq)
      | some (cur, schedq) => (some cur, schedq)
  | .del what => (none, (iaxSchedDel what true schedq).2)
  | .purge gone => (none, schedq.filter fun cur => !gone cur.what)
  | .mark f => (none, schedq.map fun cur => { cur with what := f cur.what })

/-! ## The pool -/

/-- The order of two times. -/
def TimeVal.key (t : TimeVal) : ℤ ×ₗ ℤ := toLex (t.sec, t.usec)

/-- The order of two entries. -/
def Entry.key (cur : Entry α) : ℤ ×ₗ ℤ := cur.when.key

/-- The same operation on a pool of entries, in the order in which they came. -/
def SchedOp.applyPool [DecidableEq α] (pool : List (Entry α)) :
    SchedOp α → Option (Entry α) × List (Entry α)
  | .add now ms what => (none, pool ++ [⟨now.from ms, what⟩])
  | .get tv =>
      match earliest Entry.key pool with
      | none => (none, pool)
      | some cur => if cur.due tv then (some cur, serve Entry.key pool) else (none, pool)
  | .del what => (none, pool.filter fun cur => cur.what ≠ what)
  | .purge gone => (none, pool.filter fun cur => !gone cur.what)
  | .mark f => (none, pool.map fun cur => { cur with what := f cur.what })

/-- What comes out of a run of operations, and what is left. -/
def runOps (apply : List (Entry α) → SchedOp α → Option (Entry α) × List (Entry α)) :
    List (Entry α) → List (SchedOp α) → List (Option (Entry α)) × List (Entry α)
  | s, [] => ([], s)
  | s, op :: ops =>
      let r := apply s op
      let r' := runOps apply r.2 ops
      (r.1 :: r'.1, r'.2)

end Code

/-! ## The list is in order -/

section Order

variable {α : Type*} {tv : TimeVal} {cur e : Entry α} {schedq pool : List (Entry α)}

theorem TimeVal.key_le_iff (s t : TimeVal) :
    s.key ≤ t.key ↔ s.sec < t.sec ∨ s.sec = t.sec ∧ s.usec ≤ t.usec := Prod.Lex.toLex_le_toLex

theorem Entry.due_iff (cur : Entry α) (tv : TimeVal) : cur.due tv ↔ cur.key ≤ tv.key := by
  unfold Entry.due Entry.key
  rw [TimeVal.key_le_iff]
  exact or_congr Iff.rfl (and_congr eq_comm Iff.rfl)

/-- Adding an entry puts it behind everything that is not later. -/
theorem putInOrder_eq (sched : Entry α) (schedq : List (Entry α)) :
    putInOrder sched schedq = insertAfter (byKey Entry.key) sched schedq := by
  induction schedq with
  | nil => rfl
  | cons cur schedq ih =>
      rw [putInOrder, insertAfter_cons, ih]
      refine if_congr ?_ rfl rfl
      change _ ↔ cur.key ≤ sched.key
      unfold Entry.key
      rw [TimeVal.key_le_iff, and_comm]

/-- Taking out all is keeping the others. -/
theorem iaxSchedDel_all [DecidableEq α] (what : α) (schedq : List (Entry α)) :
    (iaxSchedDel what true schedq).2 = schedq.filter fun cur => cur.what ≠ what := by
  induction schedq with
  | nil => rfl
  | cons cur schedq ih =>
      rw [iaxSchedDel, List.filter_cons]
      by_cases hcur : cur.what = what
      · rw [if_pos hcur, if_pos rfl, ih, if_neg (by simpa using hcur)]
      · rw [if_neg hcur, if_pos (by simpa using hcur), ← ih]

/-- Nothing is due behind an entry that is not. -/
theorem iaxGetSched_eq_none (h : schedq.Pairwise (byKey Entry.key))
    (hcur : ∀ e ∈ schedq, cur.key ≤ e.key) (hdue : ¬ cur.due tv) :
    iaxGetSched tv schedq = none := by
  induction schedq with
  | nil => rfl
  | cons e schedq ih =>
      obtain ⟨-, htail⟩ := List.pairwise_cons.mp h
      obtain ⟨he, hrest⟩ := List.forall_mem_cons.mp hcur
      have hlate : ¬ e.due tv := fun hdue' =>
        hdue ((cur.due_iff tv).mpr (he.trans ((e.due_iff tv).mp hdue')))
      rw [iaxGetSched, if_neg hlate]
      exact ih htail hrest

/-- **Only the first entry comes out**: nothing that stands in front of it is lost. -/
theorem iaxGetSched_cons (h : (cur :: schedq).Pairwise (byKey Entry.key)) (tv : TimeVal) :
    iaxGetSched tv (cur :: schedq) = if cur.due tv then some (cur, schedq) else none := by
  obtain ⟨hcur, htail⟩ := List.pairwise_cons.mp h
  rw [iaxGetSched]
  split_ifs with hdue
  · rfl
  · exact iaxGetSched_eq_none htail hcur hdue

theorem arranges_start : Arranges (Entry.key (α := α)) [] [] := Arranges.nil

end Order

/-! ## The list behaves as the pool -/

section Refine

variable {α : Type*} [DecidableEq α] {schedq pool : List (Entry α)}

/-- **One operation** on the list and on the pool it arranges. -/
theorem apply_refines (h : Arranges Entry.key schedq pool) (op : SchedOp α) :
    (op.apply schedq).1 = (op.applyPool pool).1 ∧
      Arranges Entry.key (op.apply schedq).2 (op.applyPool pool).2 := by
  cases op with
  | add now ms what =>
      refine ⟨rfl, ?_⟩
      change Arranges Entry.key (putInOrder _ schedq) _
      rw [putInOrder_eq]
      exact h.insert _
  | get tv =>
      unfold SchedOp.apply SchedOp.applyPool
      dsimp only
      cases schedq with
      | nil =>
          rw [h.earliest_eq_none]
          exact ⟨rfl, h⟩
      | cons cur schedq =>
          rw [h.earliest_eq, iaxGetSched_cons h.sorted]
          dsimp only
          split_ifs with hdue
          · exact ⟨rfl, h.tail⟩
          · exact ⟨rfl, h⟩
  | del what =>
      refine ⟨rfl, ?_⟩
      change Arranges Entry.key (iaxSchedDel what true schedq).2 _
      rw [iaxSchedDel_all]
      exact h.filter _
  | purge gone => exact ⟨rfl, h.filter _⟩
  | mark f => exact ⟨rfl, h.map fun _ => rfl⟩

/-- **A run of operations** on the list and on the pool. -/
theorem runOps_refines (h : Arranges Entry.key schedq pool) (ops : List (SchedOp α)) :
    (runOps SchedOp.apply schedq ops).1 = (runOps SchedOp.applyPool pool ops).1 ∧
      Arranges Entry.key (runOps SchedOp.apply schedq ops).2
        (runOps SchedOp.applyPool pool ops).2 := by
  induction ops generalizing schedq pool with
  | nil => exact ⟨rfl, h⟩
  | cons op ops ih =>
      obtain ⟨hout, hnext⟩ := apply_refines h op
      obtain ⟨houts, hlast⟩ := ih hnext
      exact ⟨congrArg₂ List.cons hout houts, hlast⟩

/-- **The schedule is a pool from which the earliest is taken.** -/
theorem schedule_refines_pool (ops : List (SchedOp α)) :
    (runOps SchedOp.apply [] ops).1 = (runOps SchedOp.applyPool [] ops).1 ∧
      (runOps SchedOp.apply [] ops).2.Perm (runOps SchedOp.applyPool [] ops).2 := by
  obtain ⟨hout, harr⟩ := runOps_refines arranges_start ops
  exact ⟨hout, harr.perm⟩

end Refine

/-! ## The clock -/

section Clock

variable {α : Type*} {tv now : TimeVal} {e : Entry α} {schedq : List (Entry α)}

/-- Microseconds. -/
def TimeVal.real (t : TimeVal) : ℤ := t.sec * 1000000 + t.usec

/-- What `gettimeofday` returns. -/
def TimeVal.Clock (t : TimeVal) : Prop := 0 ≤ t.usec ∧ t.usec < 1000000

/-- What stands in the schedule. -/
def TimeVal.Normal (t : TimeVal) : Prop := 0 ≤ t.usec ∧ t.usec ≤ 1000000

instance (t : TimeVal) : Decidable t.Clock := inferInstanceAs (Decidable (_ ∧ _))

/-- The times of an operation are those of a clock, and nothing is put into the past. -/
def SchedOp.Timed : SchedOp α → Prop
  | .add now ms _ => now.Clock ∧ 0 ≤ ms
  | _ => True

instance SchedOp.Timed.decidable : ∀ op : SchedOp α, Decidable op.Timed
  | .add now ms _ => inferInstanceAs (Decidable (now.Clock ∧ 0 ≤ ms))
  | .get _ => isTrue trivial
  | .del _ => isTrue trivial
  | .purge _ => isTrue trivial
  | .mark _ => isTrue trivial

theorem TimeVal.from_real (hnow : now.Clock) {ms : ℤ} (hms : 0 ≤ ms) :
    (now.from ms).real = now.real + ms * 1000 ∧ (now.from ms).Normal := by
  obtain ⟨hlow, hhigh⟩ := hnow
  unfold TimeVal.from TimeVal.real TimeVal.Normal
  dsimp only
  rw [Int.tdiv_eq_ediv_of_nonneg hms, Int.tmod_eq_emod_of_nonneg hms]
  split_ifs <;> dsimp only <;> omega

theorem TimeVal.real_le_of_key_le {s t : TimeVal} (hs : s.Normal) (ht : t.Normal)
    (h : s.key ≤ t.key) : s.real ≤ t.real := by
  unfold TimeVal.Normal at hs ht
  unfold TimeVal.real
  rcases (s.key_le_iff t).mp h with hlt | ⟨heq, hle⟩ <;> omega

/-- **An entry is due** when its time has come. -/
theorem Entry.due_iff_real (he : e.when.Normal) (htv : tv.Clock) :
    e.due tv ↔ e.when.real ≤ tv.real := by
  refine ⟨fun h => ?_, fun h => ?_⟩
  · exact TimeVal.real_le_of_key_le he ⟨htv.1, htv.2.le⟩ ((e.due_iff tv).mp h)
  · obtain ⟨hlow, hhigh⟩ := he
    obtain ⟨hlow', hhigh'⟩ := htv
    unfold TimeVal.real at h
    unfold Entry.due
    omega

/-- Where the times in the schedule come from. -/
theorem when_apply [DecidableEq α] (op : SchedOp α) (he : e ∈ (op.apply schedq).2) :
    (∃ e₀ ∈ schedq, e.when = e₀.when) ∨
      ∃ now ms what, op = .add now ms what ∧ e.when = now.from ms := by
  cases op with
  | add now ms what =>
      change e ∈ putInOrder _ schedq at he
      rw [putInOrder_eq, mem_insertAfter] at he
      rcases he with rfl | he
      · exact Or.inr ⟨now, ms, what, rfl, rfl⟩
      · exact Or.inl ⟨e, he, rfl⟩
  | get tv =>
      refine Or.inl ⟨e, ?_, rfl⟩
      unfold SchedOp.apply at he
      dsimp only at he
      have hrest : ∀ l : List (Entry α), ∀ x, iaxGetSched tv l = some x → ∀ e ∈ x.2, e ∈ l := by
        intro l
        induction l with
        | nil => exact fun x hx => absurd hx (Option.some_ne_none x).symm
        | cons cur l ih =>
            intro x hx e he
            rw [iaxGetSched] at hx
            split_ifs at hx with hdue
            · obtain rfl := Option.some.inj hx
              exact List.mem_cons_of_mem cur he
            · exact List.mem_cons_of_mem cur (ih x hx e he)
      cases hget : iaxGetSched tv schedq with
      | none => rw [hget] at he; exact he
      | some x => rw [hget] at he; exact hrest schedq x hget e he
  | del what =>
      change e ∈ (iaxSchedDel what true schedq).2 at he
      rw [iaxSchedDel_all] at he
      exact Or.inl ⟨e, List.mem_of_mem_filter he, rfl⟩
  | purge gone => exact Or.inl ⟨e, List.mem_of_mem_filter he, rfl⟩
  | mark f =>
      obtain ⟨e₀, he₀, rfl⟩ := List.mem_map.mp he
      exact Or.inl ⟨e₀, he₀, rfl⟩

/-- Every time in the schedule is one that was asked for. -/
theorem when_runOps [DecidableEq α] (ops : List (SchedOp α))
    (he : e ∈ (runOps SchedOp.apply schedq ops).2) :
    (∃ e₀ ∈ schedq, e.when = e₀.when) ∨
      ∃ now ms what, .add now ms what ∈ ops ∧ e.when = now.from ms := by
  induction ops generalizing schedq with
  | nil => exact Or.inl ⟨e, he, rfl⟩
  | cons op ops ih =>
      rcases ih he with ⟨e₁, he₁, hwhen⟩ | ⟨now, ms, what, hmem, hwhen⟩
      · rcases when_apply op he₁ with ⟨e₀, he₀, hwhen₁⟩ | ⟨now, ms, what, rfl, hwhen₁⟩
        · exact Or.inl ⟨e₀, he₀, hwhen.trans hwhen₁⟩
        · exact Or.inr ⟨now, ms, what, List.mem_cons_self, hwhen.trans hwhen₁⟩
      · exact Or.inr ⟨now, ms, what, List.mem_cons_of_mem op hmem, hwhen⟩

/-- Two times no further apart than an `int` can say in milliseconds: about 24 days. -/
def TimeVal.InReach (t start : TimeVal) : Prop := (t.real - start.real).natAbs ≤ 2147483646000

instance (t start : TimeVal) : Decidable (t.InReach start) := inferInstanceAs (Decidable (_ ≤ _))

/-- The milliseconds between two times in reach are right to within one. -/
theorem TimeVal.msFrom_near {t start : TimeVal} (hreach : t.InReach start) :
    t.real - start.real - 1000 < t.msFrom start * 1000 ∧
      t.msFrom start * 1000 < t.real - start.real + 1000 := by
  have hnear : t.real - start.real - 1000 <
        ((t.sec - start.sec) * 1000 + (t.usec - start.usec).tdiv 1000) * 1000 ∧
      ((t.sec - start.sec) * 1000 + (t.usec - start.usec).tdiv 1000) * 1000 <
        t.real - start.real + 1000 := by
    unfold TimeVal.real
    rcases Int.le_total 0 (t.usec - start.usec) with hpos | hneg
    · rw [Int.tdiv_eq_ediv_of_nonneg hpos]
      omega
    · have hflip : (t.usec - start.usec).tdiv 1000 = -((start.usec - t.usec).tdiv 1000) := by
        rw [← Int.neg_tdiv, Int.neg_sub]
      rw [hflip, Int.tdiv_eq_ediv_of_nonneg (by omega)]
      omega
  unfold TimeVal.InReach at hreach
  unfold TimeVal.msFrom
  -- so the `int` holds what the `long` does
  generalize (t.sec - start.sec) * 1000 + (t.usec - start.usec).tdiv 1000 = ms at hnear ⊢
  rw [Int.bmod_eq_of_le_mul_two (by omega) (by omega)]
  exact hnear

theorem Entry.msFrom_near {e : Entry α} {tv : TimeVal} (hreach : e.when.InReach tv) :
    e.when.real - tv.real - 1000 < e.msFrom tv * 1000 ∧
      e.msFrom tv * 1000 < e.when.real - tv.real + 1000 := TimeVal.msFrom_near hreach

/-- The loop of `iax_time_to_next_event` finds the smallest. -/
theorem foldl_min (g : Entry α → ℤ) (a : ℤ) (l : List (Entry α)) :
    let r := l.foldl (fun min cur => if g cur < min then g cur else min) a
    r ≤ a ∧ (∀ e ∈ l, r ≤ g e) ∧ (r = a ∨ ∃ e ∈ l, r = g e) := by
  induction l generalizing a with
  | nil => exact ⟨le_rfl, fun e he => absurd he List.not_mem_nil, Or.inl rfl⟩
  | cons cur l ih =>
      obtain ⟨hle, hall, hor⟩ := ih (if g cur < a then g cur else a)
      dsimp only at hle hall hor ⊢
      rw [List.foldl_cons]
      refine ⟨hle.trans (by split_ifs <;> omega), fun e he => ?_, ?_⟩
      · rcases List.mem_cons.mp he with rfl | he
        · exact hle.trans (by split_ifs <;> omega)
        · exact hall e he
      · rcases hor with hor | ⟨e, he, heq⟩
        · rw [hor]
          split_ifs
          · exact Or.inr ⟨cur, List.mem_cons_self, rfl⟩
          · exact Or.inl rfl
        · exact Or.inr ⟨e, List.mem_cons_of_mem cur he, heq⟩

/-- **How long to wait**: until the first entry is due, to within a millisecond, and not for more
than 999999999 of them. -/
theorem iaxTimeToNextEvent_near (hfirst : ∀ e' ∈ schedq, e.when.real ≤ e'.when.real)
    {tv : TimeVal} (hreach : ∀ e' ∈ e :: schedq, e'.when.InReach tv) :
    |iaxTimeToNextEvent tv (e :: schedq) * 1000 -
      max 0 (min (e.when.real - tv.real) 999999999000)| < 1000 := by
  unfold iaxTimeToNextEvent
  dsimp only
  rw [List.isEmpty_cons, if_neg Bool.false_ne_true]
  obtain ⟨hle, hall, hor⟩ := foldl_min (fun cur : Entry α => cur.msFrom tv) 999999999 (e :: schedq)
  generalize (e :: schedq).foldl
    (fun min cur => if cur.msFrom tv < min then cur.msFrom tv else min) 999999999 = r
    at hle hall hor
  have hnear := Entry.msFrom_near (hreach e List.mem_cons_self)
  have hfst := hall e List.mem_cons_self
  -- no entry is nearer than the first one
  have hlow : r = 999999999 ∨ e.when.real - tv.real - 1000 < r * 1000 := by
    refine hor.imp_right ?_
    rintro ⟨e', he', rfl⟩
    have hnear' := (Entry.msFrom_near (hreach e' he')).1
    have hle' : e.when.real ≤ e'.when.real := by
      rcases List.mem_cons.mp he' with rfl | he'
      · exact le_rfl
      · exact hfirst e' he'
    omega
  rw [abs_lt]
  split_ifs <;> omega

/-- **The schedule keeps time.** After any operations, with the times of a clock: when nothing comes
out, nothing is due; what comes out is due, and the earliest; and if every entry is in reach, the
time to wait is right to within a millisecond, up to 999999999 of them. Every time in the schedule
is one that was asked for. -/
theorem schedule_keeps_time [DecidableEq α] (ops : List (SchedOp α)) (hops : ∀ op ∈ ops, op.Timed)
    (tv : TimeVal) (htv : tv.Clock) :
    let schedq := (runOps SchedOp.apply [] ops).2
    (iaxGetSched tv schedq = none → ∀ e ∈ schedq, tv.real < e.when.real) ∧
    (∀ e rest, iaxGetSched tv schedq = some (e, rest) →
      schedq = e :: rest ∧ e.when.real ≤ tv.real ∧ ∀ e' ∈ rest, e.when.real ≤ e'.when.real) ∧
    (schedq = [] → iaxTimeToNextEvent tv schedq = -1) ∧
    ((∀ e ∈ schedq, e.when.InReach tv) → ∀ e rest, schedq = e :: rest →
      |iaxTimeToNextEvent tv schedq * 1000 -
        max 0 (min (e.when.real - tv.real) 999999999000)| < 1000) ∧
    ∀ e ∈ schedq, ∃ now ms what, .add now ms what ∈ ops ∧
      e.when.real = now.real + ms * 1000 := by
  intro schedq
  have hsorted : schedq.Pairwise (byKey Entry.key) :=
    (runOps_refines arranges_start ops).2.sorted
  have hasked : ∀ e ∈ schedq, e.when.Normal ∧
      ∃ now ms what, .add now ms what ∈ ops ∧ e.when.real = now.real + ms * 1000 := by
    intro e he
    rcases when_runOps ops he with ⟨e₀, he₀, -⟩ | ⟨now, ms, what, hmem, hwhen⟩
    · exact absurd he₀ List.not_mem_nil
    · obtain ⟨hclock, hms⟩ := hops _ hmem
      obtain ⟨hreal, hnormal⟩ := TimeVal.from_real hclock hms
      exact ⟨hwhen ▸ hnormal, now, ms, what, hmem, hwhen ▸ hreal⟩
  clear_value schedq
  cases schedq with
  | nil =>
      exact ⟨fun _ e he => absurd he List.not_mem_nil,
        fun e rest h => absurd h (Option.some_ne_none _).symm, fun _ => rfl,
        fun _ e rest h => absurd h (List.cons_ne_nil e rest).symm,
        fun e he => absurd he List.not_mem_nil⟩
  | cons cur rest =>
      have hfirst : ∀ e ∈ rest, cur.when.real ≤ e.when.real := fun e he =>
        TimeVal.real_le_of_key_le (hasked cur List.mem_cons_self).1
          (hasked e (List.mem_cons_of_mem cur he)).1 ((List.pairwise_cons.mp hsorted).1 e he)
      have hdue := Entry.due_iff_real (hasked cur List.mem_cons_self).1 htv
      rw [iaxGetSched_cons hsorted]
      refine ⟨fun hnone e he => ?_, fun e rest' hsome => ?_,
        fun h => absurd h (List.cons_ne_nil _ _), fun hreach e rest' h => ?_,
        fun e he => (hasked e he).2⟩
      · split_ifs at hnone with hnot
        rw [hdue, not_le] at hnot
        rcases List.mem_cons.mp he with rfl | he
        · exact hnot
        · exact hnot.trans_le (hfirst e he)
      · split_ifs at hsome with hd
        obtain ⟨rfl, rfl⟩ := Prod.mk.inj (Option.some.inj hsome)
        exact ⟨rfl, hdue.mp hd, hfirst⟩
      · obtain ⟨rfl, rfl⟩ := List.cons.inj h
        exact iaxTimeToNextEvent_near hfirst hreach

/-- Two entries for the same time, and one for an earlier. -/
def threeOps : List (SchedOp ℕ) :=
  [.add ⟨7, 999000⟩ 1 0, .add ⟨7, 900000⟩ 101 1, .add ⟨7, 500000⟩ 20 2]

theorem schedule_keeps_time_three :
    (runOps SchedOp.apply [] threeOps).2.map Entry.what = [2, 0, 1] ∧
      |iaxTimeToNextEvent ⟨7, 500000⟩ (runOps SchedOp.apply [] threeOps).2 * 1000 - 20000| < 1000 :=
  ⟨by decide,
    (schedule_keeps_time threeOps (by decide) ⟨7, 500000⟩ (by decide)).2.2.2.1 (by decide) _ _ rfl⟩

end Clock

/-! ## What a session sees -/

section View

/-- An entry of the schedule: an event or a frame of a session, or a function with its argument. -/
inductive Item
  | event (session id : ℕ)
  | frame (session : ℕ) (q : Scheduled)
  | func (f arg : ℕ)
deriving DecidableEq

/-- A frame of the session. -/
def Item.frameOf (i : ℕ) : Item → Option Scheduled
  | .frame session q => if session = i then some q else none
  | _ => none

/-- The frames of a session in the schedule. -/
def framesOf (i : ℕ) (schedq : List (Entry Item)) : List Scheduled :=
  schedq.filterMap fun cur => cur.what.frameOf i

/-- The branch of `iax_get_event` for a frame that came out of the schedule: what remains of it. -/
def afterFrame (now : TimeVal) (session : ℕ) (q : Scheduled) (schedq : List (Entry Item)) :
    List (Entry Item) :=
  if q.retries ≤ 0 then schedq
  else iaxSchedAdd now q.again.retrytime (.frame session q.again) schedq

/-- The inner loop of the implicit acknowledgement: the frames of the session with the number. -/
def Item.cancel (i x : ℕ) : Item → Item
  | .frame session q =>
      .frame session (if session = i ∧ q.frame.oseqno = x then { q with retries := -1 } else q)
  | what => what

variable {i session : ℕ} {q : Scheduled} {schedq : List (Entry Item)}

/-- A frame added stands somewhere among the frames of its session, and the others do not see it. -/
theorem framesOf_iaxSchedAdd (now : TimeVal) (ms : ℤ) (i session : ℕ) (q : Scheduled)
    (schedq : List (Entry Item)) :
    ∃ place, framesOf i (iaxSchedAdd now ms (.frame session q) schedq) =
      if session = i then placeAt place q (framesOf i schedq) else framesOf i schedq := by
  unfold iaxSchedAdd
  rw [putInOrder_eq, insertAfter_eq_append]
  generalize hsched : (⟨now.from ms, .frame session q⟩ : Entry Item) = sched
  have hsplit := List.takeWhile_append_dropWhile (l := schedq)
    (p := fun b => byKey Entry.key b sched)
  generalize schedq.takeWhile (fun b => byKey Entry.key b sched) = front at hsplit ⊢
  generalize schedq.dropWhile (fun b => byKey Entry.key b sched) = back at hsplit ⊢
  refine ⟨(framesOf i front).length, ?_⟩
  rw [← hsplit, ← hsched]
  unfold framesOf placeAt
  rw [List.filterMap_append, List.filterMap_append, List.filterMap_cons]
  dsimp only [Item.frameOf]
  split_ifs
  · rw [List.take_left, List.drop_left]
  · rfl

/-- A frame that comes out is the first of its session, and the others do not see it. -/
theorem framesOf_cons (when : TimeVal) (i session : ℕ) (q : Scheduled)
    (schedq : List (Entry Item)) :
    framesOf i (⟨when, .frame session q⟩ :: schedq) =
      if session = i then q :: framesOf i schedq else framesOf i schedq := by
  unfold framesOf
  rw [List.filterMap_cons]
  dsimp only [Item.frameOf]
  split_ifs <;> rfl

/-- Cancelling a number of a session. -/
theorem framesOf_cancel (i session x : ℕ) (schedq : List (Entry Item)) :
    framesOf i (schedq.map fun cur => { cur with what := cur.what.cancel session x }) =
      if session = i then cancel x (framesOf i schedq) else framesOf i schedq := by
  induction schedq with
  | nil => split_ifs <;> rfl
  | cons cur schedq ih =>
      obtain ⟨when, what⟩ := cur
      unfold framesOf at ih ⊢
      rw [List.map_cons, List.filterMap_cons, ih, List.filterMap_cons]
      cases what with
      | event j id => split_ifs <;> rfl
      | func f arg => split_ifs <;> rfl
      | frame j q =>
          dsimp only [Item.cancel, Item.frameOf]
          by_cases hj : j = i
          · rw [if_pos hj]
            split_ifs <;> simp_all [cancel]
          · rw [if_neg hj]
            split_ifs <;> rfl

/-- **A session sees its own schedule.** Whatever has been done with the schedule all sessions
share: a frame put into it is put somewhere among the frames of its session; a frame that comes out
is the first of its session, and goes as in `iaxTimer`; a number acknowledged is cancelled; and no
other session sees any of it. -/
theorem session_sees_own_schedule (ops : List (SchedOp Item)) (i : ℕ) :
    let schedq := (runOps SchedOp.apply [] ops).2
    (∀ now ms session q, ∃ place,
      framesOf i (iaxSchedAdd now ms (.frame session q) schedq) =
        if session = i then placeAt place q (framesOf i schedq) else framesOf i schedq) ∧
    (∀ tv e rest session q now, iaxGetSched tv schedq = some (e, rest) →
      e.what = .frame session q → ∃ place, ∀ s : Session, s.schedq = framesOf i schedq →
        framesOf i (afterFrame now session q rest) =
          if session = i then (iaxTimer s 0 place).1.schedq else s.schedq) ∧
    ∀ session x, framesOf i (schedq.map fun cur => { cur with what := cur.what.cancel session x }) =
      if session = i then cancel x (framesOf i schedq) else framesOf i schedq := by
  intro schedq
  have hsorted : schedq.Pairwise (byKey Entry.key) :=
    (runOps_refines arranges_start ops).2.sorted
  clear_value schedq
  refine ⟨fun now ms session q => framesOf_iaxSchedAdd now ms i session q schedq, ?_,
    fun session x => framesOf_cancel i session x schedq⟩
  intro tv e rest session q now hget hwhat
  cases schedq with
  | nil => exact absurd hget (Option.some_ne_none _).symm
  | cons cur schedq =>
      rw [iaxGetSched_cons hsorted] at hget
      split_ifs at hget with hdue
      obtain ⟨rfl, rfl⟩ := Prod.mk.inj (Option.some.inj hget)
      obtain ⟨when, what⟩ := cur
      dsimp only at hwhat
      subst hwhat
      obtain ⟨place, hadd⟩ :=
        framesOf_iaxSchedAdd now q.again.retrytime i session q.again schedq
      refine ⟨place, fun s hs => ?_⟩
      rw [framesOf_cons] at hs
      unfold afterFrame
      by_cases hi : session = i
      · rw [if_pos hi] at hs hadd ⊢
        have hfirst : s.schedq[0]? = some q := by rw [hs]; rfl
        have hrest : s.schedq.eraseIdx 0 = framesOf i schedq := by rw [hs]; rfl
        unfold iaxTimer
        rw [hfirst]
        dsimp only
        rw [hrest]
        split_ifs <;> first | rfl | exact hadd | omega
      · rw [if_neg hi] at hs hadd ⊢
        rw [hs]
        split_ifs
        · rfl
        · exact hadd

end View

end Fgcom.Iax
