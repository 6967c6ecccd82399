import Mathlib.Data.List.Basic

/-! # Runs of a partial event system

A system is a step function `step : σ → ε → Option σ`: an event either moves the state on or, with
`none`, ends the run (the program has left its defined behaviour). A *run* is a list of events fired
from a start state. Three readings of one run are used:

* **`transitions step s es`** — the triples `(before, event, after)` of the steps that were taken;
* **`trail step s es`** — the states visited, the start included;
* **`StepsMeet step ok s es`** — every step taken or attempted meets the condition `ok`, a predicate
  on the state *before* the step and the event.

`transitions_invariant` and `trail_invariant` are the induction rules: an invariant kept by every
step that meets `ok` holds along every run whose steps all meet `ok`. -/

namespace EventRun

variable {σ ε : Type*}

/-- The steps a run takes, in order, up to the first event the system refuses. -/
def transitions (step : σ → ε → Option σ) : σ → List ε → List (σ × ε × σ)
  | _, [] => []
  | s, e :: es =>
      match step s e with
      | none => []
      | some t => (s, e, t) :: transitions step t es

/-- The states a run visits: the start and the state after each step taken. -/
def trail (step : σ → ε → Option σ) (s : σ) (es : List ε) : List σ :=
  s :: (transitions step s es).map fun t => t.2.2

/-- Every step of the run meets `ok` in the state it starts from. -/
def StepsMeet (step : σ → ε → Option σ) (ok : σ → ε → Prop) : σ → List ε → Prop
  | _, [] => True
  | s, e :: es =>
      ok s e ∧
        match step s e with
        | none => True
        | some t => StepsMeet step ok t es

instance StepsMeet.decidable (step : σ → ε → Option σ) (ok : σ → ε → Prop)
    [∀ s e, Decidable (ok s e)] : ∀ s es, Decidable (StepsMeet step ok s es)
  | _, [] => isTrue trivial
  | s, e :: es =>
      match h : step s e with
      | none => decidable_of_iff (ok s e) (by simp [StepsMeet, h])
      | some t =>
          have := StepsMeet.decidable step ok t es
          decidable_of_iff (ok s e ∧ StepsMeet step ok t es) (by simp [StepsMeet, h])

variable {step : σ → ε → Option σ} {ok : σ → ε → Prop}

@[simp] theorem transitions_nil (s : σ) : transitions step s ([] : List ε) = [] := rfl

/-- An accepted event puts its triple in front of the rest of the run. -/
theorem transitions_cons_some {s t : σ} {e : ε} (es : List ε) (h : step s e = some t) :
    transitions step s (e :: es) = (s, e, t) :: transitions step t es := by
  rw [transitions, h]

/-- A refused event ends the run. -/
theorem transitions_cons_none {s : σ} {e : ε} (es : List ε) (h : step s e = none) :
    transitions step s (e :: es) = [] := by
  rw [transitions, h]

/-- The head of a conditioned run meets the condition, and so does the run after it. -/
theorem StepsMeet.cons_some {s t : σ} {e : ε} {es : List ε}
    (hmeet : StepsMeet step ok s (e :: es)) (h : step s e = some t) :
    ok s e ∧ StepsMeet step ok t es := by
  simpa [StepsMeet, h] using hmeet

/-- **The invariant rule on steps.** An invariant of the start that every conditioned step keeps
holds before and after each step of a conditioned run, and each of those steps met the condition. -/
theorem transitions_invariant {Inv : σ → Prop}
    (hstep : ∀ s e t, Inv s → ok s e → step s e = some t → Inv t)
    {s : σ} {es : List ε} (hs : Inv s) (hmeet : StepsMeet step ok s es) :
    ∀ x ∈ transitions step s es,
      Inv x.1 ∧ ok x.1 x.2.1 ∧ step x.1 x.2.1 = some x.2.2 ∧ Inv x.2.2 := by
  induction es generalizing s with
  | nil => simp
  | cons e es ih =>
      cases h : step s e with
      | none => simp [transitions_cons_none es h]
      | some t =>
          obtain ⟨hok, hrest⟩ := hmeet.cons_some h
          have ht : Inv t := hstep s e t hs hok h
          rw [transitions_cons_some es h]
          intro x hx
          rcases List.mem_cons.mp hx with rfl | hx
          · exact ⟨hs, hok, h, ht⟩
          · exact ih ht hrest x hx

/-- **The invariant rule on states.** An invariant of the start that every conditioned step keeps
holds in every state a conditioned run visits. -/
theorem trail_invariant {Inv : σ → Prop}
    (hstep : ∀ s e t, Inv s → ok s e → step s e = some t → Inv t)
    {s : σ} {es : List ε} (hs : Inv s) (hmeet : StepsMeet step ok s es) :
    ∀ t ∈ trail step s es, Inv t := by
  intro t ht
  rcases List.mem_cons.mp ht with rfl | ht
  · exact hs
  · obtain ⟨x, hx, rfl⟩ := List.mem_map.mp ht
    exact (transitions_invariant hstep hs hmeet x hx).2.2.2

/-- The states a run visits after its first step. -/
theorem trail_cons_some {s t : σ} {e : ε} (es : List ε) (h : step s e = some t) :
    trail step s (e :: es) = s :: trail step t es := by
  rw [trail, transitions_cons_some es h, List.map_cons, trail]

/-- **The rule without a condition.** An invariant of the start that every step keeps holds in every
state a run visits. -/
theorem trail_forall {Inv : σ → Prop} (hstep : ∀ s e t, Inv s → step s e = some t → Inv t)
    {s : σ} {es : List ε} (hs : Inv s) : ∀ t ∈ trail step s es, Inv t := by
  have hmeet : StepsMeet step (fun _ _ => True) s es := by
    clear hs
    induction es generalizing s with
    | nil => trivial
    | cons e es ih =>
        refine ⟨trivial, ?_⟩
        cases step s e with
        | none => trivial
        | some t => exact ih
  exact trail_invariant (fun s e t h _ => hstep s e t h) hs hmeet

/-- **The rule for conditions.** Along a conditioned run that keeps an invariant, every step taken
or attempted meets whatever invariant and condition give together. -/
theorem StepsMeet.of_invariant {Inv : σ → Prop} {ok' : σ → ε → Prop}
    (hstep : ∀ s e t, Inv s → ok s e → step s e = some t → Inv t)
    (hgive : ∀ s e, Inv s → ok s e → ok' s e)
    {s : σ} {es : List ε} (hs : Inv s) (hmeet : StepsMeet step ok s es) :
    StepsMeet step ok' s es := by
  induction es generalizing s with
  | nil => trivial
  | cons e es ih =>
      obtain ⟨hok, hrest⟩ := hmeet
      refine ⟨hgive s e hs hok, ?_⟩
      cases h : step s e with
      | none => trivial
      | some t =>
          rw [h] at hrest
          exact ih (hstep s e t hs hok h) hrest

end EventRun
