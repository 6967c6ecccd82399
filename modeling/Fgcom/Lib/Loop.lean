import Mathlib.Data.List.Basic

/-! # Loops with a bound on their rounds

A loop is a body `body : σ → σ ⊕ ρ`: one round either goes on with a new state or leaves the loop
with a result.

* **`run body n s`** — at most `n` rounds from the state `s`: the result, or `none` when the loop
  has not been left by then.
* **`of_run`** — the rule for partial correctness: when every round in a state of the invariant
  keeps the invariant or leaves the loop with a good result, then every result is good.
* **`exists_run`** — the rule for total correctness: when every round in a state of the invariant
  keeps the invariant and lowers a measure, or leaves the loop with a good result, then the loop is
  left within as many rounds as the measure says, with a good result. -/

namespace Loop

variable {σ ρ : Type*}

/-- At most `n` rounds of a loop. -/
def run (body : σ → σ ⊕ ρ) : ℕ → σ → Option ρ
  | 0, _ => none
  | n + 1, s =>
      match body s with
      | .inl s' => run body n s'
      | .inr r => some r

variable {body : σ → σ ⊕ ρ} {s s' : σ} {r : ρ}

/-- A round that goes on. -/
theorem run_succ_of_inl (n : ℕ) (h : body s = .inl s') : run body (n + 1) s = run body n s' := by
  rw [run, h]

/-- A round that leaves the loop. -/
theorem run_succ_of_inr (n : ℕ) (h : body s = .inr r) : run body (n + 1) s = some r := by
  rw [run, h]

/-- **The rule for partial correctness**: whatever is left comes from a state of the invariant. -/
theorem of_run {inv : σ → Prop} {post : ρ → Prop}
    (hround : ∀ s, inv s → Sum.elim inv post (body s)) (hs : inv s) {n : ℕ}
    (h : run body n s = some r) : post r := by
  induction n generalizing s with
  | zero => exact absurd h (by simp [run])
  | succ n ih =>
      have hgood := hround s hs
      cases hbody : body s with
      | inl s' =>
          rw [hbody] at hgood
          rw [run_succ_of_inl n hbody] at h
          exact ih hgood h
      | inr r' =>
          rw [hbody] at hgood
          rw [run_succ_of_inr n hbody] at h
          exact Option.some.inj h ▸ hgood

/-- What a round has to do for a loop to end well: keep the invariant and lower the measure, or
leave with a good result. -/
def Good (inv : σ → Prop) (measure : σ → ℕ) (post : ρ → Prop) (s : σ) : σ ⊕ ρ → Prop
  | .inl s' => inv s' ∧ measure s' < measure s
  | .inr r => post r

/-- **The rule for total correctness.** -/
theorem exists_run {inv : σ → Prop} {measure : σ → ℕ} {post : ρ → Prop}
    (hround : ∀ s, inv s → Good inv measure post s (body s)) (hs : inv s) {n : ℕ}
    (hn : measure s < n) : ∃ r, run body n s = some r ∧ post r := by
  induction n generalizing s with
  | zero => exact absurd hn (Nat.not_lt_zero _)
  | succ n ih =>
      have hgood := hround s hs
      cases hbody : body s with
      | inl s' =>
          rw [hbody] at hgood
          obtain ⟨hs', hless⟩ := hgood
          rw [run_succ_of_inl n hbody]
          exact ih hs' (by omega)
      | inr r =>
          rw [hbody] at hgood
          exact ⟨r, run_succ_of_inr n hbody, hgood⟩

end Loop
