import Mathlib.Data.Nat.ModEq
import Mathlib.Tactic.SplitIfs

/-! # Sequence numbers that wrap

Numbers that count on are sent modulo `M`. As long as two of them are less than `M` apart, their
residues tell them apart, and the way from one residue to the other round the circle is their
difference.

* **`ahead M a b`** — the steps from `a` up to `b` round the circle.
* **`seek`**, **`between`** — the two loops that walk round the circle up to a stop: looking for a
  number, and visiting every number on the way.
* **`ahead_mod`**, **`ahead_mod_le_iff`** — what they say of the numbers that count on. -/

namespace SequenceNumbers

variable (M : ℕ)

/-- The steps from `a` up to `b`, round the circle. -/
def ahead (a b : ℕ) : ℕ := (b + (M - a)) % M

/-- `for (x = a; x != stop; x++) if (target == x) break;`, the value of `x` after it. -/
def seek (stop target : ℕ) : ℕ → ℕ → ℕ
  | 0, x => x
  | fuel + 1, x =>
      if x = stop then x else if target = x then x else seek stop target fuel ((x + 1) % M)

/-- `for (x = a; x != stop; x++)`, the values of `x` the body sees. -/
def between (stop : ℕ) : ℕ → ℕ → List ℕ
  | 0, _ => []
  | fuel + 1, x => if x = stop then [] else x :: between stop fuel ((x + 1) % M)

variable {M} {a b x stop target fuel : ℕ}

/-! ## Round the circle -/

theorem ahead_of_lt (ha : a < M) (hb : b < M) :
    ahead M a b = if a ≤ b then b - a else b + M - a := by
  unfold ahead
  split_ifs with hab
  · have hsum : b + (M - a) = b - a + M := by omega
    rw [hsum, Nat.add_mod_right, Nat.mod_eq_of_lt (by omega)]
  · rw [Nat.mod_eq_of_lt (by omega)]
    omega

theorem ahead_self (ha : a < M) : ahead M a a = 0 := by
  rw [ahead_of_lt ha ha, if_pos le_rfl, Nat.sub_self]

theorem ahead_lt (ha : a < M) (hb : b < M) : ahead M a b < M := by
  rw [ahead_of_lt ha hb]
  split_ifs <;> omega

theorem ahead_eq_zero (ha : a < M) (hb : b < M) : ahead M a b = 0 ↔ a = b := by
  rw [ahead_of_lt ha hb]
  split_ifs <;> omega

theorem succ_mod (hx : x < M) : (x + 1) % M = if x + 1 = M then 0 else x + 1 := by
  split_ifs with h
  · rw [h, Nat.mod_self]
  · exact Nat.mod_eq_of_lt (by omega)

/-- One step on, everything but the place left is one step nearer. -/
theorem ahead_succ (hx : x < M) (hb : b < M) (hne : x ≠ b) :
    ahead M ((x + 1) % M) b + 1 = ahead M x b := by
  have hlt : (x + 1) % M < M := Nat.mod_lt _ (by omega)
  rw [ahead_of_lt hlt hb, ahead_of_lt hx hb, succ_mod hx]
  split_ifs <;> omega

/-- A goal one step on is at most one step farther. -/
theorem ahead_succ_right_le (ha : a < M) (hb : b < M) :
    ahead M a ((b + 1) % M) ≤ ahead M a b + 1 := by
  have hlt : (b + 1) % M < M := Nat.mod_lt _ (by omega)
  rw [ahead_of_lt ha hlt, ahead_of_lt ha hb, succ_mod hb]
  split_ifs <;> omega

/-- **Looking for a number** on the way to a stop finds it if it is not behind the stop. -/
theorem seek_eq (hx : x < M) (hstop : stop < M) (htarget : target < M)
    (hfuel : ahead M x stop ≤ fuel) :
    seek M stop target fuel x = if ahead M x target ≤ ahead M x stop then target else stop := by
  induction fuel generalizing x with
  | zero =>
      have h0 := Nat.le_zero.mp hfuel
      have hxs := (ahead_eq_zero hx hstop).mp h0
      rw [seek, h0]
      split_ifs with ht
      · exact (ahead_eq_zero hx htarget).mp (Nat.le_zero.mp ht)
      · exact hxs
  | succ fuel ih =>
      rw [seek]
      by_cases hxs : x = stop
      · rw [if_pos hxs, ← hxs, ahead_self hx]
        split_ifs with ht
        · exact (ahead_eq_zero hx htarget).mp (Nat.le_zero.mp ht)
        · rfl
      · rw [if_neg hxs]
        by_cases hxt : target = x
        · rw [if_pos hxt, hxt, ahead_self hx, if_pos (Nat.zero_le _)]
        · have hs := ahead_succ hx hstop hxs
          have ht := ahead_succ hx htarget (Ne.symm hxt)
          have hlt : (x + 1) % M < M := Nat.mod_lt _ (by omega)
          rw [if_neg hxt, ih hlt (by omega)]
          refine if_congr ?_ rfl rfl
          omega

/-- The test after the search: the number was met, or it is the stop itself. -/
theorem seek_found_iff (hx : x < M) (hstop : stop < M) (htarget : target < M)
    (hfuel : ahead M x stop ≤ fuel) :
    seek M stop target fuel x ≠ stop ∨ stop = target ↔ ahead M x target ≤ ahead M x stop := by
  rw [seek_eq hx hstop htarget hfuel]
  split_ifs with h
  · refine iff_of_true ?_ h
    exact (ne_or_eq target stop).imp_right Eq.symm
  · refine iff_of_false (not_or.mpr ⟨fun hne => hne rfl, fun heq => h ?_⟩) h
    rw [heq]

/-- **The numbers visited** on the way to a stop are those in front of it. -/
theorem mem_between (hx : x < M) (hstop : stop < M) (hfuel : ahead M x stop ≤ fuel) :
    b ∈ between M stop fuel x ↔ b < M ∧ ahead M x b < ahead M x stop := by
  induction fuel generalizing x with
  | zero =>
      rw [between, Nat.le_zero.mp hfuel]
      exact iff_of_false List.not_mem_nil fun h => Nat.not_lt_zero _ h.2
  | succ fuel ih =>
      rw [between]
      by_cases hxs : x = stop
      · rw [if_pos hxs, hxs, ahead_self hstop]
        exact iff_of_false List.not_mem_nil fun h => Nat.not_lt_zero _ h.2
      · have hs := ahead_succ hx hstop hxs
        have hlt : (x + 1) % M < M := Nat.mod_lt _ (by omega)
        rw [if_neg hxs, List.mem_cons, ih hlt (by omega)]
        by_cases hbx : b = x
        · subst hbx
          rw [ahead_self hx]
          exact iff_of_true (Or.inl rfl) ⟨hx, by omega⟩
        · refine ⟨fun h => ?_, fun h => Or.inr ⟨h.1, ?_⟩⟩
          · obtain ⟨hb, hlt'⟩ := h.resolve_left hbx
            have ht := ahead_succ hx hb (Ne.symm hbx)
            exact ⟨hb, by omega⟩
          · have ht := ahead_succ hx h.1 (Ne.symm hbx)
            omega

/-! ## Numbers that count on -/

variable {m n : ℕ}

/-- **Close numbers** are told apart by their residues. -/
theorem eq_of_mod_eq (h : m % M = n % M) (hmn : m < n + M) (hnm : n < m + M) : m = n := by
  rcases Nat.le_total m n with hle | hle
  · have hdvd : M ∣ n - m := (Nat.modEq_iff_dvd' hle).mp h
    have hzero := Nat.eq_zero_of_dvd_of_lt hdvd (by omega)
    omega
  · have hdvd : M ∣ m - n := (Nat.modEq_iff_dvd' hle).mp h.symm
    have hzero := Nat.eq_zero_of_dvd_of_lt hdvd (by omega)
    omega

/-- **The way round the circle** is the difference. -/
theorem ahead_mod (hmn : m ≤ n) (hnm : n < m + M) : ahead M (m % M) (n % M) = n - m := by
  have hM : 0 < M := by omega
  have hlt : m % M < M := Nat.mod_lt m hM
  have hsum : n % M = (m % M + (n - m)) % M := by
    rw [Nat.mod_add_mod]
    congr 1
    omega
  unfold ahead
  rw [hsum, Nat.mod_add_mod]
  have hround : m % M + (n - m) + (M - m % M) = n - m + M := by omega
  rw [hround, Nat.add_mod_right, Nat.mod_eq_of_lt (by omega)]

/-- **Whether a number is in the window** from `k` to `n` its residue tells, if it is neither too
old nor yet to come. -/
theorem ahead_mod_le_iff {k : ℕ} (hkn : k ≤ n) (hnk : n < k + M) (hmn : m ≤ n) (hnm : n < m + M) :
    ahead M (k % M) (m % M) ≤ ahead M (k % M) (n % M) ↔ k ≤ m := by
  rw [ahead_mod hkn hnk]
  by_cases hkm : k ≤ m
  · rw [ahead_mod hkm (by omega)]
    omega
  · have hback : ahead M (k % M) (m % M) = m + M - k := by
      rw [← Nat.add_mod_right m M]
      exact ahead_mod (by omega) (by omega)
    rw [hback]
    omega

end SequenceNumbers
