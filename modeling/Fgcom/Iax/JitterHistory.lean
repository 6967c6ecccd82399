import Mathlib.Algebra.Order.Group.Int
import Mathlib.Data.Fin.Basic
import Fgcom.Lib.StableInsert

/-! # The delay history of the jitter buffer

The jitter buffer measures the jitter on the delays of the last 500 voice frames: the difference
between the largest and the smallest of them, once 3 in 100 are left out at either end.

* **`History`** — the code's: a ring of 500 delays, and two sorted buffers of the 20 largest and the
  20 smallest that are recomputed only when a new delay or the one it overwrites may change them
  (`history_put`, `history_calc_maxbuf`, `history_get`).
* **`List ℤ`** — the plain one: all delays since the last restart, sorted again for every report.

Both are a `DelayHistory`. `History.Holds` says that the first stands for the second; restarting,
recording and reporting keep it, and the reports are the same. -/

namespace Fgcom.Jitter

open StableInsert

/-! ## The code's history -/

/-- `JB_HISTORY_SZ`. -/
def historySz : ℕ := 500

/-- `JB_HISTORY_DROPPCT`. -/
def historyDroppct : ℕ := 3

/-- `JB_HISTORY_MAXBUF_SZ`, `JB_HISTORY_SZ * JB_HISTORY_DROPPCT_MAX / 100`. -/
def historyMaxbufSz : ℕ := historySz * 4 / 100

/-- `JB_LONGMAX`. -/
def longmax : ℤ := 2147483647

/-- `JB_LONGMIN`. -/
def longmin : ℤ := -longmax - 1

/-- What the jitter buffer asks of a history of delays: forget everything, record a delay, and
report the smallest delay and the jitter. -/
class DelayHistory (η : Type*) where
  restart : η → η
  record : η → ℤ → η
  report : η → η × ℤ × ℤ

/-- The history of a `jitterbuf`. `hist_ptr` counts on; the cell it points to is its remainder. -/
structure History where
  history : Fin historySz → ℤ
  histPtr : ℕ
  histMaxbuf : List ℤ
  histMinbuf : List ℤ
  histMaxbufValid : Bool

/-- The history after `memset`. -/
def History.zero : History where
  history := fun _ => 0
  histPtr := 0
  histMaxbuf := List.replicate historyMaxbufSz 0
  histMinbuf := List.replicate historyMaxbufSz 0
  histMaxbufValid := false

/-- The cell of an index. -/
def cell (i : ℕ) : Fin historySz := ⟨i % historySz, Nat.mod_lt i (by decide)⟩

/-- The last entry of a sorted buffer. -/
def lastOf (buf : List ℤ) : ℤ := buf.getD (historyMaxbufSz - 1) 0

namespace History

/-- The last lines of `history_put`: the delay overwrites the oldest one, and the sorted buffers
stay valid only if neither of the two can stand in them. -/
def record (h : History) (delay : ℤ) : History :=
  let kicked := h.history (cell h.histPtr)
  let h' := { h with
    history := Function.update h.history (cell h.histPtr) delay
    histPtr := h.histPtr + 1 }
  if h.histMaxbufValid = false then h'
  else if h'.histPtr < historySz then { h' with histMaxbufValid := false }
  else if delay < lastOf h.histMinbuf then { h' with histMaxbufValid := false }
  else if delay > lastOf h.histMaxbuf then { h' with histMaxbufValid := false }
  else if kicked ≤ lastOf h.histMinbuf then { h' with histMaxbufValid := false }
  else if kicked ≥ lastOf h.histMaxbuf then { h' with histMaxbufValid := false }
  else h'

/-- The resynchronisation in `history_put`. -/
def restart (h : History) : History := { h with histPtr := 0, histMaxbufValid := false }

end History

section Sorted

variable (before : ℤ → ℤ → Prop) [DecidableRel before]

/-- The loop over `j` of `history_calc_maxbuf`: `memmove` and insertion at the first entry `toins`
comes before. -/
def insertSorted (toins : ℤ) : List ℤ → List ℤ
  | [] => []
  | b :: buf =>
      if before toins b then toins :: (b :: buf).dropLast else b :: insertSorted toins buf

/-- One delay of `history_calc_maxbuf` for one of the buffers. -/
def offer (buf : List ℤ) (toins : ℤ) : List ℤ :=
  if before toins (lastOf buf) then insertSorted before toins buf else buf

end Sorted

namespace History

/-- The delays the history covers, oldest first. -/
def covered (h : History) : List ℤ :=
  let start := if h.histPtr > historySz then h.histPtr - historySz else 0
  (List.range' start (h.histPtr - start)).map fun i => h.history (cell i)

/-- `history_calc_maxbuf`. -/
def historyCalcMaxbuf (h : History) : History :=
  if h.histPtr = 0 then h
  else
    { h with
      histMaxbuf := h.covered.foldl (offer (· > ·)) (List.replicate historyMaxbufSz longmin)
      histMinbuf := h.covered.foldl (offer (· < ·)) (List.replicate historyMaxbufSz longmax)
      histMaxbufValid := true }

/-- `history_get`: the history with its buffers valid, `min` and `jitter`. The test for a negative
index of the code is never met. -/
def report (h : History) : History × ℤ × ℤ :=
  let h := if h.histMaxbufValid = false then h.historyCalcMaxbuf else h
  let count := if h.histPtr < historySz then h.histPtr else historySz
  let index := count * historyDroppct / 100
  let index := if index > historyMaxbufSz - 1 then historyMaxbufSz - 1 else index
  let max := h.histMaxbuf.getD index 0
  let min := h.histMinbuf.getD index 0
  (h, min, max - min)

instance : DelayHistory History := ⟨restart, record, report⟩

end History

/-! ## The plain history -/

/-- The last 500 delays. -/
def window (log : List ℤ) : List ℤ := log.drop (log.length - historySz)

/-- The report on all delays recorded: with the outliers left out, the smallest delay, and how far
the largest is above it. -/
def plainReport (log : List ℤ) : ℤ × ℤ :=
  if log = [] then (0, 0)
  else
    let w := window log
    let k := w.length * historyDroppct / 100
    let largest := max ((arrange (· ≥ ·) w).getD k 0) longmin
    let smallest := min ((arrange (· ≤ ·) w).getD k 0) longmax
    (smallest, largest - smallest)

instance : DelayHistory (List ℤ) :=
  ⟨fun _ => [], fun log delay => log ++ [delay], fun log => (log, plainReport log)⟩

/-! ## The sorted buffers -/

section Sorted

variable {before r : ℤ → ℤ → Prop} [DecidableRel before] [DecidableRel r]

/-- The inner loop keeps the first entries in the order it compares with. -/
theorem insertSorted_eq_keep (hb : ∀ x b, before x b ↔ ¬ r b x) (x : ℤ) (buf : List ℤ) :
    insertSorted before x buf = keep r x buf := by
  induction buf with
  | nil => rfl
  | cons b buf ih =>
      by_cases h : r b x
      · rw [insertSorted, if_neg (fun hx => (hb x b).mp hx h), ih, keep, keep,
          insertAfter_cons_of_rel r buf h, List.length_cons, List.take_succ_cons]
      · rw [insertSorted, if_pos ((hb x b).mpr h), keep, insertAfter_cons_of_not_rel r buf h,
          List.length_cons, List.take_succ_cons, List.dropLast_eq_take, List.length_cons,
          Nat.add_sub_cancel]

variable [Std.Total r] [IsTrans ℤ r]

omit [DecidableRel r] [IsTrans ℤ r] in
/-- In a sorted buffer nothing comes after the last entry. -/
theorem rel_lastOf {buf : List ℤ} (hlen : buf.length = historyMaxbufSz) (hs : buf.Pairwise r)
    {b : ℤ} (hb : b ∈ buf) : r b (lastOf buf) := by
  obtain ⟨i, hi, rfl⟩ := List.getElem_of_mem hb
  have hlast : historyMaxbufSz - 1 < buf.length := by
    rw [hlen]
    decide
  rw [lastOf, List.getD_eq_getElem _ _ hlast]
  have hle : i ≤ historyMaxbufSz - 1 := Nat.le_sub_one_of_lt (hlen ▸ hi)
  rcases Nat.lt_or_eq_of_le hle with h | h
  · exact List.pairwise_iff_getElem.mp hs i _ hi hlast h
  · subst h
    exact refl_of r _

/-- The test in front of the inner loop skips only what the loop would lose. -/
theorem offer_eq_keep (hb : ∀ x b, before x b ↔ ¬ r b x) {buf : List ℤ}
    (hlen : buf.length = historyMaxbufSz) (hs : buf.Pairwise r) (x : ℤ) :
    offer before buf x = keep r x buf := by
  by_cases h : r (lastOf buf) x
  · rw [offer, if_neg (fun hx => (hb x _).mp hx h)]
    exact (keep_of_rel r fun b hbm => trans_of r (rel_lastOf hlen hs hbm) h).symm
  · rw [offer, if_pos ((hb x _).mpr h), insertSorted_eq_keep hb]

variable [Std.Antisymm r]

/-- The loop over the delays leaves the first of them in the order. -/
theorem foldl_offer (hb : ∀ x b, before x b ↔ ¬ r b x) (pad : ℤ) (xs : List ℤ) :
    xs.foldl (offer before) (List.replicate historyMaxbufSz pad) =
      firsts r historyMaxbufSz pad xs := by
  induction xs using List.reverseRecOn with
  | nil => exact (firsts_nil r _ pad).symm
  | append_singleton xs x ih =>
      rw [List.foldl_append, ih, List.foldl_cons, List.foldl_nil, firsts_concat,
        offer_eq_keep hb (length_firsts r _ pad xs) (pairwise_firsts r _ pad xs)]

end Sorted

/-! ## The window -/

theorem length_window (log : List ℤ) : (window log).length = min log.length historySz := by
  rw [window, List.length_drop]
  omega

/-- Up to 500 delays all stay. -/
theorem window_concat_of_lt {log : List ℤ} (d : ℤ) (h : log.length < historySz) :
    window (log ++ [d]) = window log ++ [d] := by
  have hlen : (log ++ [d]).length - historySz = 0 := by
    rw [List.length_append, List.length_singleton]
    omega
  rw [window, window, hlen, Nat.sub_eq_zero_of_le h.le, List.drop_zero, List.drop_zero]

/-- From then on the oldest goes when a new one comes. -/
theorem window_slide {log : List ℤ} (d : ℤ) (h : historySz ≤ log.length) :
    ∃ rest, window log = log.getD (log.length - historySz) 0 :: rest ∧
      window (log ++ [d]) = rest ++ [d] := by
  have hpos : 0 < historySz := by decide
  have hlt : log.length - historySz < log.length := by omega
  refine ⟨log.drop (log.length - historySz + 1), ?_, ?_⟩
  · rw [window, List.drop_eq_getElem_cons hlt, List.getD_eq_getElem _ _ hlt]
  · have hlen : (log ++ [d]).length - historySz = log.length - historySz + 1 := by
      rw [List.length_append, List.length_singleton]
      omega
    rw [window, hlen, List.drop_append_of_le_length (by omega)]

/-! ## The code's history stands for the plain one -/

/-- The history holds the delays of a log, and what its buffers hold while they are valid. -/
structure History.Holds (h : History) (log : List ℤ) : Prop where
  ptr : h.histPtr = log.length
  ring : ∀ i, (hi : i < log.length) → log.length ≤ i + historySz → h.history (cell i) = log[i]
  maxbuf : h.histMaxbufValid = true →
    h.histMaxbuf = firsts (· ≥ ·) historyMaxbufSz longmin (window log)
  minbuf : h.histMaxbufValid = true →
    h.histMinbuf = firsts (· ≤ ·) historyMaxbufSz longmax (window log)
  start : log = [] → h.histMaxbufValid = false ∧
    h.histMaxbuf = List.replicate historyMaxbufSz 0 ∧
    h.histMinbuf = List.replicate historyMaxbufSz 0

namespace History

variable {h : History} {log : List ℤ}

theorem holds_zero : zero.Holds [] where
  ptr := rfl
  ring i hi := absurd hi (Nat.not_lt_zero i)
  maxbuf hv := absurd hv Bool.false_ne_true
  minbuf hv := absurd hv Bool.false_ne_true
  start _ := ⟨rfl, rfl, rfl⟩

/-- Two indices less than 500 apart have different cells. -/
theorem cell_ne {i j : ℕ} (hij : i < j) (hj : j < i + historySz) : cell i ≠ cell j := by
  intro h
  have hmod : i % historySz = j % historySz := congrArg Fin.val h
  have hsub : (j - i) % historySz = 0 := Nat.sub_mod_eq_zero_of_mod_eq hmod.symm
  rw [Nat.mod_eq_of_lt (by omega)] at hsub
  omega

theorem record_history (h : History) (d : ℤ) :
    (h.record d).history = Function.update h.history (cell h.histPtr) d := by
  unfold record
  dsimp only
  split_ifs <;> rfl

theorem record_histPtr (h : History) (d : ℤ) : (h.record d).histPtr = h.histPtr + 1 := by
  unfold record
  dsimp only
  split_ifs <;> rfl

/-- Where the buffers stay valid, they were valid and keep their entries, and neither the new delay
nor the one it overwrites can stand in them. -/
theorem record_valid {d : ℤ} (hv : (h.record d).histMaxbufValid = true) :
    h.histMaxbufValid = true ∧
      (h.record d).histMaxbuf = h.histMaxbuf ∧ (h.record d).histMinbuf = h.histMinbuf ∧
      lastOf h.histMinbuf ≤ d ∧ d ≤ lastOf h.histMaxbuf ∧
      lastOf h.histMinbuf < h.history (cell h.histPtr) ∧
      h.history (cell h.histPtr) < lastOf h.histMaxbuf := by
  unfold record at hv ⊢
  dsimp only at hv ⊢
  split_ifs at hv ⊢ with h1 h2 h3 h4 h5 h6
  · rw [h1] at hv
    exact absurd hv Bool.false_ne_true
  · exact ⟨hv, rfl, rfl, not_lt.mp h3, not_lt.mp h4, not_le.mp h5, not_le.mp h6⟩

/-- The ring after a delay is recorded. -/
theorem Holds.ring_record (hh : h.Holds log) (d : ℤ) (i : ℕ) (hi : i < (log ++ [d]).length)
    (hle : (log ++ [d]).length ≤ i + historySz) :
    (h.record d).history (cell i) = (log ++ [d])[i] := by
  rw [List.length_append, List.length_singleton] at hi hle
  rw [record_history, hh.ptr]
  rcases Nat.lt_or_eq_of_le (Nat.le_of_lt_succ hi) with hlt | rfl
  · rw [Function.update_of_ne (cell_ne hlt (by omega)), List.getElem_append_left hlt,
      hh.ring i hlt (by omega)]
  · rw [Function.update_self, List.getElem_concat_length rfl]

/-- A buffer that stays valid holds the first values of the window the delay comes into. -/
theorem firsts_window_record (hh : h.Holds log) {d : ℤ} {r : ℤ → ℤ → Prop} [DecidableRel r]
    [Std.Total r] [IsTrans ℤ r] [Std.Antisymm r] {pad : ℤ} {buf : List ℤ}
    (hbuf : buf = firsts r historyMaxbufSz pad (window log))
    (hd : r (lastOf buf) d)
    (hkicked : ¬ r (h.history (cell h.histPtr)) (lastOf buf)) :
    buf = firsts r historyMaxbufSz pad (window (log ++ [d])) := by
  have hlast : ∀ b ∈ buf, r b (lastOf buf) := fun b hb =>
    rel_lastOf (hbuf ▸ length_firsts r _ pad _) (hbuf ▸ pairwise_firsts r _ pad _) hb
  have hnew : ∀ b ∈ buf, r b d := fun b hb => trans_of r (hlast b hb) hd
  rcases Nat.lt_or_ge log.length historySz with hlt | hge
  · rw [window_concat_of_lt d hlt, firsts_concat, ← hbuf, keep_of_rel r hnew]
  · obtain ⟨rest, hold, hslide⟩ := window_slide d hge
    have hcell : h.history (cell h.histPtr) = log.getD (log.length - historySz) 0 := by
      have hpos : 0 < historySz := by decide
      have hlt : log.length - historySz < log.length := by omega
      rw [List.getD_eq_getElem _ _ hlt, ← hh.ring _ hlt (by omega), hh.ptr]
      refine congrArg h.history (Fin.ext ?_)
      change log.length % historySz = (log.length - historySz) % historySz
      rw [← Nat.sub_add_cancel hge, Nat.add_mod_right, Nat.add_sub_cancel]
    rw [hslide]
    rw [hold, ← hcell] at hbuf
    have hout : h.history (cell h.histPtr) ∉ buf := fun hm => hkicked (hlast _ hm)
    rw [hbuf] at hout hnew
    rw [firsts_slide r hout hnew, hbuf]

/-- **Recording** keeps the two histories together. -/
theorem Holds.record (hh : h.Holds log) (d : ℤ) : (h.record d).Holds (log ++ [d]) where
  ptr := by rw [record_histPtr, hh.ptr, List.length_append, List.length_singleton]
  ring := hh.ring_record d
  maxbuf hv := by
    obtain ⟨hvalid, hmax, -, -, hd, -, hk⟩ := record_valid hv
    rw [hmax]
    exact firsts_window_record hh (hh.maxbuf hvalid) hd (not_le.mpr hk)
  minbuf hv := by
    obtain ⟨hvalid, -, hmin, hd, -, hk, -⟩ := record_valid hv
    rw [hmin]
    exact firsts_window_record hh (hh.minbuf hvalid) hd (not_le.mpr hk)
  start hnil := absurd hnil (List.append_ne_nil_of_right_ne_nil log (List.cons_ne_nil d []))

/-- **Restarting** and recording the first delay. -/
theorem holds_restart_record (h : History) (d : ℤ) : (h.restart.record d).Holds [d] where
  ptr := by rw [record_histPtr]; rfl
  ring i hi hle := by
    obtain rfl : i = 0 := by simpa using hi
    rw [record_history]
    exact Function.update_self ..
  maxbuf hv := absurd (record_valid hv).1 Bool.false_ne_true
  minbuf hv := absurd (record_valid hv).1 Bool.false_ne_true
  start hnil := absurd hnil (List.cons_ne_nil d [])

/-- The delays the history covers are the window. -/
theorem Holds.covered (hh : h.Holds log) : h.covered = window log := by
  have hstart : (if h.histPtr > historySz then h.histPtr - historySz else 0) =
      log.length - historySz := by
    rw [hh.ptr]
    split_ifs <;> omega
  unfold History.covered
  dsimp only
  rw [hstart, hh.ptr]
  refine List.ext_getElem ?_ fun i hi hi' => ?_
  · rw [List.length_map, List.length_range', length_window]
    omega
  · rw [length_window] at hi'
    have hlt : log.length - historySz + i < log.length := by omega
    rw [List.getElem_map, List.getElem_range', Nat.one_mul, hh.ring _ hlt (by omega)]
    exact (List.getElem_drop ..).symm

/-- **Recomputing the buffers** makes them valid, unless nothing has been recorded. -/
theorem Holds.historyCalcMaxbuf (hh : h.Holds log) :
    h.historyCalcMaxbuf.Holds log ∧
      (log ≠ [] → h.historyCalcMaxbuf.histMaxbufValid = true) := by
  by_cases hnil : log = []
  · have hptr : h.histPtr = 0 := by rw [hh.ptr, hnil, List.length_nil]
    rw [History.historyCalcMaxbuf, if_pos hptr]
    exact ⟨hh, fun hne => absurd hnil hne⟩
  · have hptr : h.histPtr ≠ 0 := by
      rw [hh.ptr]
      exact fun h0 => hnil (List.length_eq_zero_iff.mp h0)
    have hmax := foldl_offer (r := (· ≥ ·)) (fun x b => not_le.symm) longmin (window log)
    have hmin := foldl_offer (r := (· ≤ ·)) (fun x b => not_le.symm) longmax (window log)
    rw [← hh.covered] at hmax hmin
    rw [History.historyCalcMaxbuf, if_neg hptr]
    refine ⟨?_, fun _ => rfl⟩
    exact
      { ptr := hh.ptr
        ring := hh.ring
        maxbuf := fun _ => hh.covered ▸ hmax
        minbuf := fun _ => hh.covered ▸ hmin
        start := fun h0 => absurd h0 hnil }

/-- The index of a report stays inside the buffers and inside the window. -/
theorem index_lt {n : ℕ} (hn : n ≠ 0) (hle : n ≤ historySz) :
    n * historyDroppct / 100 ≤ historyMaxbufSz - 1 ∧ n * historyDroppct / 100 < n := by
  have h1 : n ≤ 500 := hle
  change n * 3 / 100 ≤ 19 ∧ n * 3 / 100 < n
  omega

/-- **The report** is the plain one. -/
theorem Holds.report (hh : h.Holds log) :
    h.report.1.Holds log ∧ h.report.2 = plainReport log := by
  -- the history the report reads: its buffers are valid, or nothing has been recorded
  obtain ⟨g, hg, hrep, hvalid⟩ : ∃ g : History, g.Holds log ∧
      (if h.histMaxbufValid = false then h.historyCalcMaxbuf else h) = g ∧
      (log ≠ [] → g.histMaxbufValid = true) := by
    cases hv : h.histMaxbufValid with
    | false => exact ⟨_, hh.historyCalcMaxbuf.1, if_pos rfl, hh.historyCalcMaxbuf.2⟩
    | true => exact ⟨h, hh, if_neg (Ne.symm Bool.false_ne_true), fun _ => hv⟩
  unfold History.report
  dsimp only
  rw [hrep]
  refine ⟨hg, ?_⟩
  have hcount : (if g.histPtr < historySz then g.histPtr else historySz) =
      (window log).length := by
    rw [hg.ptr, length_window]
    split_ifs <;> omega
  rw [hcount, plainReport]
  by_cases hnil : log = []
  · obtain ⟨-, hmax, hmin⟩ := hg.start hnil
    rw [if_pos hnil, hmax, hmin, hnil]
    rfl
  · have hpos : (window log).length ≠ 0 := by
      have := List.length_pos_of_ne_nil hnil
      have hsz : 0 < historySz := by decide
      rw [length_window]
      omega
    have hle : (window log).length ≤ historySz := by
      rw [length_window]
      exact Nat.min_le_right _ _
    obtain ⟨hbuf, hrank⟩ := index_lt hpos hle
    have hsz : historyMaxbufSz - 1 < historyMaxbufSz := by decide
    have hin := lt_of_le_of_lt hbuf hsz
    rw [if_neg hnil, if_neg (not_lt.mpr hbuf), hg.maxbuf (hvalid hnil), hg.minbuf (hvalid hnil),
      getD_firsts _ _ _ hin hrank, getD_firsts _ _ _ hin hrank]
    have hmax : ∀ a : ℤ, (if a ≥ longmin then a else longmin) = max a longmin := fun a => by
      rw [max_comm, max_def]
    have hmin : ∀ a : ℤ, (if a ≤ longmax then a else longmax) = min a longmax := fun a =>
      (min_def a longmax).symm
    rw [hmax, hmin]

end History

end Fgcom.Jitter
