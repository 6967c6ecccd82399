import Mathlib.Data.List.TakeWhile
import Fgcom.Lib.CBuffer

/-! # A text in blocks

A text with separators in it, taken apart: each block is a piece, the separator behind it and the
run of separators that is skipped with it, and the last piece has no separator behind it.

* **`Laid`** — the pieces hold no separator and the rest of the blocks nothing else; every text can
  be laid out so, one block for each separator (`exists_single`) or for each run of them
  (`exists_runs`).
* **`cut`** — the buffer in which so many pieces, and no more, are strings of their own.
* **`readString_cut`** — what can be read in it where a piece starts.
* **`positions`** — the places of a text that two neighbouring characters mark; when they mark the
  starts of pieces, these are the starts of the blocks (`positions_text`). -/

namespace Blocks

open CBuffer

/-! ## Blocks -/

/-- A piece, the separator behind it, and the separators that are skipped with that one. -/
structure Block (α : Type*) where
  piece : List α
  sepc : α
  run : List α

variable {α : Type*}

/-- The text of a block. -/
def Block.text (b : Block α) : List α := b.piece ++ b.sepc :: b.run

/-- The text of blocks and of the last piece behind them. -/
def text (bs : List (Block α)) (last : List α) : List α := bs.flatMap Block.text ++ last

/-- Where the blocks start, the first one at `i`. -/
def starts : ℕ → List (Block α) → List ℕ
  | _, [] => []
  | i, b :: bs => i :: starts (i + b.text.length) bs

/-- Where the last piece starts. -/
def stop (i : ℕ) (bs : List (Block α)) : ℕ := i + (bs.flatMap Block.text).length

/-- Where all the pieces start. -/
def allStarts (i : ℕ) (bs : List (Block α)) : List ℕ := starts i bs ++ [stop i bs]

/-- The buffer when the separators behind the pieces are overwritten, until there are `n` strings:
the last of them holds the rest. -/
def cut (nul : α) : ℕ → List (Block α) → List α → List α
  | n + 2, b :: bs, last => b.piece ++ nul :: (b.run ++ cut nul (n + 1) bs last)
  | _, bs, last => text bs last

@[simp] theorem text_nil (last : List α) : text [] last = last := rfl

theorem text_cons (b : Block α) (bs : List (Block α)) (last : List α) :
    text (b :: bs) last = b.text ++ text bs last := by
  rw [text, List.flatMap_cons, List.append_assoc]
  rfl

theorem Block.text_ne_nil (b : Block α) : b.text ≠ [] :=
  List.append_ne_nil_of_right_ne_nil b.piece (List.cons_ne_nil b.sepc b.run)

theorem Block.length_text (b : Block α) : b.text.length = b.piece.length + 1 + b.run.length := by
  rw [text, List.length_append, List.length_cons]
  omega

/-- With another byte in place of its separator, a block has the same length. -/
theorem Block.length_cut (pre : List α) (b : Block α) (c : α) :
    (pre ++ (b.piece ++ c :: b.run)).length = pre.length + b.text.length := by
  rw [List.length_append, List.length_append, b.length_text, List.length_cons]
  omega

@[simp] theorem length_starts (i : ℕ) (bs : List (Block α)) : (starts i bs).length = bs.length := by
  induction bs generalizing i with
  | nil => rfl
  | cons b bs ih => rw [starts, List.length_cons, ih, List.length_cons]

@[simp] theorem length_allStarts (i : ℕ) (bs : List (Block α)) :
    (allStarts i bs).length = bs.length + 1 := by
  rw [allStarts, List.length_append, length_starts, List.length_singleton]

theorem stop_cons (i : ℕ) (b : Block α) (bs : List (Block α)) :
    stop i (b :: bs) = stop (i + b.text.length) bs := by
  rw [stop, stop, List.flatMap_cons, List.length_append, Nat.add_assoc]

theorem allStarts_nil (i : ℕ) : allStarts i ([] : List (Block α)) = [i] := rfl

theorem allStarts_cons (i : ℕ) (b : Block α) (bs : List (Block α)) :
    allStarts i (b :: bs) = i :: allStarts (i + b.text.length) bs := by
  rw [allStarts, starts, stop_cons, List.cons_append, allStarts]

theorem take_one_allStarts (i : ℕ) (bs : List (Block α)) : (allStarts i bs).take 1 = [i] := by
  cases bs <;> rfl

theorem cut_nil (nul : α) (n : ℕ) (last : List α) : cut nul n [] last = last := by
  rcases n with _ | _ | n <;> rfl

theorem cut_one (nul : α) (bs : List (Block α)) (last : List α) :
    cut nul 1 bs last = text bs last := by
  cases bs <;> rfl

theorem cut_cons (nul : α) (n : ℕ) (b : Block α) (bs : List (Block α)) (last : List α) :
    cut nul (n + 2) (b :: bs) last = b.piece ++ nul :: (b.run ++ cut nul (n + 1) bs last) := rfl

/-! ## Layouts -/

/-- The pieces hold no separator, and behind them there is nothing else. -/
def Block.Fits (isSep : α → Bool) (b : Block α) : Prop :=
  (∀ c ∈ b.piece, isSep c = false) ∧ isSep b.sepc = true ∧ ∀ c ∈ b.run, isSep c = true

/-- Blocks that fit, and a last piece without a separator. -/
def Laid (isSep : α → Bool) (bs : List (Block α)) (last : List α) : Prop :=
  (∀ b ∈ bs, b.Fits isSep) ∧ ∀ c ∈ last, isSep c = false

variable {isSep : α → Bool} {b : Block α} {bs : List (Block α)} {last : List α}

theorem Laid.cons (hb : b.Fits isSep) (h : Laid isSep bs last) : Laid isSep (b :: bs) last :=
  ⟨List.forall_mem_cons.mpr ⟨hb, h.1⟩, h.2⟩

theorem Laid.head (h : Laid isSep (b :: bs) last) : b.Fits isSep := h.1 b List.mem_cons_self

theorem Laid.tail (h : Laid isSep (b :: bs) last) : Laid isSep bs last :=
  ⟨(List.forall_mem_cons.mp h.1).2, h.2⟩

/-- A block starts with its piece, when that is not empty. -/
theorem Block.Fits.head?_text (h : b.Fits isSep) (hne : b.piece ≠ []) :
    ∃ c, b.text.head? = some c ∧ isSep c = false := by
  obtain ⟨c, piece, hpiece⟩ := List.exists_cons_of_ne_nil hne
  exact ⟨c, by rw [Block.text, hpiece]; rfl, h.1 c (hpiece ▸ List.mem_cons_self)⟩

/-- A text up to its first separator. -/
theorem piece_cases (isSep : α → Bool) (s : List α) :
    (∀ c ∈ s, isSep c = false) ∨
      ∃ piece c rest, s = piece ++ c :: rest ∧ (∀ c ∈ piece, isSep c = false) ∧ isSep c = true := by
  induction s with
  | nil => exact Or.inl fun c hc => absurd hc List.not_mem_nil
  | cons x s ih =>
      cases hx : isSep x with
      | true => exact Or.inr ⟨[], x, s, rfl, fun c hc => absurd hc List.not_mem_nil, hx⟩
      | false =>
          rcases ih with hs | ⟨piece, c, rest, rfl, hpiece, hc⟩
          · exact Or.inl (List.forall_mem_cons.mpr ⟨hx, hs⟩)
          · exact Or.inr ⟨x :: piece, c, rest, rfl, List.forall_mem_cons.mpr ⟨hx, hpiece⟩, hc⟩

/-- **One block for each separator.** -/
theorem exists_single (isSep : α → Bool) (s : List α) :
    ∃ bs last, text bs last = s ∧ Laid isSep bs last ∧ ∀ b ∈ bs, b.run = [] := by
  induction hn : s.length using Nat.strong_induction_on generalizing s with
  | _ n ih =>
    rcases piece_cases isSep s with hs | ⟨piece, c, rest, rfl, hpiece, hc⟩
    · exact ⟨[], s, rfl, ⟨fun b hb => absurd hb List.not_mem_nil, hs⟩,
        fun b hb => absurd hb List.not_mem_nil⟩
    · rw [List.length_append, List.length_cons] at hn
      obtain ⟨bs, last, hbs, hlaid, hrun⟩ := ih rest.length (by omega) rest rfl
      refine ⟨⟨piece, c, []⟩ :: bs, last, ?_, hlaid.cons ⟨hpiece, hc, ?_⟩, ?_⟩
      · rw [text_cons, hbs, Block.text, List.append_assoc, List.cons_append, List.nil_append]
      · exact fun c hc => absurd hc List.not_mem_nil
      · exact List.forall_mem_cons.mpr ⟨rfl, hrun⟩

/-- A first piece in front of which there is no separator is not empty. -/
theorem piece_ne_nil (h : Laid isSep (b :: bs) last)
    (hhead : ∀ c ∈ (text (b :: bs) last).head?, isSep c = false) : b.piece ≠ [] := by
  intro hnil
  have hsep := hhead b.sepc (by rw [text_cons, Block.text, hnil]; rfl)
  rw [h.head.2.1] at hsep
  exact absurd hsep (by decide)

/-- Nor is any other one, when that holds of the others. -/
theorem forall_piece_ne_nil (h : Laid isSep bs last) (hne : ∀ b ∈ bs.tail, b.piece ≠ [])
    (hhead : ∃ c, (text bs last).head? = some c ∧ isSep c = false) : ∀ b ∈ bs, b.piece ≠ [] := by
  obtain ⟨c, hc, hsep⟩ := hhead
  cases bs with
  | nil => exact fun b hb => absurd hb List.not_mem_nil
  | cons b bs =>
      refine List.forall_mem_cons.mpr ⟨piece_ne_nil h fun d hd => ?_, hne⟩
      rw [hc, Option.mem_some_iff] at hd
      rwa [← hd]

/-- **One block for each run of separators**: no piece but the first is empty. -/
theorem exists_runs (isSep : α → Bool) (s : List α) :
    ∃ bs last, text bs last = s ∧ Laid isSep bs last ∧ ∀ b ∈ bs.tail, b.piece ≠ [] := by
  induction hn : s.length using Nat.strong_induction_on generalizing s with
  | _ n ih =>
    rcases piece_cases isSep s with hs | ⟨piece, c, rest, rfl, hpiece, hc⟩
    · exact ⟨[], s, rfl, ⟨fun b hb => absurd hb List.not_mem_nil, hs⟩,
        fun b hb => absurd hb List.not_mem_nil⟩
    · have htext (run t : List α) : (⟨piece, c, run⟩ : Block α).text ++ t
          = piece ++ c :: (run ++ t) := by
        rw [Block.text, List.append_assoc, List.cons_append]
      rcases piece_cases (fun c => !isSep c) rest with hrest | ⟨run, x, rest, rfl, hrun, hx⟩
      · -- the run goes up to the end, and an empty piece is left
        refine ⟨[⟨piece, c, rest⟩], [], ?_, ⟨?_, fun c hc => absurd hc List.not_mem_nil⟩,
          fun b hb => absurd hb List.not_mem_nil⟩
        · rw [text_cons, htext, text_nil, List.append_nil]
        · exact List.forall_mem_singleton.mpr ⟨hpiece, hc, fun c hc => by simpa using hrest c hc⟩
      · rw [List.length_append, List.length_cons, List.length_append] at hn
        obtain ⟨bs, last, hbs, hlaid, hne⟩ := ih (x :: rest).length (by omega) (x :: rest) rfl
        refine ⟨⟨piece, c, run⟩ :: bs, last, ?_,
          hlaid.cons ⟨hpiece, hc, fun c hc => by simpa using hrun c hc⟩, ?_⟩
        · rw [text_cons, htext, hbs]
        · -- the rest does not start with a separator, so its first piece is not empty either
          cases bs with
          | nil => exact fun b hb => absurd hb List.not_mem_nil
          | cons b bs =>
              refine List.forall_mem_cons.mpr ⟨piece_ne_nil hlaid fun d hd => ?_, hne⟩
              rw [hbs, List.head?_cons, Option.mem_some_iff] at hd
              simpa [hd] using hx

/-! ## The pieces -/

/-- A text without separators is a piece as a whole. -/
theorem takeWhile_last (h : ∀ c ∈ last, isSep c = false) :
    last.takeWhile (fun c => !isSep c) = last :=
  List.takeWhile_eq_self_iff.mpr fun c hc => by rw [h c hc, Bool.not_false]

/-- The first piece of a text. -/
theorem takeWhile_text (h : Laid isSep (b :: bs) last) :
    (text (b :: bs) last).takeWhile (fun c => !isSep c) = b.piece := by
  rw [text_cons, Block.text, List.append_assoc, List.takeWhile_append_of_pos fun c hc => by
    rw [h.head.1 c hc]; rfl, List.cons_append, List.takeWhile_cons_of_neg (by simp [h.head.2.1]),
    List.append_nil]

/-- The pieces are what stands at their starts up to the next separator. -/
theorem map_allStarts (h : Laid isSep bs last) (pre : List α) :
    (allStarts pre.length bs).map
        (fun q => ((pre ++ text bs last).drop q).takeWhile fun c => !isSep c)
      = bs.map Block.piece ++ [last] := by
  induction bs generalizing pre with
  | nil =>
      rw [allStarts_nil, List.map_singleton, text_nil, List.drop_left, takeWhile_last h.2]
      rfl
  | cons b bs ih =>
      have htail := ih h.tail (pre ++ b.text)
      rw [List.length_append, List.append_assoc, ← text_cons] at htail
      rw [allStarts_cons, List.map_cons, htail, List.drop_left, takeWhile_text h, List.map_cons,
        List.cons_append]

/-- Without the last one. -/
theorem map_starts (h : Laid isSep bs last) (pre : List α) :
    (starts pre.length bs).map
        (fun q => ((pre ++ text bs last).drop q).takeWhile fun c => !isSep c)
      = bs.map Block.piece := by
  have hall := map_allStarts h pre
  rw [allStarts, List.map_append] at hall
  exact List.append_inj_left hall (by rw [List.length_map, length_starts, List.length_map])

/-- **One block for each separator**: the pieces are what the text is split into. -/
theorem splitOnP_single (h : Laid isSep bs last) (hrun : ∀ b ∈ bs, b.run = []) :
    (text bs last).splitOnP isSep = bs.map Block.piece ++ [last] := by
  induction bs with
  | nil => exact List.splitOnP_eq_singleton h.2
  | cons b bs ih =>
      obtain ⟨hb, hbs⟩ := List.forall_mem_cons.mp hrun
      rw [text_cons, Block.text, hb, List.append_assoc, List.singleton_append,
        List.splitOnP_append_cons_of_forall_mem h.head.1 _ h.head.2.1, ih h.tail hbs, List.map_cons,
        List.cons_append]

/-- A run only adds empty pieces. -/
theorem filter_splitOnP_run {run : List α} (hrun : ∀ c ∈ run, isSep c = true) (s : List α) :
    ((run ++ s).splitOnP isSep).filter (fun t => !t.isEmpty)
      = (s.splitOnP isSep).filter fun t => !t.isEmpty := by
  induction run with
  | nil => rfl
  | cons c run ih =>
      obtain ⟨hc, hrun⟩ := List.forall_mem_cons.mp hrun
      have hcut : (c :: (run ++ s)).splitOnP isSep = [] :: (run ++ s).splitOnP isSep :=
        List.splitOnP_append_cons_of_forall_mem (fun d hd => absurd hd List.not_mem_nil) c hc _
      rw [List.cons_append, hcut, List.filter_cons_of_neg (by simp), ih hrun]

/-- **Empty pieces left out**, the blocks need not be those of single separators. -/
theorem filter_splitOnP_text (h : Laid isSep bs last) :
    ((text bs last).splitOnP isSep).filter (fun t => !t.isEmpty)
      = (bs.map Block.piece ++ [last]).filter fun t => !t.isEmpty := by
  induction bs with
  | nil => rw [text_nil, List.splitOnP_eq_singleton h.2]; rfl
  | cons b bs ih =>
      rw [text_cons, Block.text, List.append_assoc, List.cons_append,
        List.splitOnP_append_cons_of_forall_mem h.head.1 _ h.head.2.1, List.filter_cons,
        filter_splitOnP_run h.head.2.2, ih h.tail, List.map_cons, List.cons_append,
        List.filter_cons]

/-- A text with each run of separators made one. -/
def squeeze (isSep : α → Bool) : List α → List α
  | [] => []
  | c :: s => if isSep c && s.head?.any isSep then squeeze isSep s else c :: squeeze isSep s

/-- No separator, nothing squeezed. -/
theorem squeeze_piece {piece : List α} (h : ∀ c ∈ piece, isSep c = false) (s : List α) :
    squeeze isSep (piece ++ s) = piece ++ squeeze isSep s := by
  induction piece with
  | nil => rfl
  | cons c piece ih =>
      obtain ⟨hc, hpiece⟩ := List.forall_mem_cons.mp h
      rw [List.cons_append, squeeze, hc, Bool.false_and, if_neg Bool.false_ne_true, ih hpiece,
        List.cons_append]

/-- A run leaves one separator. -/
theorem squeeze_run {a : α} {run s : List α} (ha : isSep a = true)
    (hrun : ∀ c ∈ run, isSep c = true) (hs : s.head?.any isSep = false) :
    ∃ d, isSep d = true ∧ squeeze isSep (a :: (run ++ s)) = d :: squeeze isSep s := by
  induction run generalizing a with
  | nil =>
      refine ⟨a, ha, ?_⟩
      rw [List.nil_append, squeeze, hs, Bool.and_false, if_neg Bool.false_ne_true]
  | cons c run ih =>
      obtain ⟨hc, hrun⟩ := List.forall_mem_cons.mp hrun
      obtain ⟨d, hd, heq⟩ := ih hc hrun
      refine ⟨d, hd, ?_⟩
      rw [List.cons_append, squeeze, List.head?_cons, Option.any_some, ha, hc, Bool.and_self,
        if_pos rfl, heq]

/-- Behind a run there is no separator. -/
theorem any_head?_text (h : Laid isSep bs last) (hne : ∀ b ∈ bs.head?, b.piece ≠ []) :
    (text bs last).head?.any isSep = false := by
  cases bs with
  | nil =>
      cases last with
      | nil => rfl
      | cons c last => exact h.2 c List.mem_cons_self
  | cons b bs =>
      obtain ⟨c, hc, hsep⟩ := h.head.head?_text (hne b rfl)
      rw [text_cons, List.head?_append_of_ne_nil _ b.text_ne_nil, hc, Option.any_some, hsep]

/-- **One block for each run**: the pieces are what the squeezed text is split into. -/
theorem splitOnP_squeeze (h : Laid isSep bs last) (hne : ∀ b ∈ bs.tail, b.piece ≠ []) :
    (squeeze isSep (text bs last)).splitOnP isSep = bs.map Block.piece ++ [last] := by
  induction bs with
  | nil =>
      have hlast : squeeze isSep last = last := by
        have h := squeeze_piece h.2 []
        rwa [List.append_nil, squeeze, List.append_nil] at h
      rw [text_nil, hlast, List.splitOnP_eq_singleton h.2]
      rfl
  | cons b bs ih =>
      have hhead := any_head?_text h.tail fun b hb => hne b (List.mem_of_mem_head? hb)
      obtain ⟨d, hd, heq⟩ := squeeze_run h.head.2.1 h.head.2.2 hhead
      rw [text_cons, Block.text, List.append_assoc, List.cons_append, squeeze_piece h.head.1, heq,
        List.splitOnP_append_cons_of_forall_mem h.head.1 _ hd,
        ih h.tail fun b hb => hne b (List.mem_of_mem_tail hb), List.map_cons, List.cons_append]

/-! ## Reading the pieces -/

section Reading

/-- What stands behind the start of a piece. -/
theorem drop_start (pre : List α) {i q : ℕ} (hq : (allStarts pre.length bs)[i]? = some q) :
    (pre ++ text bs last).drop q = text (bs.drop i) last := by
  induction bs generalizing pre i with
  | nil =>
      obtain ⟨rfl, rfl⟩ : i = 0 ∧ q = pre.length := by
        rw [allStarts_nil, List.getElem?_singleton] at hq
        split at hq
        · exact ⟨‹_›, (Option.some.inj hq).symm⟩
        · exact absurd hq (by simp)
      rw [List.drop_left, List.drop_nil]
  | cons b bs ih =>
      rw [allStarts_cons] at hq
      cases i with
      | zero =>
          obtain rfl := Option.some.inj hq
          rw [List.drop_left, List.drop_zero]
      | succ i =>
          rw [List.getElem?_cons_succ, ← List.length_append] at hq
          rw [text_cons, ← List.append_assoc, ih (pre ++ b.text) hq, List.drop_succ_cons]

variable [DecidableEq α] {nul : α}

/-- **What is read where piece `i` starts**, in a buffer that is cut into `n` strings: the piece, or
all that is left when it is the last of them and not the last piece. -/
theorem readString_cut (h : Laid isSep bs last) (hnul : nul ∉ text bs last) (pre : List α)
    {n i q : ℕ} (hi : i < n) (hq : (allStarts pre.length bs)[i]? = some q) :
    readString nul (pre ++ (cut nul n bs last ++ [nul])) q
      = some (if i + 1 = n ∧ i < bs.length then text (bs.drop i) last
        else (text (bs.drop i) last).takeWhile fun c => !isSep c) := by
  induction bs generalizing pre n i with
  | nil =>
      obtain ⟨rfl, rfl⟩ : i = 0 ∧ q = pre.length := by
        rw [allStarts_nil, List.getElem?_singleton] at hq
        split at hq
        · exact ⟨‹_›, (Option.some.inj hq).symm⟩
        · exact absurd hq (by simp)
      rw [cut_nil, if_neg fun h => absurd h.2 (Nat.lt_irrefl 0), List.drop_nil, text_nil,
        takeWhile_last h.2]
      exact readString_string pre [] hnul
  | cons b bs ih =>
      rw [allStarts_cons] at hq
      obtain rfl | ⟨n, rfl⟩ : n = 1 ∨ ∃ m, n = m + 2 := by
        rcases n with _ | _ | n
        · exact absurd hi (Nat.not_lt_zero i)
        · exact Or.inl rfl
        · exact Or.inr ⟨n, rfl⟩
      · -- one string is left, and it holds the rest
        obtain rfl : i = 0 := by omega
        obtain rfl := Option.some.inj hq
        rw [cut_one, if_pos ⟨rfl, Nat.succ_pos _⟩, List.drop_zero]
        exact readString_string pre [] hnul
      · rw [text_cons, List.mem_append, not_or] at hnul
        cases i with
        | zero =>
            obtain rfl := Option.some.inj hq
            rw [if_neg (by omega), List.drop_zero, takeWhile_text h, cut_cons, List.append_assoc,
              List.cons_append]
            exact readString_string pre _ fun hmem => hnul.1 (List.mem_append_left _ hmem)
        | succ i =>
            rw [List.getElem?_cons_succ, ← Block.length_cut pre b nul] at hq
            have hbuf : pre ++ (cut nul (n + 2) (b :: bs) last ++ [nul])
                = pre ++ (b.piece ++ nul :: b.run) ++ (cut nul (n + 1) bs last ++ [nul]) := by
              rw [cut_cons]
              simp
            rw [hbuf, ih h.tail hnul.2 _ (Nat.lt_of_succ_lt_succ hi) hq, List.drop_succ_cons,
              List.length_cons]
            simp

end Reading

/-! ## The places marked by two neighbours -/

/-- The places in front of, between and behind the characters of a text that a test of the two
neighbours picks: `none` is an end of the text. -/
def positions (f : Option α → Option α → Bool) : Option α → ℕ → List α → List ℕ
  | prev, i, [] => if f prev none then [i] else []
  | prev, i, c :: s =>
      if f prev (some c) then i :: positions f (some c) (i + 1) s
      else positions f (some c) (i + 1) s

variable {f : Option α → Option α → Bool} {prev : Option α} {i : ℕ}

/-- No place is marked before the next separator, once the piece has started. -/
theorem positions_piece {piece : List α} (hprev : ∀ x, f prev x = false)
    (hpiece : ∀ c ∈ piece, ∀ x, f (some c) x = false) (c : α) (s : List α) :
    positions f prev i (piece ++ c :: s) = positions f (some c) (i + piece.length + 1) s := by
  induction piece generalizing prev i with
  | nil => rw [List.nil_append, positions, hprev]; rfl
  | cons d piece ih =>
      obtain ⟨hd, hpiece⟩ := List.forall_mem_cons.mp hpiece
      rw [List.cons_append, positions, hprev, if_neg Bool.false_ne_true, ih hd hpiece,
        List.length_cons]
      congr 1
      omega

/-- Nor up to the end. -/
theorem positions_last {piece : List α} (hprev : ∀ x, f prev x = false)
    (hpiece : ∀ c ∈ piece, ∀ x, f (some c) x = false) : positions f prev i piece = [] := by
  induction piece generalizing prev i with
  | nil => rw [positions, hprev]; rfl
  | cons d piece ih =>
      obtain ⟨hd, hpiece⟩ := List.forall_mem_cons.mp hpiece
      rw [positions, hprev, if_neg Bool.false_ne_true, ih hd hpiece]

/-- No place is marked in a run. -/
theorem positions_run {a : α} {run : List α} (ha : isSep a = true)
    (hrun : ∀ c ∈ run, isSep c = true)
    (hf : ∀ c ∈ run, ∀ a, isSep a = true → f (some a) (some c) = false) (s : List α) :
    ∃ a', isSep a' = true ∧
      positions f (some a) i (run ++ s) = positions f (some a') (i + run.length) s := by
  induction run generalizing a i with
  | nil => exact ⟨a, ha, rfl⟩
  | cons c run ih =>
      obtain ⟨hc, hrun⟩ := List.forall_mem_cons.mp hrun
      obtain ⟨hfc, hf⟩ := List.forall_mem_cons.mp hf
      obtain ⟨a', ha', heq⟩ := ih (i := i + 1) hc hrun hf
      refine ⟨a', ha', ?_⟩
      rw [List.cons_append, positions, hfc a ha, if_neg Bool.false_ne_true, heq, List.length_cons]
      congr 1
      omega

/-- A test that marks where blocks start: no place behind a character of a piece or within a run,
and the place in front of every block but the first. -/
structure Marks (f : Option α → Option α → Bool) (isSep : α → Bool) (bs : List (Block α)) :
    Prop where
  piece : ∀ c, isSep c = false → ∀ x, f (some c) x = false
  run : ∀ b ∈ bs, ∀ c ∈ b.run, ∀ a, isSep a = true → f (some a) (some c) = false
  next : ∀ b ∈ bs.tail, ∀ a, isSep a = true → f (some a) b.text.head? = true

theorem Marks.tail (h : Marks f isSep (b :: bs)) : Marks f isSep bs :=
  ⟨h.piece, fun b hb => h.run b (List.mem_cons_of_mem _ hb),
    fun b hb => h.next b (List.mem_of_mem_tail hb)⟩

/-- **One block**: the place in front of it, and no other. -/
theorem positions_block (h : b.Fits isSep) (hmarks : Marks f isSep (b :: bs))
    (hstart : f prev b.text.head? = true) (s : List α) :
    ∃ a, isSep a = true ∧
      positions f prev i (b.text ++ s) = i :: positions f (some a) (i + b.text.length) s := by
  obtain ⟨piece, sepc, run⟩ := b
  obtain ⟨hpiece, hsepc, hrun⟩ := h
  have hmarkRun := hmarks.run _ List.mem_cons_self
  dsimp only at hpiece hsepc hrun hmarkRun
  rw [Block.length_text]
  cases piece with
  | nil =>
      -- the empty piece starts in front of the separator
      have hstart : f prev (some sepc) = true := hstart
      obtain ⟨a, ha, heq⟩ := positions_run (i := i + 1) hsepc hrun hmarkRun s
      refine ⟨a, ha, ?_⟩
      rw [Block.text, List.nil_append, List.cons_append, positions, if_pos hstart, heq]
      simp [Nat.add_assoc]
  | cons c piece =>
      have hstart : f prev (some c) = true := hstart
      obtain ⟨hc, hpiece⟩ := List.forall_mem_cons.mp hpiece
      obtain ⟨a, ha, heq⟩ := positions_run (i := i + 1 + piece.length + 1) hsepc hrun hmarkRun s
      refine ⟨a, ha, ?_⟩
      rw [Block.text, List.append_assoc, List.cons_append, List.cons_append, positions,
        if_pos hstart, positions_piece (hmarks.piece c hc) fun d hd => hmarks.piece d (hpiece d hd),
        heq]
      simp only [List.length_cons]
      congr 2
      omega

/-- **The blocks of a text**: their starts are marked, and what is marked behind them depends on the
last separator only. -/
theorem positions_text (h : Laid isSep bs last) (hmarks : Marks f isSep bs)
    (hstart : ∀ b ∈ bs.head?, f prev b.text.head? = true) :
    ∃ prev', (prev' = prev ∧ bs = [] ∨ ∃ a, isSep a = true ∧ prev' = some a) ∧
      positions f prev i (text bs last)
        = starts i bs ++ positions f prev' (stop i bs) last := by
  induction bs generalizing prev i with
  | nil => exact ⟨prev, Or.inl ⟨rfl, rfl⟩, rfl⟩
  | cons b bs ih =>
      obtain ⟨a, ha, heq⟩ := positions_block (i := i) h.head hmarks (hstart b rfl) (text bs last)
      have hnext : ∀ b ∈ bs.head?, f (some a) b.text.head? = true := fun b hb =>
        hmarks.next b (List.mem_of_mem_head? hb) a ha
      obtain ⟨prev', hprev, hrest⟩ := ih (i := i + b.text.length) h.tail hmarks.tail hnext
      refine ⟨prev', Or.inr ?_, ?_⟩
      · rcases hprev with ⟨rfl, -⟩ | hsep
        · exact ⟨a, ha, rfl⟩
        · exact hsep
      · rw [text_cons, heq, hrest, starts, stop_cons, List.cons_append]

/-- A last piece whose start is marked. -/
theorem positions_last_of_start (hmarks : Marks f isSep bs) (hlast : ∀ c ∈ last, isSep c = false)
    (hstart : f prev last.head? = true) : positions f prev i last = [i] := by
  cases last with
  | nil => exact if_pos hstart
  | cons c last =>
      have hstart : f prev (some c) = true := hstart
      obtain ⟨hc, hlast⟩ := List.forall_mem_cons.mp hlast
      rw [positions, if_pos hstart,
        positions_last (hmarks.piece c hc) fun d hd => hmarks.piece d (hlast d hd)]

/-- **All pieces are marked**, when the place in front of the last one is. -/
theorem positions_eq_allStarts (h : Laid isSep bs last) (hmarks : Marks f isSep bs)
    (hstart : f prev (text bs last).head? = true)
    (hlast : bs ≠ [] → ∀ a, isSep a = true → f (some a) last.head? = true) :
    positions f prev i (text bs last) = allStarts i bs := by
  cases bs with
  | nil => exact positions_last_of_start hmarks h.2 hstart
  | cons b bs =>
      have hfirst : ∀ b' ∈ (b :: bs).head?, f prev b'.text.head? = true := by
        intro b' hb'
        obtain rfl := Option.some.inj hb'
        rwa [text_cons, List.head?_append_of_ne_nil _ b.text_ne_nil] at hstart
      obtain ⟨prev', hprev, heq⟩ := positions_text (i := i) h hmarks hfirst
      rcases hprev with ⟨-, hnil⟩ | ⟨a, ha, rfl⟩
      · exact absurd hnil (List.cons_ne_nil b bs)
      · rw [heq, positions_last_of_start hmarks h.2 (hlast (List.cons_ne_nil b bs) a ha), allStarts]

/-- **All pieces but an empty last one are marked**, when no place behind a separator is marked at
the end. -/
theorem positions_eq_starts (h : Laid isSep (b :: bs) []) (hmarks : Marks f isSep (b :: bs))
    (hstart : f prev b.text.head? = true) (hlast : ∀ a, isSep a = true → f (some a) none = false) :
    positions f prev i (text (b :: bs) []) = starts i (b :: bs) := by
  have hfirst : ∀ b' ∈ (b :: bs).head?, f prev b'.text.head? = true := by
    intro b' hb'
    obtain rfl := Option.some.inj hb'
    exact hstart
  obtain ⟨prev', hprev, heq⟩ := positions_text (i := i) h hmarks hfirst
  rcases hprev with ⟨-, hnil⟩ | ⟨a, ha, rfl⟩
  · exact absurd hnil (List.cons_ne_nil b bs)
  · rw [heq, positions, hlast a ha, if_neg Bool.false_ne_true, List.append_nil]

end Blocks
