import Fgcom.Split.Code

/-! # The pieces of a string

Where the pieces start in a string that is laid out in blocks, and which texts they are.

* **`LaidOut`** — a layout of a string with the starts of its pieces.
* **`pieces_single`**, **`pieces_runs`**, **`pieces_words`** — the pieces are those between the
  separators, those between the runs of separators, and the words. -/

namespace Fgcom.Split

open CBuffer Blocks

/-! ## The starts of the pieces -/

section Starts

variable {bs : List (Block Char)} {last s sep : List Char}

/-- For words: a piece starts in front of a character that is not blank, behind a blank. -/
theorem marks_words (h : Laid isBlank bs last) (hne : ∀ b ∈ bs.tail, b.piece ≠ []) :
    Marks (startsPiece []) isBlank bs where
  piece c hc x := by rw [startsPiece, Option.all_some, hc, Bool.false_and]
  run b hb c hc a _ := by
    rw [startsPiece, Option.any_some, (h.1 b hb).2.2 c hc, Bool.not_true, Bool.and_false]
  next b hb a ha := by
    obtain ⟨c, hc, hblank⟩ := (h.1 b (List.mem_of_mem_tail hb)).head?_text (hne b hb)
    rw [startsPiece, hc, Option.all_some, Option.any_some, ha, hblank]
    rfl

/-- For one separator: behind each of them. -/
theorem marks_single {sepc : Char} (hrun : ∀ b ∈ bs, b.run = []) :
    Marks (startsPiece [sepc]) (· = sepc) bs where
  piece _ hc _ := hc
  run b hb c hc _ _ := absurd hc (by rw [hrun b hb]; exact List.not_mem_nil)
  next _ _ _ ha := ha

/-- For more separators: behind a run of them. -/
theorem startsPiece_runs (h : 2 ≤ sep.length) (prev next : Option Char) :
    startsPiece sep prev next
      = prev.all fun c => isSeparator sep c && next.all fun c => !isSeparator sep c := by
  match sep, h with
  | _ :: _ :: _, _ => rfl

theorem marks_runs (hsep : 2 ≤ sep.length) (h : Laid (isSeparator sep) bs last)
    (hne : ∀ b ∈ bs.tail, b.piece ≠ []) : Marks (startsPiece sep) (isSeparator sep) bs where
  piece c hc x := by rw [startsPiece_runs hsep, Option.all_some, hc, Bool.false_and]
  run b hb c hc a _ := by
    rw [startsPiece_runs hsep, Option.all_some, Option.all_some, (h.1 b hb).2.2 c hc, Bool.not_true,
      Bool.and_false]
  next b hb a ha := by
    obtain ⟨c, hc, hnot⟩ := (h.1 b (List.mem_of_mem_tail hb)).head?_text (hne b hb)
    rw [startsPiece_runs hsep, hc, Option.all_some, Option.all_some, ha, hnot]
    rfl

/-- A string laid out in blocks behind leading white space, with the starts of its pieces: an empty
last piece is dropped behind trailing white space. -/
structure LaidOut (s sep pre : List Char) (bs : List (Block Char)) (last : List Char)
    (dropped : Bool) : Prop where
  eq : s = pre ++ text bs last
  laid : Laid (isSeparator sep) bs last
  starts_eq : pieceStarts s sep = if dropped then starts pre.length bs else allStarts pre.length bs
  dropped_iff : dropped = true ↔ sep = [] ∧ s.getLast?.any isBlank = true
  last_eq : dropped = true → last = []

/-- One separator. -/
theorem laidOut_single {sepc : Char} (h : Laid (· = sepc) bs last) (hrun : ∀ b ∈ bs, b.run = [])
    (hne : text bs last ≠ []) : LaidOut (text bs last) [sepc] [] bs last false where
  eq := rfl
  laid := by
    have hsep : isSeparator [sepc] = fun c => decide (c = sepc) := by
      funext c
      simp [isSeparator]
    rwa [hsep]
  starts_eq := by
    rw [pieceStarts, if_neg hne, if_neg Bool.false_ne_true]
    exact positions_eq_allStarts h (marks_single hrun) rfl fun _ a ha => ha
  dropped_iff := by simp
  last_eq h := absurd h Bool.false_ne_true

/-- More separators. -/
theorem laidOut_runs (hsep : 2 ≤ sep.length) (h : Laid (isSeparator sep) bs last)
    (hne : ∀ b ∈ bs.tail, b.piece ≠ []) (htext : text bs last ≠ []) :
    LaidOut (text bs last) sep [] bs last false where
  eq := rfl
  laid := h
  starts_eq := by
    have hfirst : startsPiece sep none (text bs last).head? = true := by
      rw [startsPiece_runs hsep]
      rfl
    rw [pieceStarts, if_neg htext, if_neg Bool.false_ne_true]
    refine positions_eq_allStarts h (marks_runs hsep h hne) hfirst fun _ a ha => ?_
    rw [startsPiece_runs hsep, Option.all_some, ha, Bool.true_and]
    cases last with
    | nil => rfl
    | cons c last => rw [List.head?_cons, Option.all_some, h.2 c List.mem_cons_self, Bool.not_false]
  dropped_iff := by
    have hnil : sep ≠ [] := fun h => absurd hsep (by simp [h])
    simp [hnil]
  last_eq h := absurd h Bool.false_ne_true

/-- The leading white space starts no piece. -/
theorem positions_lead {lead : List Char} (h : ∀ c ∈ lead, isBlank c = true) (t : List Char) :
    ∃ prev : Option Char, prev.all isBlank = true ∧
      positions (startsPiece []) none 0 (lead ++ t)
        = positions (startsPiece []) prev lead.length t := by
  cases lead with
  | nil => exact ⟨none, rfl, rfl⟩
  | cons c lead =>
      obtain ⟨hc, hlead⟩ := List.forall_mem_cons.mp h
      have hmark (d : Char) (hd : isBlank d = true) (prev : Option Char) :
          startsPiece [] prev (some d) = false := by
        rw [startsPiece, Option.any_some, hd, Bool.not_true, Bool.and_false]
      obtain ⟨a, ha, heq⟩ :=
        positions_run (i := 1) hc hlead (fun d hd a _ => hmark d (hlead d hd) _) t
      refine ⟨some a, ha, ?_⟩
      rw [List.cons_append, positions, hmark c hc, if_neg Bool.false_ne_true, Nat.zero_add, heq,
        List.length_cons, Nat.add_comm]

/-- What the last character of a string is, when all of them are alike. -/
theorem any_getLast? {p : Char → Bool} {v : Bool} {t : List Char} (hne : t ≠ [])
    (h : ∀ c ∈ t, p c = v) : t.getLast?.any p = v := by
  rw [List.getLast?_eq_some_getLast hne, Option.any_some, h _ (List.getLast_mem hne)]

/-- The last piece of the words is empty when white space is at the end. -/
theorem getLast?_words (h : Laid isBlank bs last) (htext : text bs last ≠ []) (lead : List Char) :
    (lead ++ text bs last).getLast?.any isBlank = last.isEmpty := by
  cases last with
  | cons c last =>
      rw [text, ← List.append_assoc, List.getLast?_append_of_ne_nil _ (List.cons_ne_nil c last),
        any_getLast? (List.cons_ne_nil c last) h.2, List.isEmpty_cons]
  | nil =>
      have hbs : bs ≠ [] := fun hnil => htext (by rw [hnil, text_nil])
      obtain ⟨init, b, rfl⟩ := (List.eq_nil_or_concat' bs).resolve_left hbs
      have hb := h.1 b (List.mem_append_right init List.mem_cons_self)
      have hassoc : lead ++ text (init ++ [b]) []
          = lead ++ init.flatMap Block.text ++ b.piece ++ b.sepc :: b.run := by
        simp [text, Block.text]
      rw [hassoc, List.getLast?_append_of_ne_nil _ (List.cons_ne_nil b.sepc b.run),
        any_getLast? (List.cons_ne_nil b.sepc b.run) (List.forall_mem_cons.mpr hb.2),
        List.isEmpty_nil]

/-- White space only has no words. -/
theorem pieceStarts_blank (h : ∀ c ∈ s, isBlank c = true) : pieceStarts s [] = [] := by
  obtain ⟨prev, -, heq⟩ := positions_lead h []
  rw [List.append_nil] at heq
  rw [pieceStarts, heq, positions, startsPiece, Option.any_none, Bool.and_false,
    if_neg Bool.false_ne_true, ite_self]

/-- Anything else is laid out behind its leading white space. -/
theorem exists_words (h : ¬ ∀ c ∈ s, isBlank c = true) :
    ∃ lead bs last, s = lead ++ text bs last ∧ (∀ c ∈ lead, isBlank c = true) ∧
      Laid isBlank bs last ∧ (∀ b ∈ bs.tail, b.piece ≠ []) ∧
      ∃ c, (text bs last).head? = some c ∧ isBlank c = false := by
  rcases piece_cases (fun c => !isBlank c) s with hall | ⟨lead, c, t, rfl, hlead, hc⟩
  · exact absurd (fun c hc => by simpa using hall c hc) h
  · obtain ⟨bs, last, htext, hlaid, hpieces⟩ := exists_runs isBlank (c :: t)
    exact ⟨lead, bs, last, by rw [htext], fun c hc => by simpa using hlead c hc, hlaid, hpieces, c,
      by rw [htext, List.head?_cons], by simpa using hc⟩

/-- The words. -/
theorem laidOut_words {lead : List Char} (hlead : ∀ c ∈ lead, isBlank c = true)
    (h : Laid isBlank bs last) (hne : ∀ b ∈ bs.tail, b.piece ≠ [])
    (hhead : ∃ c, (text bs last).head? = some c ∧ isBlank c = false) :
    LaidOut (lead ++ text bs last) [] lead bs last last.isEmpty where
  eq := rfl
  laid := h
  starts_eq := by
    obtain ⟨c, hc, hblank⟩ := hhead
    have htext : lead ++ text bs last ≠ [] := by
      intro hnil
      rw [(List.append_eq_nil_iff.mp hnil).2] at hc
      exact absurd hc (by simp)
    obtain ⟨prev, hprev, heq⟩ := positions_lead hlead (text bs last)
    have hstart : startsPiece [] prev (text bs last).head? = true := by
      rw [startsPiece, hc, hprev, Option.any_some, hblank]
      rfl
    rw [pieceStarts, if_neg htext, heq]
    -- the place at the end is marked only behind a piece that is not empty
    cases last with
    | nil =>
        cases bs with
        | nil => exact absurd hc (by simp)
        | cons b bs =>
            rw [text_cons, List.head?_append_of_ne_nil _ b.text_ne_nil] at hstart
            rw [List.isEmpty_nil, if_pos rfl]
            refine positions_eq_starts h (marks_words h hne) hstart fun a _ => ?_
            rw [startsPiece, Option.any_none, Bool.and_false]
    | cons d last =>
        rw [List.isEmpty_cons, if_neg Bool.false_ne_true]
        refine positions_eq_allStarts h (marks_words h hne) hstart fun _ a ha => ?_
        rw [startsPiece, Option.all_some, ha, List.head?_cons, Option.any_some,
          h.2 d List.mem_cons_self]
        rfl
  dropped_iff := by
    have htext : text bs last ≠ [] := by
      obtain ⟨c, hc, -⟩ := hhead
      intro hnil
      rw [hnil] at hc
      exact absurd hc (by simp)
    rw [getLast?_words h htext lead]
    exact ⟨fun h => ⟨rfl, h⟩, And.right⟩
  last_eq := List.isEmpty_iff.mp

end Starts

/-! ## The pieces, as texts -/

section Pieces

variable {bs : List (Block Char)} {last s sep : List Char}

/-- The pieces of a string. -/
def pieces (s sep : List Char) : List (List Char) := (pieceStarts s sep).map (pieceAt s sep)

/-- The pieces of a string that is laid out. -/
theorem LaidOut.pieces_eq {pre : List Char} {dropped : Bool}
    (h : LaidOut s sep pre bs last dropped) :
    pieces s sep = bs.map Block.piece ++ if dropped then [] else [last] := by
  have hall := map_allStarts h.laid pre
  have hstarts := map_starts h.laid pre
  rw [← h.eq] at hall hstarts
  rw [pieces, h.starts_eq]
  cases dropped with
  | false => exact hall
  | true => exact hstarts.trans (List.append_nil _).symm

/-- **One separator**: the pieces are those between consecutive occurrences of it. -/
theorem pieces_single (hne : s ≠ []) (sepc : Char) : pieces s [sepc] = s.splitOn sepc := by
  obtain ⟨bs, last, rfl, hlaid, hrun⟩ := exists_single (fun c => decide (c = sepc)) s
  rw [(laidOut_single hlaid hrun hne).pieces_eq, if_neg Bool.false_ne_true,
    ← splitOnP_single hlaid hrun, List.splitOn_eq_splitOnP]
  rfl

/-- **More separators**: each run of them counts as one. -/
theorem pieces_runs (hsep : 2 ≤ sep.length) (hne : s ≠ []) :
    pieces s sep = (squeeze (isSeparator sep) s).splitOnP (isSeparator sep) := by
  obtain ⟨bs, last, rfl, hlaid, hpieces⟩ := exists_runs (isSeparator sep) s
  rw [(laidOut_runs hsep hlaid hpieces hne).pieces_eq, if_neg Bool.false_ne_true,
    ← splitOnP_squeeze hlaid hpieces]

/-- **No separators**: the pieces are the words between blanks and tabs. -/
theorem pieces_words (s : List Char) :
    pieces s [] = (s.splitOnP isBlank).filter fun t => !t.isEmpty := by
  by_cases hblank : ∀ c ∈ s, isBlank c = true
  · have hrun := filter_splitOnP_run hblank []
    rw [List.append_nil, List.splitOnP_nil] at hrun
    rw [pieces, pieceStarts_blank hblank, hrun]
    rfl
  · obtain ⟨lead, bs, last, rfl, hlead, hlaid, hpieces, hhead⟩ := exists_words hblank
    have hall := forall_piece_ne_nil hlaid hpieces hhead
    have hfilter : (bs.map Block.piece).filter (fun t => !t.isEmpty) = bs.map Block.piece := by
      refine List.filter_eq_self.mpr fun t ht => ?_
      obtain ⟨b, hb, rfl⟩ := List.mem_map.mp ht
      simpa using hall b hb
    rw [(laidOut_words hlead hlaid hpieces hhead).pieces_eq, filter_splitOnP_run hlead,
      filter_splitOnP_text hlaid, List.filter_append, hfilter]
    cases last with
    | nil => rfl
    | cons c last => rfl

end Pieces

end Fgcom.Split
