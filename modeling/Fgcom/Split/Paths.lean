import Fgcom.PacketMemory
import Fgcom.Split.Loops
import Fgcom.Split.Pieces

/-! # The paths of `split`

Every path of `split` against the definition of the pieces.

* **`exists_outcome`** — every path leaves the string laid out in blocks and cut up to the last
  field.
* **`meets_iff`** — `split` does what the definition says exactly when it can count the pieces.
* **`splitBuf_eq_split`** — the call of `parse_fgdata` is the one modelled on the packet buffer. -/

namespace Fgcom.Split

open CBuffer Blocks

/-! ## The paths of `split` -/

section Paths

variable {bs : List (Block Char)} {last s sep : List Char} {n : ℕ} {nfields : ℤ}

/-- The string starts with a character. -/
theorem exists_first (hs : '\x00' ∉ s) (hne : s ≠ []) (pre : List Char) :
    ∃ c, (pre ++ (s ++ ['\x00']))[pre.length]? = some c ∧ c ≠ '\x00' := by
  obtain ⟨c, t, rfl⟩ := List.exists_cons_of_ne_nil hne
  exact ⟨c, getElem?_middle pre [] c (t ++ ['\x00']), fun h => hs (h ▸ List.mem_cons_self)⟩

/-- "catch empties". -/
theorem splitFrom_nil (trimtrail : Bool) (pre : List Char) (nfields : ℤ) (sep : List Char) :
    splitFrom trimtrail (pre ++ ['\x00']) pre.length nfields sep
      = some ⟨0, [], pre ++ ['\x00']⟩ := by
  have hget : (pre ++ ['\x00'])[pre.length]? = some '\x00' := getElem?_middle pre [] '\x00' []
  unfold splitFrom
  rw [hget, Option.bind_some, if_pos rfl]

/-- With separators given, no white space is skipped. -/
theorem split_of_ne_nil (b : List Char) (p : ℕ) (nfields : ℤ) (h : sep ≠ []) :
    split b p nfields sep = splitFrom false b p nfields sep := by
  obtain ⟨c, sep, rfl⟩ := List.exists_cons_of_ne_nil h
  rfl

/-- The loop for one separator is picked. -/
theorem splitFrom_single {b : List Char} {p : ℕ} {c : Char} (hc : b[p]? = some c)
    (hc0 : c ≠ '\x00') (trimtrail : Bool) (nfields : ℤ) (sepc : Char) :
    splitFrom trimtrail b p nfields [sepc] = singleLoop nfields sepc nfields [] b p := by
  unfold splitFrom
  rw [hc, Option.bind_some, if_neg hc0]

/-- The loop for two is picked. -/
theorem splitFrom_two {b : List Char} {p : ℕ} {c : Char} (hc : b[p]? = some c)
    (hc0 : c ≠ '\x00') (trimtrail : Bool) (nfields : ℤ) (sepc sepc2 : Char) :
    splitFrom trimtrail b p nfields [sepc, sepc2]
      = twoLoop nfields (fun c => c = sepc || c = sepc2) trimtrail nfields [] b p := by
  unfold splitFrom
  rw [hc, Option.bind_some, if_neg hc0]

/-- The loop for more is picked. -/
theorem splitFrom_many {b : List Char} {p : ℕ} {c : Char} (hc : b[p]? = some c)
    (hc0 : c ≠ '\x00') (trimtrail : Bool) (nfields : ℤ) (sepc sepc2 sepc3 : Char)
    (sep : List Char) :
    splitFrom trimtrail b p nfields (sepc :: sepc2 :: sepc3 :: sep)
      = manyLoop nfields (fun c => (sepc :: sepc2 :: sepc3 :: sep).contains c) 0 [] b p := by
  unfold splitFrom
  rw [hc, Option.bind_some, if_neg hc0]

/-- NUL is no separator. -/
theorem isSeparator_nul (hz : '\x00' ∉ sep) : isSeparator sep '\x00' = false := by
  cases sep with
  | nil => rfl
  | cons c sep => exact Bool.eq_false_iff.mpr fun h => hz (List.contains_iff_mem.mp h)

/-- The two separators of the loop for two. -/
theorem isSeparator_two (sepc sepc2 : Char) :
    isSeparator [sepc, sepc2] = fun c => c = sepc || c = sepc2 := by
  funext c
  simp [isSeparator]

/-- **One separator.** -/
theorem split_single {sepc : Char} (h : Laid (· = sepc) bs last) (hrun : ∀ b ∈ bs, b.run = [])
    (hnul : '\x00' ∉ text bs last) (hne : text bs last ≠ []) (hn : nfields = (n + 1 : ℕ))
    (hmax : nfields ≤ intMax) :
    split (text bs last ++ ['\x00']) 0 nfields [sepc] = outcome false [] [] (n + 1) bs last := by
  obtain ⟨c, hc, hc0⟩ := exists_first hnul hne []
  rw [split_of_ne_nil _ _ _ (List.cons_ne_nil sepc []),
    ← singleLoop_eq h hrun hnul [] [] (places_nil hn) hmax, ← hn]
  exact splitFrom_single hc hc0 false nfields sepc

/-- **More separators**: the loop for two and the loop for any number leave the same. -/
theorem split_runs (hsep : 2 ≤ sep.length) (hz : '\x00' ∉ sep) (h : Laid (isSeparator sep) bs last)
    (hpieces : ∀ b ∈ bs.tail, b.piece ≠ []) (hnul : '\x00' ∉ text bs last)
    (hne : text bs last ≠ []) (hn : nfields = (n + 1 : ℕ)) (hmax : nfields ≤ intMax) :
    split (text bs last ++ ['\x00']) 0 nfields sep = outcome false [] [] (n + 1) bs last := by
  obtain ⟨c, hc, hc0⟩ := exists_first hnul hne []
  have hterm := isSeparator_nul hz
  match sep, hsep with
  | [sepc, sepc2], _ =>
      rw [isSeparator_two] at h hterm
      have hloop := twoLoop_eq h hterm hpieces hnul false
        (fun h => absurd h Bool.false_ne_true) [] [] (places_nil hn) hmax
      rw [← hn] at hloop
      exact (splitFrom_two hc hc0 false nfields sepc sepc2).trans hloop
  | sepc :: sepc2 :: sepc3 :: sep, _ =>
      have hloop := manyLoop_eq h hterm hpieces hnul [] [] (places_nil hn) hmax
      exact (splitFrom_many hc hc0 false nfields sepc sepc2 sepc3 sep).trans hloop

/-- **The words.** -/
theorem split_words {lead : List Char} (hlead : ∀ c ∈ lead, isBlank c = true)
    (h : Laid isBlank bs last) (hpieces : ∀ b ∈ bs.tail, b.piece ≠ [])
    (hhead : ∃ c, (text bs last).head? = some c ∧ isBlank c = false) (hnul : '\x00' ∉ text bs last)
    (hn : nfields = (n + 1 : ℕ)) (hmax : nfields ≤ intMax) :
    split (lead ++ text bs last ++ ['\x00']) 0 nfields []
      = outcome last.isEmpty [] lead (n + 1) bs last := by
  have hall := forall_piece_ne_nil h hpieces hhead
  obtain ⟨c, hhead, hblank⟩ := hhead
  obtain ⟨t, ht⟩ := List.head?_eq_some_iff.mp hhead
  have hne : text bs last ≠ [] := ht ▸ List.cons_ne_nil c t
  have hscan : scanRun isBlank (lead ++ text bs last ++ ['\x00']) 0 = some lead.length := by
    have h := scanRun_append [] hlead hblank (t ++ ['\x00'])
    rwa [List.nil_append, List.length_nil, Nat.zero_add, ← List.cons_append, ← ht,
      ← List.append_assoc] at h
  obtain ⟨d, hd, hd0⟩ := exists_first hnul hne lead
  have hloop := twoLoop_eq h rfl hpieces hnul true (fun _ => hall) lead [] (places_nil hn) hmax
  rw [← hn, Bool.true_and] at hloop
  rw [split, hscan, Option.bind_some, List.append_assoc, splitFrom_two hd hd0]
  exact hloop

/-- White space only is skipped up to the terminator. -/
theorem split_blank (h : ∀ c ∈ s, isBlank c = true) (nfields : ℤ) :
    split (s ++ ['\x00']) 0 nfields [] = some ⟨0, [], s ++ ['\x00']⟩ := by
  have hscan := scanRun_append [] h (rfl : isBlank '\x00' = false) []
  rw [List.nil_append, List.length_nil, Nat.zero_add] at hscan
  rw [split, hscan, Option.bind_some, splitFrom_nil]

/-- **Every path**: the string is laid out in blocks behind its leading white space, and `split`
leaves it cut up to the last field; or it has no pieces. -/
theorem exists_outcome (hs : '\x00' ∉ s) (hz : '\x00' ∉ sep) (hn : nfields = (n + 1 : ℕ))
    (hmax : nfields ≤ intMax) :
    (pieceStarts s sep = [] ∧
        split (s ++ ['\x00']) 0 nfields sep = some ⟨0, [], s ++ ['\x00']⟩) ∨
      ∃ pre bs last dropped, LaidOut s sep pre bs last dropped ∧
        split (s ++ ['\x00']) 0 nfields sep = outcome dropped [] pre (n + 1) bs last := by
  by_cases hempty : s = []
  · -- no pieces, whatever the separators are
    subst hempty
    refine Or.inl ⟨if_pos rfl, ?_⟩
    cases sep with
    | nil => exact split_blank (fun c hc => absurd hc List.not_mem_nil) nfields
    | cons sepc seps =>
        rw [split_of_ne_nil _ _ _ (List.cons_ne_nil sepc seps)]
        exact splitFrom_nil false [] nfields _
  match sep with
  | [] =>
      by_cases hblank : ∀ c ∈ s, isBlank c = true
      · exact Or.inl ⟨pieceStarts_blank hblank, split_blank hblank nfields⟩
      · obtain ⟨lead, bs, last, rfl, hlead, hlaid, hpieces, hhead⟩ := exists_words hblank
        have hnul : '\x00' ∉ text bs last := fun h => hs (List.mem_append_right lead h)
        exact Or.inr ⟨lead, bs, last, last.isEmpty, laidOut_words hlead hlaid hpieces hhead,
          split_words hlead hlaid hpieces hhead hnul hn hmax⟩
  | [sepc] =>
      obtain ⟨bs, last, rfl, hlaid, hrun⟩ := exists_single (fun c => decide (c = sepc)) s
      exact Or.inr ⟨[], bs, last, false, laidOut_single hlaid hrun hempty,
        split_single hlaid hrun hs hempty hn hmax⟩
  | sepc :: sepc2 :: seps =>
      have hsep : 2 ≤ (sepc :: sepc2 :: seps).length := by simp
      obtain ⟨bs, last, rfl, hlaid, hpieces⟩ := exists_runs (isSeparator (sepc :: sepc2 :: seps)) s
      exact Or.inr ⟨[], bs, last, false, laidOut_runs hsep hlaid hpieces hempty,
        split_runs hsep hz hlaid hpieces hs hempty hn hmax⟩

/-- The separators count as a set. -/
theorem isSeparator_congr {sep' : List Char} (h : sep ≠ []) (h' : sep' ≠ [])
    (hsame : ∀ c, c ∈ sep ↔ c ∈ sep') : isSeparator sep = isSeparator sep' := by
  obtain ⟨d, t, rfl⟩ := List.exists_cons_of_ne_nil h
  obtain ⟨d', t', rfl⟩ := List.exists_cons_of_ne_nil h'
  funext c
  rw [Bool.eq_iff_iff]
  exact (List.contains_iff_mem.trans (hsame c)).trans List.contains_iff_mem.symm

/-- **The paths for two and for more separators agree.** -/
theorem split_congr {sep' : List Char} (hs : '\x00' ∉ s) (hz : '\x00' ∉ sep) (hz' : '\x00' ∉ sep')
    (hsep : 2 ≤ sep.length) (hsep' : 2 ≤ sep'.length) (hsame : ∀ c, c ∈ sep ↔ c ∈ sep')
    (hn : nfields = (n + 1 : ℕ)) (hmax : nfields ≤ intMax) :
    split (s ++ ['\x00']) 0 nfields sep = split (s ++ ['\x00']) 0 nfields sep' := by
  have hnil : sep ≠ [] := fun h => absurd hsep (by simp [h])
  have hnil' : sep' ≠ [] := fun h => absurd hsep' (by simp [h])
  by_cases hempty : s = []
  · subst hempty
    rw [split_of_ne_nil _ _ _ hnil, split_of_ne_nil _ _ _ hnil']
    exact (splitFrom_nil false [] nfields sep).trans (splitFrom_nil false [] nfields sep').symm
  · obtain ⟨bs, last, rfl, hlaid, hpieces⟩ := exists_runs (isSeparator sep) s
    have hlaid' : Laid (isSeparator sep') bs last := by
      rwa [← isSeparator_congr hnil hnil' hsame]
    rw [split_runs hsep hz hlaid hpieces hs hempty hn hmax,
      split_runs hsep' hz' hlaid' hpieces hs hempty hn hmax]

end Paths

/-! ## `split` meets the reference -/

section Meeting

variable {s sep pre last : List Char} {bs : List (Block Char)} {dropped : Bool}

/-- The number of pieces, with the empty one that is dropped. -/
theorem LaidOut.counted_eq (h : LaidOut s sep pre bs last dropped) :
    counted s sep = bs.length + 1 := by
  rw [counted, h.starts_eq]
  cases dropped with
  | false =>
      rw [if_neg Bool.false_ne_true, if_neg fun hd => Bool.false_ne_true (h.dropped_iff.mpr hd),
        length_allStarts]
  | true => rw [if_pos rfl, if_pos (h.dropped_iff.mp rfl), length_starts]

/-- The starts of the pieces are starts of blocks, or the place behind them. -/
theorem LaidOut.getElem?_allStarts (h : LaidOut s sep pre bs last dropped) {i q : ℕ}
    (hq : (pieceStarts s sep)[i]? = some q) : (allStarts pre.length bs)[i]? = some q := by
  rw [h.starts_eq] at hq
  cases dropped with
  | false => rwa [if_neg Bool.false_ne_true] at hq
  | true =>
      rw [if_pos rfl] at hq
      obtain ⟨hlt, -⟩ := List.getElem?_eq_some_iff.mp hq
      rw [allStarts, List.getElem?_append_left hlt, hq]

/-- A field holds the rest in the cut buffer exactly when it is the last one and there are more
pieces. -/
theorem LaidOut.rest_iff (h : LaidOut s sep pre bs last dropped) {n i q : ℕ} (hi : i < n)
    (hq : (pieceStarts s sep)[i]? = some q) :
    (i + 1 = (if dropped ∧ bs.length ≤ n then n + 1 else n) ∧ i < bs.length)
      ↔ (i + 1 = n ∧ n < (pieceStarts s sep).length) := by
  obtain ⟨hlt, -⟩ := List.getElem?_eq_some_iff.mp hq
  rw [h.starts_eq] at hlt ⊢
  cases dropped with
  | false =>
      rw [if_neg fun hd => Bool.false_ne_true hd.1, if_neg Bool.false_ne_true, length_allStarts]
      omega
  | true =>
      rw [if_pos rfl, length_starts] at hlt
      rw [if_pos rfl, length_starts]
      simp only [true_and]
      split <;> omega

/-- **What a field holds.** -/
theorem LaidOut.readString_eq (h : LaidOut s sep pre bs last dropped) (hs : '\x00' ∉ s) {n i q : ℕ}
    (hi : i < n) (hq : (pieceStarts s sep)[i]? = some q) :
    readString '\x00' (pre ++ (cut '\x00'
        (if dropped ∧ bs.length ≤ n then n + 1 else n) bs last ++ ['\x00'])) q
      = some (if i + 1 = n ∧ n < (pieceStarts s sep).length then s.drop q
          else pieceAt s sep q) := by
  have hall := h.getElem?_allStarts hq
  have hnul : '\x00' ∉ text bs last := fun hmem => hs (h.eq ▸ List.mem_append_right pre hmem)
  have hm : i < if dropped ∧ bs.length ≤ n then n + 1 else n := by
    split <;> omega
  have hrest : s.drop q = text (bs.drop i) last := by
    rw [h.eq]
    exact drop_start pre hall
  rw [readString_cut h.laid hnul pre hm hall, pieceAt, hrest]
  simp only [h.rest_iff hi hq]

/-- **A string whose pieces can be counted.** -/
theorem LaidOut.meets {s sep : CString} {nfields : FieldCount} {n : ℕ}
    (h : LaidOut s.val sep.val pre bs last dropped) (hn : nfields.val = (n : ℕ))
    (hsplit : split (s.val ++ ['\x00']) 0 nfields.val sep.val = outcome dropped [] pre n bs last)
    (hcount : (counted s.val sep.val : ℤ) ≤ intMax) : Meets s sep nfields := by
  have hsize : ((([] : List ℕ).length : ℕ) : ℤ) + bs.length + 1 ≤ intMax := by
    rw [h.counted_eq] at hcount
    rw [List.length_nil]
    omega
  rw [outcome, if_pos hsize] at hsplit
  refine ⟨_, hsplit, ?_, fun i q hi hq => ?_⟩
  · rw [h.starts_eq]
    cases dropped with
    | false => simp
    | true => simp
  · have hi : i < n := by omega
    refine ⟨?_, ?_⟩
    · rw [List.nil_append, List.getElem?_take_of_lt hi]
      exact h.getElem?_allStarts hq
    · rw [h.readString_eq s.property hi hq]
      have hiff : ((i : ℤ) + 1 = nfields.val ∧ nfields.val < (pieceStarts s.val sep.val).length)
          ↔ (i + 1 = n ∧ n < (pieceStarts s.val sep.val).length) := by omega
      simp only [hiff]

/-- How many places a vector has, as a successor. -/
theorem exists_places (nfields : FieldCount) : ∃ n : ℕ, nfields.val = (n + 1 : ℕ) :=
  ⟨(nfields.val - 1).toNat, by have h := nfields.property.1; omega⟩

/-- A string with more pieces than can be counted. -/
theorem split_eq_none {s sep : CString} {nfields : FieldCount}
    (h : intMax < (counted s.val sep.val : ℤ)) :
    split (s.val ++ ['\x00']) 0 nfields.val sep.val = none := by
  obtain ⟨n, hn⟩ := exists_places nfields
  rcases exists_outcome s.property sep.property hn nfields.property.2
    with ⟨hnil, -⟩ | ⟨pre, bs, last, dropped, hlaid, hsplit⟩
  · rw [counted, hnil, List.length_nil, intMax] at h
    split at h <;> omega
  · rw [hlaid.counted_eq] at h
    rw [hsplit, outcome, if_neg (by rw [List.length_nil]; omega)]

/-- A string without pieces. -/
theorem meets_of_nil {s sep : CString} {nfields : FieldCount} (h : pieceStarts s.val sep.val = [])
    (hsplit : split (s.val ++ ['\x00']) 0 nfields.val sep.val
      = some ⟨0, [], s.val ++ ['\x00']⟩) : Meets s sep nfields := by
  refine ⟨_, hsplit, by rw [h]; rfl, fun i q _ hq => ?_⟩
  rw [h] at hq
  exact absurd hq (by simp)

/-- A string whose pieces can be counted, whatever the path. -/
theorem meets_of_counted {s sep : CString} {nfields : FieldCount}
    (h : (counted s.val sep.val : ℤ) ≤ intMax) : Meets s sep nfields := by
  obtain ⟨n, hn⟩ := exists_places nfields
  rcases exists_outcome s.property sep.property hn nfields.property.2
    with ⟨hnil, hsplit⟩ | ⟨pre, bs, last, dropped, hlaid, hsplit⟩
  · exact meets_of_nil hnil hsplit
  · exact hlaid.meets hn hsplit h

/-- **`split` meets the reference exactly when it can count the pieces**, and the paths for two and
for more separators agree. -/
theorem meets_iff (s sep : CString) (nfields : FieldCount) :
    (Meets s sep nfields ↔ (counted s.val sep.val : ℤ) ≤ intMax) ∧ PathsAgree s sep nfields := by
  refine ⟨⟨fun ⟨r, hr, _⟩ => ?_, meets_of_counted⟩, fun sep' hsep hsep' hsame => ?_⟩
  · by_contra hcount
    rw [split_eq_none (not_le.mp hcount)] at hr
    exact absurd hr (by simp)
  · obtain ⟨n, hn⟩ := exists_places nfields
    exact split_congr s.property sep.property sep'.property hsep hsep' hsame hn nfields.property.2

end Meeting

/-! ## Too many pieces -/

section Overflow

/-- Separators only: one more piece than there are of them. -/
theorem counted_replicate {k : ℕ} (hk : k ≠ 0) (sepc : Char) :
    counted (List.replicate k sepc) [sepc] = k + 1 := by
  have hlen (prev : Option Char) (hprev : prev.all (· = sepc) = true) (i j : ℕ) :
      (positions (startsPiece [sepc]) prev i (List.replicate j sepc)).length = j + 1 := by
    induction j generalizing prev i with
    | zero => rw [List.replicate_zero, positions, startsPiece, if_pos hprev, List.length_singleton]
    | succ j ih =>
        have hsep : (some sepc).all (· = sepc) = true := by
          rw [Option.all_some, decide_eq_true rfl]
        rw [List.replicate_succ, positions, startsPiece, if_pos hprev, List.length_cons,
          ih (some sepc) hsep (i + 1)]
  have hne : List.replicate k sepc ≠ [] := fun h => hk (by simpa using h)
  rw [counted, pieceStarts, if_neg hne, hlen none rfl 0 k,
    if_neg fun h => absurd h.1 (List.cons_ne_nil sepc []), Nat.add_zero]

/-- A string of commas without its terminator. -/
def commas (k : ℕ) : CString :=
  ⟨List.replicate k ',', fun h => absurd (List.eq_of_mem_replicate h) (by decide)⟩

/-- The largest `int` of commas has one piece more than an `int` can count. -/
theorem commas_not_met :
    ¬ Meets (commas (2 ^ 31 - 1)) ⟨[','], by decide⟩ ⟨1, by decide⟩ := by
  rintro ⟨r, hr, -⟩
  rw [split_eq_none] at hr
  · exact absurd hr (by simp)
  · have hcount : counted (commas (2 ^ 31 - 1)).val [','] = 2 ^ 31 - 1 + 1 :=
      counted_replicate (by norm_num) ','
    rw [hcount, intMax]
    norm_num

end Overflow

/-! ## The fields of a packet -/

section Packet

/-- **The counting loop only moves to the terminator**, as long as there is less to count than an
`int` holds. -/
theorem countSingle_scan (sepc : Char) (b : List Char) (p : ℕ) (fn : ℤ)
    (hfn : fn + (b.length - p : ℕ) ≤ intMax) :
    (countSingle sepc b p fn).isSome = (scan (· = '\x00') b p).isSome := by
  induction hk : b.length - p using Nat.strong_induction_on generalizing p fn with
  | _ k ih =>
    rw [countSingle, isSome_scan]
    cases hscan : scanPiece (fun c => decide (c = sepc)) b p with
    | none =>
        have hany := isSome_scan (fun c => decide (c = sepc) || decide (c = '\x00')) b p
        rw [← scanPiece, hscan, Option.isSome_none, eq_comm, List.any_eq_false] at hany
        rw [Option.isSome_none, eq_comm, List.any_eq_false]
        exact fun c hc h => hany c hc (by rw [h, Bool.or_true])
    | some q =>
        obtain ⟨mid, x, post, hdrop, rfl, hmid, -⟩ := exists_of_scan hscan
        have hlen := congrArg List.length hdrop
        rw [List.length_drop, List.length_append, List.length_cons] at hlen
        have hget : b[p + mid.length]? = some x := by
          rw [← List.getElem?_drop, hdrop, List.getElem?_append_right le_rfl, Nat.sub_self,
            List.getElem?_cons_zero]
        have hpost : b.drop (p + mid.length + 1) = post := by
          rw [Nat.add_assoc, ← List.drop_drop, hdrop, List.drop_length_add_append, List.drop_one,
            List.tail_cons]
        have hnone : mid.any (fun c => decide (c = '\x00')) = false :=
          List.any_eq_false.mpr fun c hc h => by
            have hstop := hmid c hc
            rw [h, Bool.or_true] at hstop
            exact absurd hstop (by decide)
        rw [hdrop, List.any_append, hnone, Bool.false_or, List.any_cons]
        dsimp only
        rw [hget]
        by_cases hx : x = '\x00'
        · rw [if_pos (by rw [hx]), hx]
          rfl
        · have hnext := ih (b.length - (p + mid.length + 1)) (by omega) (p + mid.length + 1)
            (fn + 1) (by omega) rfl
          rw [if_neg fun h => hx (Option.some.inj h), bump, if_pos (by omega), Option.bind_some,
            hnext, isSome_scan, hpost, decide_eq_false hx, Bool.false_or]

/-- **The call of `parse_fgdata`** does what `splitBuf` does: the pointers that are not stored keep
what they had. -/
theorem splitBuf_eq_split (b : List Char) (p : ℕ) (fields : Pointers)
    (hsize : (b.length : ℤ) < intMax) :
    splitBuf b p fields = (split b p 2 ['=']).map fun r =>
      (r.buf, ⟨r.fields[0]?.or fields.name, r.fields[1]?.or fields.value⟩) := by
  rw [split_of_ne_nil b p 2 (List.cons_ne_nil '=' []), splitBuf]
  unfold splitFrom
  cases b[p]? with
  | none => rfl
  | some c =>
      rw [Option.bind_some, Option.bind_some]
      by_cases hc : c = '\x00'
      · rw [if_pos hc, if_pos hc]
        rfl
      · rw [if_neg hc, if_neg hc]
        dsimp only
        rw [singleLoop, push_of_lt (by decide), Option.bind_some, if_neg (by decide), scanPiece]
        cases hscan : scan (fun c => decide (c = '=') || decide (c = '\x00')) b p with
        | none => rfl
        | some q =>
            have hq := (le_of_scan hscan).2.1
            obtain ⟨d, hd⟩ : ∃ d, b[q]? = some d := ⟨_, List.getElem?_eq_getElem hq⟩
            rw [Option.bind_some, hd, Option.bind_some]
            dsimp only
            by_cases hd0 : d = '\x00'
            · rw [if_pos hd0, if_pos (by rw [hd, hd0])]
              rfl
            · rw [if_neg hd0, if_neg fun h => hd0 (Option.some.inj (hd.symm.trans h))]
              cases hstore : store b q '\x00' with
              | none => rfl
              | some b' =>
                  have hlen := length_of_store hstore
                  have hcount := countSingle_scan '=' b' (q + 1) 2 (by omega)
                  rw [Option.bind_some]
                  dsimp only
                  rw [singleLoop, push_of_lt (by simp), Option.bind_some, if_pos (by decide)]
                  cases hscan' : scan (fun c => decide (c = '\x00')) b' (q + 1) with
                  | none =>
                      rw [hscan', Option.isSome_none, Option.isSome_eq_false_iff,
                        Option.isNone_iff_eq_none] at hcount
                      rw [hcount]
                      rfl
                  | some e =>
                      rw [hscan', Option.isSome_some, Option.isSome_iff_exists] at hcount
                      obtain ⟨fn, hfn⟩ := hcount
                      rw [hfn]
                      rfl

end Packet

end Fgcom.Split
