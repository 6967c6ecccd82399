import Mathlib.Data.List.Induction
import Fgcom.Split.Code

/-! # The loops of `split`

What the loops leave of a string that is laid out in blocks.

* **`outcome`** — the string cut up to the last field, all the pieces counted.
* **`singleLoop_eq`**, **`twoLoop_eq`**, **`manyLoop_eq`** — each loop leaves that, the second one
  with an empty last piece dropped behind trailing white space. -/

namespace Fgcom.Split

open CBuffer Blocks

/-! ## Blocks in the buffer -/

section Loops

variable {isSep : Char → Bool} {b : Block Char} {bs : List (Block Char)} {last : List Char}

/-- A string without NUL, block by block. -/
theorem notMem_cons (h : '\x00' ∉ text (b :: bs) last) :
    '\x00' ∉ b.piece ∧ b.sepc ≠ '\x00' ∧ '\x00' ∉ text bs last := by
  rw [text_cons, Block.text, List.mem_append, List.mem_append, List.mem_cons] at h
  simp only [not_or] at h
  exact ⟨h.1.1, Ne.symm h.1.2.1, h.2⟩

/-- The loop over the piece of a block stops at its separator. -/
theorem scanPiece_block (h : b.Fits isSep) (hnul : '\x00' ∉ b.piece) (hsepc : b.sepc ≠ '\x00')
    (pre rest : List Char) :
    scanPiece isSep (pre ++ (b.text ++ rest)) pre.length = some (pre.length + b.piece.length) ∧
      (pre ++ (b.text ++ rest))[pre.length + b.piece.length]? ≠ some '\x00' := by
  rw [Block.text, List.append_assoc, List.cons_append]
  refine ⟨scan_append pre _ (fun c hc => ?_) ?_, ?_⟩
  · rw [h.1 c hc, Bool.false_or]
    exact decide_eq_false fun heq => hnul (heq ▸ hc)
  · rw [h.2.1, Bool.true_or]
  · rw [getElem?_middle]
    exact fun heq => hsepc (Option.some.inj heq)

/-- The loop over the last piece stops at the terminator. -/
theorem scanPiece_last (h : ∀ c ∈ last, isSep c = false) (hnul : '\x00' ∉ last) (pre : List Char) :
    scanPiece isSep (pre ++ (last ++ ['\x00'])) pre.length = some (pre.length + last.length) ∧
      (pre ++ (last ++ ['\x00']))[pre.length + last.length]? = some '\x00' := by
  refine ⟨scan_append pre [] (fun c hc => ?_) (by simp), getElem?_middle pre last _ []⟩
  rw [h c hc, Bool.false_or]
  exact decide_eq_false fun heq => hnul (heq ▸ hc)

/-- The string behind a block starts with no separator when no piece is empty there. -/
theorem head?_rest (h : Laid isSep bs last) (hz : isSep '\x00' = false)
    (hne : ∀ b ∈ bs.head?, b.piece ≠ []) :
    ∃ x post, text bs last ++ ['\x00'] = x :: post ∧ isSep x = false := by
  have hhead := any_head?_text h hne
  cases htext : text bs last with
  | nil => exact ⟨'\x00', [], rfl, hz⟩
  | cons c t =>
      rw [htext] at hhead
      exact ⟨c, t ++ ['\x00'], rfl, hhead⟩

/-- The buffer behind the store at a separator. -/
theorem store_block (pre rest : List Char) :
    store (pre ++ (b.text ++ rest)) (pre.length + b.piece.length : ℕ) '\x00'
      = some (pre ++ (b.piece ++ '\x00' :: b.run) ++ rest) := by
  have h := store_append (pre ++ b.piece) (b.run ++ rest) b.sepc '\x00'
  rw [List.length_append] at h
  rw [Block.text]
  simpa using h

/-- The loop over a run stops behind it. -/
theorem scanRun_append (pre : List Char) {run : List Char} (hrun : ∀ c ∈ run, isSep c = true)
    {x : Char} (hx : isSep x = false) (post : List Char) :
    scanRun isSep (pre ++ (run ++ x :: post)) pre.length = some (pre.length + run.length) := by
  refine scan_append pre post (fun c hc => ?_) ?_
  · rw [hrun c hc, Bool.not_true]
  · rw [hx, Bool.not_false]

/-- The run of a block, whether the separator in front of it is overwritten or not. -/
theorem scanRun_block (h : b.Fits isSep) (pre : List Char) (c : Char) {rest : List Char}
    (hrest : ∃ x post, rest = x :: post ∧ isSep x = false) :
    scanRun isSep (pre ++ (b.piece ++ c :: b.run) ++ rest) (pre.length + b.piece.length + 1)
      = some (pre ++ (b.piece ++ c :: b.run)).length := by
  obtain ⟨x, post, rfl, hx⟩ := hrest
  have hscan := scanRun_append (pre ++ (b.piece ++ [c])) h.2.2 hx post
  have hlen : (pre ++ (b.piece ++ [c])).length = pre.length + b.piece.length + 1 := by
    rw [List.length_append, List.length_append, List.length_singleton, Nat.add_assoc]
  have hlen' : (pre ++ (b.piece ++ c :: b.run)).length
      = pre.length + b.piece.length + 1 + b.run.length := by
    rw [Block.length_cut, b.length_text]
    omega
  rw [hlen] at hscan
  rw [hlen', ← hscan]
  simp

/-! ## The loops -/

/-- What a loop leaves of blocks and a last piece when there are `n` places left for fields: the
string is cut up to the last field. An empty last piece can be dropped; then the string is cut
behind the last field too, if that is the last piece. -/
def outcome (dropped : Bool) (fields : List ℕ) (pre : List Char) (n : ℕ) (bs : List (Block Char))
    (last : List Char) : Option Result :=
  if (fields.length : ℤ) + bs.length + 1 ≤ intMax then
    some ⟨fields.length + bs.length + (if dropped then 0 else 1),
      fields ++ (allStarts pre.length bs).take n,
      pre ++ (cut '\x00' (if dropped ∧ bs.length ≤ n then n + 1 else n) bs last ++ ['\x00'])⟩
  else none

/-- **A round of a loop** takes the first block off. -/
theorem outcome_cons (dropped : Bool) (fields : List ℕ) (pre : List Char) (n : ℕ) (b : Block Char)
    (bs : List (Block Char)) (last : List Char) :
    outcome dropped (fields ++ [pre.length]) (pre ++ (b.piece ++ '\x00' :: b.run)) (n + 1) bs last
      = outcome dropped fields pre (n + 2) (b :: bs) last := by
  have hcut (m : ℕ) :
      pre ++ (b.piece ++ '\x00' :: b.run) ++ (cut '\x00' (m + 1) bs last ++ ['\x00'])
        = pre ++ (cut '\x00' (m + 2) (b :: bs) last ++ ['\x00']) := by
    rw [cut_cons]
    simp
  have hiff : (dropped = true ∧ bs.length ≤ n + 1)
      ↔ (dropped = true ∧ (b :: bs).length ≤ n + 2) := by
    rw [List.length_cons, Nat.succ_le_succ_iff]
  have hfields : ((fields ++ [pre.length]).length : ℤ) + bs.length
      = fields.length + (b :: bs).length := by
    rw [List.length_append, List.length_singleton, List.length_cons]
    omega
  have htake : fields ++ [pre.length] ++ (allStarts (pre.length + b.text.length) bs).take (n + 1)
      = fields ++ (allStarts pre.length (b :: bs)).take (n + 2) := by
    rw [allStarts_cons, List.take_succ_cons, List.append_assoc, List.singleton_append]
  rw [outcome, outcome, hfields, Block.length_cut, htake]
  by_cases hd : dropped = true ∧ bs.length ≤ n + 1
  · rw [if_pos hd, if_pos (hiff.mp hd), hcut]
  · rw [if_neg hd, if_neg fun h => hd (hiff.mpr h), hcut]

/-- What is left when no piece is dropped. -/
theorem outcome_false (fields : List ℕ) (pre : List Char) (n : ℕ) (bs : List (Block Char))
    (last : List Char) :
    outcome false fields pre n bs last
      = if (fields.length : ℤ) + bs.length + 1 ≤ intMax then
          some ⟨fields.length + bs.length + 1, fields ++ (allStarts pre.length bs).take n,
            pre ++ (cut '\x00' n bs last ++ ['\x00'])⟩
        else none := by
  simp only [outcome, Bool.false_eq_true, if_false, false_and]

/-- What is left when an empty last piece is dropped. -/
theorem outcome_true (fields : List ℕ) (pre : List Char) (n : ℕ) (bs : List (Block Char)) :
    outcome true fields pre n bs []
      = if (fields.length : ℤ) + bs.length + 1 ≤ intMax then
          some ⟨fields.length + bs.length, fields ++ (allStarts pre.length bs).take n,
            pre ++ (cut '\x00' (if bs.length ≤ n then n + 1 else n) bs [] ++ ['\x00'])⟩
        else none := by
  simp only [outcome, if_true, true_and, Int.add_zero]

/-- The last piece alone is a field. -/
theorem outcome_nil {fields : List ℕ} {n : ℕ} (pre last : List Char)
    (hfields : (fields.length : ℤ) + 1 ≤ intMax) :
    outcome false fields pre (n + 1) [] last
      = some ⟨fields.length + 1, fields ++ [pre.length], pre ++ (last ++ ['\x00'])⟩ := by
  rw [outcome_false, List.length_nil, Nat.cast_zero, Int.add_zero, if_pos hfields, cut_nil,
    allStarts_nil, List.take_succ_cons, List.take_nil]

/-- A place is left in the vector. -/
theorem push_of_lt {nfields : ℤ} {fields : List ℕ} (h : (fields.length : ℤ) < nfields) (p : ℕ) :
    push nfields fields p = some (fields ++ [p]) :=
  if_pos h

/-- All the places are left at first. -/
theorem places_nil {nfields : ℤ} {n : ℕ} (h : nfields = (n + 1 : ℕ)) :
    nfields = ([] : List ℕ).length + (n + 1 : ℕ) := by
  rw [h, List.length_nil]
  omega

/-- A pointer takes one of the places. -/
theorem places_push {nfields : ℤ} {fields : List ℕ} {n : ℕ}
    (h : nfields = fields.length + (n + 1 : ℕ)) (p : ℕ) :
    nfields = (fields ++ [p]).length + (n : ℕ) := by
  rw [h, List.length_append, List.length_singleton]
  omega

/-- Counting on from `fn` by one and then by `k` more. -/
theorem bump_bind {α : Type} {fn : ℤ} {k : ℕ} {g : ℤ → Option α} {x : α}
    (h : fn < intMax → g (fn + 1) = if fn + 1 + k ≤ intMax then some x else none) :
    (bump fn).bind g = if fn + (k + 1 : ℕ) ≤ intMax then some x else none := by
  have heq : fn + 1 + k = fn + (k + 1 : ℕ) := by omega
  rw [bump]
  by_cases hfn : fn < intMax
  · rw [if_pos hfn, Option.bind_some, h hfn, heq]
  · rw [if_neg hfn, Option.bind_none, if_neg (by omega)]

/-- **The pieces behind the last field are counted**, one separator. -/
theorem countSingle_eq {sepc : Char} (h : Laid (· = sepc) bs last) (hrun : ∀ b ∈ bs, b.run = [])
    (hnul : '\x00' ∉ text bs last) (pre : List Char) {fn : ℤ} (hfn : fn ≤ intMax) :
    countSingle sepc (pre ++ (text bs last ++ ['\x00'])) pre.length fn
      = if fn + bs.length ≤ intMax then some (fn + bs.length) else none := by
  induction bs generalizing pre fn with
  | nil =>
      obtain ⟨hscan, hq⟩ := scanPiece_last h.2 hnul pre
      rw [text_nil, countSingle, hscan]
      dsimp only
      rw [if_pos hq, List.length_nil, Nat.cast_zero, Int.add_zero, if_pos hfn]
  | cons b bs ih =>
      obtain ⟨hpiece, hsepc, hrest⟩ := notMem_cons hnul
      obtain ⟨hscan, hq⟩ := scanPiece_block h.head hpiece hsepc pre (text bs last ++ ['\x00'])
      have hnext : pre.length + b.piece.length + 1 = (pre ++ b.text).length := by
        rw [List.length_append, b.length_text, hrun b List.mem_cons_self, List.length_nil]
        omega
      rw [text_cons, List.append_assoc, countSingle, hscan]
      dsimp only
      rw [if_neg hq, hnext, ← List.append_assoc]
      refine bump_bind fun hlt => ?_
      rw [ih h.tail (fun b hb => hrun b (List.mem_cons_of_mem _ hb)) hrest (pre ++ b.text)
        (by omega)]
      have hcount : fn + 1 + bs.length = fn + (b :: bs).length := by
        rw [List.length_cons]
        omega
      rw [hcount]

/-- One separator, and the last place of the vector. -/
theorem singleLoop_one {sepc : Char} (h : Laid (· = sepc) bs last) (hrun : ∀ b ∈ bs, b.run = [])
    (hnul : '\x00' ∉ text bs last) (pre : List Char) {fields : List ℕ} {nfields : ℤ}
    (hn : nfields = fields.length + 1) (hmax : nfields ≤ intMax) :
    singleLoop nfields sepc 1 fields (pre ++ (text bs last ++ ['\x00'])) pre.length
      = outcome false fields pre 1 bs last := by
  have hcount : nfields + bs.length = fields.length + bs.length + 1 := by omega
  rw [singleLoop, push_of_lt (by omega), Option.bind_some, if_pos (by omega),
    countSingle_eq h hrun hnul pre hmax, outcome_false, cut_one, take_one_allStarts, hcount]
  split
  · rw [Option.map_some]
  · rw [Option.map_none]

/-- **The loop for one separator.** -/
theorem singleLoop_eq {sepc : Char} (h : Laid (· = sepc) bs last) (hrun : ∀ b ∈ bs, b.run = [])
    (hnul : '\x00' ∉ text bs last) (pre : List Char) (fields : List ℕ) {n : ℕ} {nfields : ℤ}
    (hn : nfields = fields.length + (n + 1 : ℕ)) (hmax : nfields ≤ intMax) :
    singleLoop nfields sepc (n + 1 : ℕ) fields (pre ++ (text bs last ++ ['\x00'])) pre.length
      = outcome false fields pre (n + 1) bs last := by
  induction bs generalizing pre fields n with
  | nil =>
      cases n with
      | zero => exact singleLoop_one h hrun hnul pre hn hmax
      | succ n =>
          obtain ⟨hscan, hq⟩ := scanPiece_last h.2 hnul pre
          have hret : nfields - (((n + 1 + 1 : ℕ) : ℤ) - 1) = fields.length + 1 := by omega
          rw [outcome_nil pre last (by omega), text_nil, singleLoop, push_of_lt (by omega),
            Option.bind_some, if_neg (by omega), hscan]
          dsimp only
          rw [if_pos hq, hret]
  | cons b bs ih =>
      cases n with
      | zero => exact singleLoop_one h hrun hnul pre hn hmax
      | succ n =>
          obtain ⟨hpiece, hsepc, hrest⟩ := notMem_cons hnul
          obtain ⟨hscan, hq⟩ := scanPiece_block h.head hpiece hsepc pre (text bs last ++ ['\x00'])
          have hnext : pre.length + b.piece.length + 1
              = (pre ++ (b.piece ++ '\x00' :: b.run)).length := by
            rw [hrun b List.mem_cons_self, List.length_append, List.length_append,
              List.length_singleton, Nat.add_assoc]
          have hfn : ((n + 1 + 1 : ℕ) : ℤ) - 1 = (n + 1 : ℕ) := by omega
          rw [text_cons, List.append_assoc, singleLoop, push_of_lt (by omega), Option.bind_some,
            if_neg (by omega), hscan]
          dsimp only
          rw [if_neg hq, store_block]
          dsimp only
          rw [hfn, hnext, ih h.tail (fun b hb => hrun b (List.mem_cons_of_mem _ hb)) hrest _ _
            (places_push hn pre.length), outcome_cons]

/-- **The pieces behind the last field are counted**, two separators. -/
theorem countTwo_eq (h : Laid isSep (b :: bs) last) (hz : isSep '\x00' = false)
    (hne : ∀ b ∈ bs, b.piece ≠ []) (hnul : '\x00' ∉ text (b :: bs) last) (pre : List Char)
    (fn : ℤ) :
    countTwo isSep (pre ++ (text (b :: bs) last ++ ['\x00'])) (pre.length + b.piece.length + 1) fn
      = if fn + (bs.length + 1 : ℕ) ≤ intMax then
          some (pre.length + (text (b :: bs) last).length, fn + (bs.length + 1 : ℕ))
        else none := by
  induction bs generalizing pre b fn with
  | nil =>
      obtain ⟨-, -, hrest⟩ := notMem_cons hnul
      have hrun : scanRun isSep (pre ++ b.text ++ (last ++ ['\x00'])) _ = some _ :=
        scanRun_block h.head pre b.sepc (head?_rest h.tail hz fun b hb => absurd hb (by simp))
      obtain ⟨hscan, hq⟩ := scanPiece_last h.2 hrest (pre ++ b.text)
      have hend : (pre ++ b.text).length + last.length = pre.length + (b.text ++ last).length := by
        rw [List.length_append, List.length_append, Nat.add_assoc]
      rw [text_cons, text_nil, List.append_assoc, ← List.append_assoc, countTwo, hrun]
      dsimp only
      refine bump_bind fun hlt => ?_
      rw [← Block.text, hscan]
      dsimp only
      rw [if_pos hq, hend, List.length_nil, if_pos (by omega)]
      rfl
  | cons b' bs ih =>
      obtain ⟨-, -, hrest⟩ := notMem_cons hnul
      obtain ⟨hpiece, hsepc, -⟩ := notMem_cons hrest
      have hrun : scanRun isSep (pre ++ b.text ++ (text (b' :: bs) last ++ ['\x00'])) _ = some _ :=
        scanRun_block h.head pre b.sepc
          (head?_rest h.tail hz fun b hb => hne b (List.mem_of_mem_head? hb))
      have hassoc : text (b' :: bs) last ++ ['\x00'] = b'.text ++ (text bs last ++ ['\x00']) := by
        rw [text_cons, List.append_assoc]
      obtain ⟨hscan, hq⟩ :=
        scanPiece_block h.tail.head hpiece hsepc (pre ++ b.text) (text bs last ++ ['\x00'])
      have hend : (pre ++ b.text).length + (text (b' :: bs) last).length
          = pre.length + (b.text ++ text (b' :: bs) last).length := by
        rw [List.length_append, List.length_append, Nat.add_assoc]
      have hcount : fn + 1 + (bs.length + 1 : ℕ) = fn + (bs.length + 1 + 1 : ℕ) := by omega
      rw [text_cons b, List.append_assoc, ← List.append_assoc, countTwo, hrun]
      dsimp only
      refine bump_bind fun hlt => ?_
      rw [← Block.text, hassoc, hscan]
      dsimp only
      rw [if_neg hq, ← hassoc, ih h.tail (fun b hb => hne b (List.mem_cons_of_mem _ hb)) hrest,
        hend, List.length_cons, hcount]

/-- Back over separators to the end of a piece. -/
theorem scanBack_run {piece : List Char} (hne : piece ≠ [])
    (hpiece : ∀ c ∈ piece, isSep c = false) (run : List Char) (hrun : ∀ c ∈ run, isSep c = true)
    (front post : List Char) :
    scanBack isSep (front ++ (piece ++ (run ++ post))) (front.length + piece.length + run.length)
      = some (front.length + piece.length) := by
  induction run using List.reverseRecOn generalizing post with
  | nil =>
      obtain ⟨piece, c, rfl⟩ := (List.eq_nil_or_concat' piece).resolve_left hne
      have hget : (front ++ (piece ++ [c] ++ post))[front.length + piece.length]? = some c := by
        rw [List.append_assoc]
        exact getElem?_middle front piece c post
      rw [List.length_append, List.length_singleton, List.length_nil, Nat.add_zero, ← Nat.add_assoc,
        List.nil_append, scanBack, hget, Option.bind_some,
        hpiece c (List.mem_append_right piece List.mem_cons_self), if_neg Bool.false_ne_true]
  | append_singleton run d ih =>
      obtain ⟨hrun, hd⟩ := List.forall_mem_append.mp hrun
      have hassoc : front ++ (piece ++ (run ++ [d] ++ post))
          = front ++ (piece ++ (run ++ d :: post)) := by
        rw [List.append_assoc run, List.singleton_append]
      have hget : (front ++ (piece ++ (run ++ d :: post)))[
          front.length + piece.length + run.length]? = some d := by
        have h := getElem?_middle (front ++ piece) run d post
        rwa [List.length_append, List.append_assoc] at h
      rw [hassoc, List.length_append, List.length_singleton, ← Nat.add_assoc, scanBack, hget,
        Option.bind_some, if_pos (hd d List.mem_cons_self)]
      exact ih hrun (d :: post)

/-- Nothing is trimmed behind a last piece that is not empty. -/
theorem trimTrailing_of_ne_nil (h : ∀ c ∈ last, isSep c = false) (hlast : last ≠ [])
    (front : List Char) (nfields fn : ℤ) :
    trimTrailing isSep nfields (front ++ (last ++ ['\x00'])) (front.length + last.length) fn
      = some (fn, front ++ (last ++ ['\x00'])) := by
  have hback := scanBack_run hlast h [] (fun c hc => absurd hc List.not_mem_nil) front ['\x00']
  rw [List.nil_append, List.length_nil, Nat.add_zero] at hback
  rw [trimTrailing, hback, Option.bind_some, getElem?_middle, Option.bind_some, if_pos rfl]

/-- Behind an empty last piece that piece does not count, and the string ends behind the piece in
front of it when that one is in the last field. -/
theorem trimTrailing_of_nil (h : b.Fits isSep) (hne : b.piece ≠ []) (hsepc : b.sepc ≠ '\x00')
    (front : List Char) {nfields : ℤ} (hmax : nfields < intMax) (fn : ℤ) :
    trimTrailing isSep nfields (front ++ (b.text ++ ['\x00'])) (front.length + b.text.length) fn
      = some (fn - 1, if fn = nfields + 1 then front ++ (b.piece ++ '\x00' :: b.run) ++ ['\x00']
          else front ++ (b.text ++ ['\x00'])) := by
  have hback := scanBack_run hne h.1 _ (List.forall_mem_cons.mpr h.2) front ['\x00']
  have hlen : front.length + b.text.length
      = front.length + b.piece.length + (b.sepc :: b.run).length := by
    rw [b.length_text, List.length_cons]
    omega
  have hget : (front ++ (b.text ++ ['\x00']))[front.length + b.piece.length]? = some b.sepc := by
    rw [Block.text, List.append_assoc]
    exact getElem?_middle front b.piece b.sepc _
  have hassoc : front ++ (b.text ++ ['\x00'])
      = front ++ (b.piece ++ (b.sepc :: b.run ++ ['\x00'])) := by
    rw [Block.text, List.append_assoc]
  rw [trimTrailing, hlen, hassoc, hback, ← hassoc, Option.bind_some, hget, Option.bind_some,
    if_neg hsepc, bump, if_pos hmax, Option.bind_some, store_block, Option.map_some]
  split <;> rfl

/-- Trimming behind blocks, when the last piece is empty. -/
theorem trimTrailing_blocks (h : Laid isSep bs []) (hbs : bs ≠ []) (hne : ∀ b ∈ bs, b.piece ≠ [])
    (hnul : '\x00' ∉ text bs []) (pre : List Char) {nfields : ℤ} (hmax : nfields < intMax) :
    trimTrailing isSep nfields (pre ++ (text bs [] ++ ['\x00'])) (pre.length + (text bs []).length)
        (nfields + bs.length)
      = some (nfields + bs.length - 1,
          pre ++ (cut '\x00' (if bs.length ≤ 1 then 2 else 1) bs [] ++ ['\x00'])) := by
  obtain ⟨init, b, rfl⟩ := (List.eq_nil_or_concat' bs).resolve_left hbs
  have hmem : b ∈ init ++ [b] := List.mem_append_right init List.mem_cons_self
  have htext : text (init ++ [b]) [] = init.flatMap Block.text ++ b.text := by simp [text]
  have hsepc : b.sepc ≠ '\x00' := by
    intro heq
    refine hnul ?_
    rw [htext, Block.text, heq]
    simp
  have htrim := trimTrailing_of_nil (h.1 b hmem) (hne b hmem) hsepc (pre ++ init.flatMap Block.text)
    hmax (nfields + (init ++ [b]).length)
  rw [List.append_assoc, ← List.append_assoc _ b.text, ← htext, List.length_append, Nat.add_assoc,
    ← List.length_append, ← htext] at htrim
  rw [htrim]
  cases init with
  | nil =>
      -- the only block is in the last field, so its string ends behind the piece
      rw [List.nil_append, if_pos (by simp), if_pos (by simp), cut_cons, cut_nil]
      simp
  | cons b' init =>
      have hlen : (b' :: init ++ [b]).length = init.length + 2 := by simp
      rw [hlen, if_neg (by omega), if_neg (by omega), cut_one]

/-- **Trimming** after the count: an empty last piece is taken off, and the string ends behind the
piece in front of it when that is the last field. -/
theorem trimTrailing_text (h : Laid isSep (b :: bs) last) (hne : ∀ b' ∈ b :: bs, b'.piece ≠ [])
    (hnul : '\x00' ∉ text (b :: bs) last) (pre : List Char) {nfields : ℤ}
    (hmax : nfields < intMax) :
    trimTrailing isSep nfields (pre ++ (text (b :: bs) last ++ ['\x00']))
        (pre.length + (text (b :: bs) last).length) (nfields + (bs.length + 1 : ℕ))
      = some (nfields + bs.length + (if last.isEmpty then 0 else 1),
          pre ++ (cut '\x00' (if last.isEmpty ∧ (b :: bs).length ≤ 1 then 2 else 1) (b :: bs) last
            ++ ['\x00'])) := by
  cases last with
  | nil =>
      have htrim := trimTrailing_blocks h (List.cons_ne_nil b bs) hne hnul pre hmax
      have hret : nfields + ((bs.length + 1 : ℕ) : ℤ) - 1 = nfields + bs.length + 0 := by omega
      rw [List.length_cons, hret] at htrim
      rw [htrim]
      simp only [List.isEmpty_nil, if_true, true_and, List.length_cons]
  | cons c last =>
      have htrim := trimTrailing_of_ne_nil h.2 (List.cons_ne_nil c last)
        (pre ++ (b :: bs).flatMap Block.text) nfields (nfields + (bs.length + 1 : ℕ))
      rw [List.append_assoc, ← List.append_assoc _ (c :: last), List.length_append, Nat.add_assoc,
        ← List.length_append, ← text] at htrim
      have hret : nfields + ((bs.length + 1 : ℕ) : ℤ) = nfields + bs.length + 1 := by omega
      simp only [List.isEmpty_cons, Bool.false_eq_true, if_false, false_and]
      rw [htrim, hret, cut_one]

/-- Two separators, and no separator is left. -/
theorem twoLoop_nil (h : ∀ c ∈ last, isSep c = false) (hnul : '\x00' ∉ last) (trimtrail : Bool)
    (pre : List Char) {fields : List ℕ} {n : ℕ} {nfields : ℤ}
    (hn : nfields = fields.length + (n + 1 : ℕ)) (hmax : nfields ≤ intMax) :
    twoLoop nfields isSep trimtrail (n + 1 : ℕ) fields (pre ++ (last ++ ['\x00'])) pre.length
      = outcome (trimtrail && last.isEmpty) fields pre (n + 1) [] last := by
  obtain ⟨hscan, hq⟩ := scanPiece_last h hnul pre
  have hret : nfields - (((n + 1 : ℕ) : ℤ) - 1) = fields.length + 1 := by omega
  have hdrop : nfields - (((n + 1 : ℕ) : ℤ) - 1 + 1) = fields.length := by omega
  rw [twoLoop, push_of_lt (by omega), Option.bind_some, hscan]
  dsimp only
  rw [if_pos hq, hret, hdrop]
  cases last with
  | nil =>
      rw [List.length_nil, Nat.add_zero] at hq
      rw [hq, List.isEmpty_nil, Bool.and_true]
      cases trimtrail with
      | false => rw [if_neg (by simp), outcome_nil pre [] (by omega)]
      | true =>
          rw [if_pos ⟨rfl, rfl⟩, outcome_true, List.length_nil, Nat.cast_zero, Int.add_zero,
            if_pos (by omega), cut_nil, allStarts_nil, List.take_succ_cons, List.take_nil]
  | cons c last =>
      have hc : (pre ++ (c :: last ++ ['\x00']))[pre.length]? = some c :=
        getElem?_middle pre [] c (last ++ ['\x00'])
      have hne : c ≠ '\x00' := fun heq => hnul (heq ▸ List.mem_cons_self)
      rw [if_neg fun h => hne (Option.some.inj (hc.symm.trans h.2)), List.isEmpty_cons,
        Bool.and_false, outcome_nil pre _ (by omega)]

/-- Two separators, and the last place of the vector. -/
theorem twoLoop_one (h : Laid isSep (b :: bs) last) (hz : isSep '\x00' = false)
    (hne : ∀ b ∈ bs, b.piece ≠ []) (hnul : '\x00' ∉ text (b :: bs) last) {trimtrail : Bool}
    (htrim : trimtrail = true → b.piece ≠ []) (pre : List Char) {fields : List ℕ} {nfields : ℤ}
    (hn : nfields = fields.length + 1) (hmax : nfields ≤ intMax) :
    twoLoop nfields isSep trimtrail 1 fields (pre ++ (text (b :: bs) last ++ ['\x00'])) pre.length
      = outcome (trimtrail && last.isEmpty) fields pre 1 (b :: bs) last := by
  obtain ⟨hpiece, hsepc, hrest⟩ := notMem_cons hnul
  obtain ⟨hscan, hq⟩ := scanPiece_block h.head hpiece hsepc pre (text bs last ++ ['\x00'])
  have hcount := countTwo_eq h hz hne hnul pre nfields
  have hassoc : text (b :: bs) last ++ ['\x00'] = b.text ++ (text bs last ++ ['\x00']) := by
    rw [text_cons, List.append_assoc]
  rw [twoLoop, push_of_lt (by omega), Option.bind_some, hassoc, hscan]
  dsimp only
  rw [if_neg hq, if_pos (by omega), ← hassoc, hcount]
  -- either the count gets to the terminator, or `fn` overflows
  by_cases hfits : nfields + (bs.length + 1 : ℕ) ≤ intMax
  · have hsize : (fields.length : ℤ) + (b :: bs).length + 1 ≤ intMax := by
      rw [List.length_cons]
      omega
    rw [if_pos hfits, Option.bind_some]
    dsimp only
    cases trimtrail with
    | false =>
        have hret : nfields + (bs.length + 1 : ℕ) = fields.length + (b :: bs).length + 1 := by
          rw [List.length_cons]
          omega
        rw [Bool.false_and, outcome_false, if_pos hsize, cut_one, take_one_allStarts, hret]
        rfl
    | true =>
        have hblocks : ∀ b' ∈ b :: bs, b'.piece ≠ [] :=
          List.forall_mem_cons.mpr ⟨htrim rfl, hne⟩
        have hret : nfields + bs.length = fields.length + (b :: bs).length := by
          rw [List.length_cons]
          omega
        rw [if_pos rfl, trimTrailing_text h hblocks hnul pre (by omega), Bool.true_and, outcome,
          if_pos hsize, take_one_allStarts, hret]
        rfl
  · have hsize : ¬ (fields.length : ℤ) + (b :: bs).length + 1 ≤ intMax := by
      rw [List.length_cons]
      omega
    rw [if_neg hfits, Option.bind_none, outcome, if_neg hsize]

/-- **The loop for two separators.** -/
theorem twoLoop_eq (h : Laid isSep bs last) (hz : isSep '\x00' = false)
    (hne : ∀ b ∈ bs.tail, b.piece ≠ []) (hnul : '\x00' ∉ text bs last) (trimtrail : Bool)
    (htrim : trimtrail = true → ∀ b ∈ bs, b.piece ≠ []) (pre : List Char) (fields : List ℕ) {n : ℕ}
    {nfields : ℤ} (hn : nfields = fields.length + (n + 1 : ℕ)) (hmax : nfields ≤ intMax) :
    twoLoop nfields isSep trimtrail (n + 1 : ℕ) fields (pre ++ (text bs last ++ ['\x00']))
        pre.length
      = outcome (trimtrail && last.isEmpty) fields pre (n + 1) bs last := by
  induction bs generalizing pre fields n with
  | nil => exact twoLoop_nil h.2 hnul trimtrail pre hn hmax
  | cons b bs ih =>
      cases n with
      | zero =>
          exact twoLoop_one h hz hne hnul (fun ht => htrim ht b List.mem_cons_self) pre hn hmax
      | succ n =>
          obtain ⟨hpiece, hsepc, hrest⟩ := notMem_cons hnul
          obtain ⟨hscan, hq⟩ := scanPiece_block h.head hpiece hsepc pre (text bs last ++ ['\x00'])
          have hrun := scanRun_block h.head pre '\x00'
            (head?_rest h.tail hz fun b hb => hne b (List.mem_of_mem_head? hb))
          have hfn : ((n + 1 + 1 : ℕ) : ℤ) - 1 = (n + 1 : ℕ) := by omega
          rw [text_cons, List.append_assoc, twoLoop, push_of_lt (by omega), Option.bind_some, hscan]
          dsimp only
          rw [if_neg hq, if_neg (by omega), store_block]
          dsimp only
          rw [hrun]
          dsimp only
          rw [hfn, ih h.tail (fun b hb => hne b (List.mem_of_mem_tail hb)) hrest
            (fun ht b hb => htrim ht b (List.mem_cons_of_mem _ hb)) _ _ (places_push hn pre.length),
            outcome_cons]

/-- **The pieces behind the last field are counted**, more separators. -/
theorem manyLoop_full (h : Laid isSep bs last) (hz : isSep '\x00' = false)
    (hne : ∀ b ∈ bs.tail, b.piece ≠ []) (hnul : '\x00' ∉ text bs last) (pre : List Char)
    (fields : List ℕ) {nfields fn : ℤ} (hfull : nfields ≤ fn) :
    manyLoop nfields isSep fn fields (pre ++ (text bs last ++ ['\x00'])) pre.length
      = if fn + (bs.length + 1 : ℕ) ≤ intMax then
          some ⟨fn + (bs.length + 1 : ℕ), fields, pre ++ (text bs last ++ ['\x00'])⟩
        else none := by
  induction bs generalizing pre fn with
  | nil =>
      obtain ⟨hscan, hq⟩ := scanPiece_last h.2 hnul pre
      rw [manyLoop, if_neg (by omega), Option.bind_some, text_nil]
      refine bump_bind fun hlt => ?_
      rw [hscan]
      dsimp only
      rw [if_pos hq, List.length_nil, if_pos (by omega)]
      rfl
  | cons b bs ih =>
      obtain ⟨hpiece, hsepc, hrest⟩ := notMem_cons hnul
      obtain ⟨hscan, hq⟩ := scanPiece_block h.head hpiece hsepc pre (text bs last ++ ['\x00'])
      have hrun : scanRun isSep (pre ++ b.text ++ (text bs last ++ ['\x00'])) _ = some _ :=
        scanRun_block h.head pre b.sepc
          (head?_rest h.tail hz fun b hb => hne b (List.mem_of_mem_head? hb))
      have hcount : fn + 1 + (bs.length + 1 : ℕ) = fn + (bs.length + 1 + 1 : ℕ) := by omega
      rw [manyLoop, if_neg (by omega), Option.bind_some, text_cons, List.append_assoc]
      refine bump_bind fun hlt => ?_
      rw [hscan]
      dsimp only
      rw [if_neg hq, if_neg (by omega)]
      dsimp only
      rw [← List.append_assoc, hrun]
      dsimp only
      rw [← Block.text, ih h.tail (fun b hb => hne b (List.mem_of_mem_tail hb)) hrest
        (pre ++ b.text) (by omega), List.length_cons, hcount]

/-- **The loop for more separators.** -/
theorem manyLoop_eq (h : Laid isSep bs last) (hz : isSep '\x00' = false)
    (hne : ∀ b ∈ bs.tail, b.piece ≠ []) (hnul : '\x00' ∉ text bs last) (pre : List Char)
    (fields : List ℕ) {n : ℕ} {nfields : ℤ} (hn : nfields = fields.length + (n + 1 : ℕ))
    (hmax : nfields ≤ intMax) :
    manyLoop nfields isSep fields.length fields (pre ++ (text bs last ++ ['\x00'])) pre.length
      = outcome false fields pre (n + 1) bs last := by
  induction bs generalizing pre fields n with
  | nil =>
      obtain ⟨hscan, hq⟩ := scanPiece_last h.2 hnul pre
      rw [manyLoop, if_pos (by omega), push_of_lt (by omega), Option.bind_some, bump,
        if_pos (by omega), Option.bind_some, text_nil, hscan]
      dsimp only
      rw [if_pos hq, outcome_nil pre last (by omega)]
  | cons b bs ih =>
      obtain ⟨hpiece, hsepc, hrest⟩ := notMem_cons hnul
      obtain ⟨hscan, hq⟩ := scanPiece_block h.head hpiece hsepc pre (text bs last ++ ['\x00'])
      have hhead := head?_rest h.tail hz fun b hb => hne b (List.mem_of_mem_head? hb)
      have htail : ∀ b ∈ bs.tail, b.piece ≠ [] := fun b hb => hne b (List.mem_of_mem_tail hb)
      rw [manyLoop, if_pos (by omega), push_of_lt (by omega), Option.bind_some, bump,
        if_pos (by omega), Option.bind_some, text_cons, List.append_assoc, hscan]
      dsimp only
      rw [if_neg hq]
      cases n with
      | zero =>
          -- that was the last place: the separator stays, and the rest is only counted
          have hrun : scanRun isSep (pre ++ b.text ++ (text bs last ++ ['\x00'])) _ = some _ :=
            scanRun_block h.head pre b.sepc hhead
          have hcount : (fields.length : ℤ) + 1 + (bs.length + 1 : ℕ)
              = fields.length + (b :: bs).length + 1 := by
            rw [List.length_cons]
            omega
          rw [if_neg (by omega)]
          dsimp only
          rw [← List.append_assoc, hrun]
          dsimp only
          rw [← Block.text, manyLoop_full h.tail hz htail hrest _ _ (by omega), outcome_false,
            cut_one, take_one_allStarts, hcount, text_cons, List.append_assoc, List.append_assoc]
      | succ n =>
          have hfn : (fields.length : ℤ) + 1 = (fields ++ [pre.length]).length := by
            rw [List.length_append, List.length_singleton]
            rfl
          rw [if_pos (by omega), store_block]
          dsimp only
          rw [scanRun_block h.head pre '\x00' hhead]
          dsimp only
          rw [hfn, ih h.tail htail hrest _ _ (places_push hn pre.length), outcome_cons]

end Loops

end Fgcom.Split
