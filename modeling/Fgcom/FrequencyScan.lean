import Fgcom.Lib.Loop
import Fgcom.Options
import Fgcom.SpecialFrequencies

/-! # The special-frequencies scan, on its buffer

`parser_get_next_value` walks over the content of the file with one `int` index, and
`read_special_frequencies` lets an array grow in chunks. Here every index that is read, copied or
written is kept, whatever stands in memory outside the file, and the counters are machine integers.

* **`parserStep`** — one test of one of the five loops of the scanner; **`parserGetNextValue`** — a
  whole call.
* **`stepGood`** — a step gets on and finds what `next` finds in the text, the scanner of the
  text model.
* **`readSpecialFrequencies`** — the calls and the writes to the array.
* **`scan_bounded_iff`** — the scan ends within its bounds, unless the file has as many bytes as the
  largest `int` and a number at its very end: then the index wraps. -/

namespace Fgcom.Indexed

open Loop

/-! ## The code -/

/-- What an `int` holds when a number is assigned to it. -/
def wrapInt (x : ℤ) : ℤ := x.bmod (2 ^ 32)

/-- What an `unsigned int` holds. -/
def wrapUnsigned (x : ℤ) : ℤ := x % 2 ^ 32

/-- `ALLOC_CHUNK_SIZE`. -/
def allocChunkSize : ℤ := 5

/-- Where the scanner stands: at the test of the main loop, or in one of the four loops inside. -/
inductive Pc
  | round | blanks | comment | search
  /-- Behind the first digit of a number, with `l_j`. -/
  | number (lJ : ℤ)

/-- The scanner: `s_index`, and the indices read so far. -/
structure Scanner where
  pc : Pc
  sIndex : ℤ
  reads : List ℤ

/-- A call that has returned: whether it returned 0, what `s_index` and `*value` are then, and which
indices were read and copied. -/
structure Call (R : Type) where
  ok : Bool
  sIndex : ℤ
  value : R
  reads : List ℤ
  copied : List ℤ

section Code

variable {R : Type} [CFloat R] (sContent : ℤ → Char) (sSize : ℤ)

/-- One step of `parser_get_next_value`: a test of the loop the scanner is in. The byte is read in
front of the test of the index. -/
def parserStep (value : R) : Scanner → Scanner ⊕ Call R
  | ⟨.round, i, reads⟩ =>
      if i < sSize then .inl ⟨.blanks, i, reads⟩ else .inr ⟨true, i, value, reads, []⟩
  | ⟨.blanks, i, reads⟩ =>
      if isBlank (sContent i) ∧ i < sSize then .inl ⟨.blanks, i + 1, i :: reads⟩
      else if sSize ≤ i then .inr ⟨false, i, value, i :: reads, []⟩
      else if sContent i = '\n' then .inl ⟨.round, i + 1, i :: reads⟩
      else if sContent i = '#' then .inl ⟨.comment, i, i :: reads⟩
      else .inl ⟨.search, i, i :: reads⟩
  | ⟨.comment, i, reads⟩ =>
      if sContent i ≠ '\n' ∧ i < sSize then .inl ⟨.comment, i + 1, i :: reads⟩
      else .inl ⟨.round, i, i :: reads⟩
  | ⟨.search, i, reads⟩ =>
      if (sContent i).isDigit = false ∧ i < sSize then .inl ⟨.search, i + 1, i :: reads⟩
      else if i < sSize then .inl ⟨.number (wrapUnsigned (i + 1)), i, i :: reads⟩
      else .inl ⟨.round, i, i :: reads⟩
  | ⟨.number lJ, i, reads⟩ =>
      if isNumberChar (sContent lJ) ∧ sContent lJ ≠ '\n' ∧ lJ < wrapUnsigned sSize then
        .inl ⟨.number (wrapUnsigned (lJ + 1)), i, lJ :: reads⟩
      else
        let lSize := wrapUnsigned (lJ - i + 1)
        -- `l_size - 1` bytes go to a buffer of zeroes
        let copied := (List.range (wrapUnsigned (lSize - 1)).toNat).map fun k : ℕ => i + (k : ℤ)
        .inr ⟨true, wrapInt (lJ + 1), CFloat.atof (cstr (copied.map sContent)), lJ :: reads, copied⟩

/-- As many steps as a call can take, from `s_index` on. -/
def callSteps (sIndex : ℤ) : ℕ := 5 * (sSize - sIndex).toNat + 4

/-- `parser_get_next_value`: `none` when it has not returned by then. -/
def parserGetNextValue (value : R) (sIndex : ℤ) : Option (Call R) :=
  if sSize ≤ sIndex then some ⟨false, sIndex, value, [], []⟩
  else run (parserStep sContent sSize value) (callSteps sSize sIndex) ⟨.round, sIndex, []⟩

/-- A write to the array: the index, the number of doubles allocated, and the value. -/
structure Write (R : Type) where
  index : ℤ
  room : ℤ
  value : R

/-- The variables of `read_special_frequencies`, with the number of doubles its array has room for
and what was done so far. -/
structure Reader (R : Type) where
  sIndex : ℤ
  lValue : R
  lCount : ℤ
  lAllocated : ℤ
  room : ℤ
  calls : ℕ
  writes : List (Write R)

/-- What is left when it returns. -/
structure Table (R : Type) where
  calls : ℕ
  writes : List (Write R)

/-- `l_pfrq[l_count] = l_value`, with `realloc` in front of it where the chunk is full. -/
def Reader.store (st : Reader R) (sIndex : ℤ) (lValue : R) : Reader R :=
  let lNewSize := wrapInt (allocChunkSize * (st.lCount.tdiv allocChunkSize + 1))
  let full : Bool := st.lAllocated ≤ st.lCount
  let room := if full then lNewSize else st.room
  { sIndex := sIndex
    lValue := lValue
    lCount := wrapInt (st.lCount + 1)
    lAllocated := if full then wrapInt (st.lAllocated + allocChunkSize) else st.lAllocated
    room := room
    calls := st.calls + 1
    writes := st.writes ++ [⟨st.lCount, room, lValue⟩] }

/-- The terminator, with `realloc` in front of it where the array is full. -/
def Reader.finish (st : Reader R) : Table R :=
  let room := if st.lCount = st.lAllocated then wrapInt (st.lCount + 1) else st.room
  ⟨st.calls + 1, st.writes ++ [⟨st.lCount, room, CFloat.lit (-1)⟩]⟩

/-- A round of the loop: a call, and a write when it returned 0. -/
def readStep (st : Reader R) : Reader R ⊕ Option (Table R) :=
  match parserGetNextValue sContent sSize st.lValue st.sIndex with
  | none => .inr none
  | some call =>
      if call.ok then .inl (st.store call.sIndex call.value) else .inr (some st.finish)

/-- `read_special_frequencies` on an open file. -/
def readSpecialFrequencies (lValue : R) : Option (Table R) :=
  (run (readStep sContent sSize) (sSize.toNat + 1)
    ⟨0, lValue, 0, allocChunkSize, allocChunkSize, 0, []⟩).bind id

end Code

/-! ## The bounds -/

/-- `s_size` of a file: its size, as an `int`. -/
def sizeOf (content : List Char) : ℤ := wrapInt content.length

/-- The bytes of a text stand in memory from index 0 on. -/
def Holds (sContent : ℤ → Char) (text : List Char) : Prop :=
  ∀ (k : ℕ) (c : Char), text[k]? = some c → sContent k = c

/-- A file in memory, with zeroes behind it and some byte everywhere in front of it. -/
def inMemory (front : Char) (content : List Char) (k : ℤ) : Char :=
  if k < 0 then front else content.getD k.toNat '\x00'

theorem holds_inMemory (front : Char) (content : List Char) :
    Holds (inMemory front content) content := by
  intro k c hc
  have hk : ¬ (k : ℤ) < 0 := by omega
  rw [inMemory, if_neg hk, Int.toNat_natCast, List.getD_eq_getElem?_getD, hc]
  rfl

/-- **The scan of a file ends within its bounds**, whatever stands in memory outside the file: each
call in front of the end returns and gets on, it reads no index above the file's size and copies
nothing from there on, and the array is written only where it has room, in at most one call more
than the file has bytes. -/
def ScanBounded (content : List Char) : Prop :=
  ∀ (R : Type) [CFloat R] (sContent : ℤ → Char) (value : R), Holds sContent content →
    (∀ sIndex : ℤ, 0 ≤ sIndex → sIndex < sizeOf content →
      ∃ call, parserGetNextValue sContent (sizeOf content) value sIndex = some call ∧
        sIndex < call.sIndex ∧
        (∀ k ∈ call.reads, 0 ≤ k ∧ k ≤ content.length) ∧
        ∀ k ∈ call.copied, 0 ≤ k ∧ k < content.length) ∧
    ∃ table, readSpecialFrequencies sContent (sizeOf content) value = some table ∧
      table.calls ≤ content.length + 1 ∧
      ∀ w ∈ table.writes, 0 ≤ w.index ∧ w.index < w.room

/-- **The index wraps**: the scanner sees as many bytes as the largest `int`, and the last of them
belong to a number. -/
def IndexWraps (content : List Char) : Prop :=
  sizeOf content = 2 ^ 31 - 1 ∧ ∃ run, IsRun run ∧ run <:+ content.take (2 ^ 31 - 1)

/-! ## A step finds what the text model finds -/

theorem wrapInt_of_nonneg {x : ℤ} (h0 : 0 ≤ x) (hx : x < 2 ^ 31) : wrapInt x = x :=
  bmod_eq_self_iff.mpr ⟨by omega, hx⟩

theorem wrapUnsigned_of_nonneg {x : ℤ} (h0 : 0 ≤ x) (hx : x < 2 ^ 32) : wrapUnsigned x = x :=
  Int.emod_eq_of_lt h0 hx

/-- What is found from an index on, by the place where the scanner stands. Of a number, the first
digits have been passed already. -/
def ahead (text : List Char) (i : ℕ) : Pc → Next
  | .round => next .line (text.drop i)
  | .blanks => next .blanks (text.drop i)
  | .comment => next .comment (text.drop i)
  | .search => next .text (text.drop i)
  | .number lJ =>
      .number ((text.drop i).take (lJ.toNat - i) ++ (text.drop lJ.toNat).takeWhile isNumberChar)
        (((text.drop lJ.toNat).dropWhile isNumberChar).drop 1)

/-- The scanner at an index, in a call that started at `i₀`: it has what the call is to find in
front of it, and has read nothing behind the text but the byte after it. -/
structure InvAt (text : List Char) (i₀ i : ℕ) (pc : Pc) (reads : List ℤ) : Prop where
  start : i₀ ≤ i
  le : i ≤ text.length
  ahead : ahead text i pc = next .line (text.drop i₀)
  reads : ∀ k ∈ reads, 0 ≤ k ∧ k ≤ text.length
  number : ∀ lJ, pc = .number lJ → ∃ j : ℕ, lJ = j ∧ i < j ∧ j ≤ text.length

/-- The invariant of a call. -/
def Inv (text : List Char) (i₀ : ℕ) (s : Scanner) : Prop :=
  ∃ i : ℕ, s.sIndex = i ∧ InvAt text i₀ i s.pc s.reads

/-- What a call returns for what it finds. -/
def Returned {R : Type} [CFloat R] (text : List Char) (i₀ : ℕ) (value : R) (call : Call R) :
    Next → Prop
  | .ended => call.ok = false ∧ call.sIndex = text.length
  | .stale => call.ok = true ∧ call.value = value ∧ call.sIndex = text.length
  | .number run rest =>
      call.ok = true ∧ call.value = CFloat.atof run ∧
        ∃ j : ℕ, i₀ + run.length ≤ j ∧ j ≤ text.length ∧ run <:+ text.take j ∧
          (∀ c ∈ (text.drop j).head?, isNumberChar c = false) ∧
          rest = text.drop (j + 1) ∧ call.sIndex = wrapInt (j + 1)

/-- What holds of a call that has returned. -/
structure Post {R : Type} [CFloat R] (text : List Char) (i₀ : ℕ) (value : R) (call : Call R) :
    Prop where
  reads : ∀ k ∈ call.reads, 0 ≤ k ∧ k ≤ text.length
  copied : ∀ k ∈ call.copied, 0 ≤ k ∧ k < text.length
  found : Returned text i₀ value call (next .line (text.drop i₀))

/-- A bound on the steps left, by what is left of the text and where the scanner stands. A comment
or a search that stands still goes back to the main loop. -/
def stepsLeft (sContent : ℤ → Char) (sSize : ℤ) (s : Scanner) : ℕ :=
  match s.pc with
  | .round => 5 * (sSize - s.sIndex).toNat + 3
  | .blanks => 5 * (sSize - s.sIndex).toNat + 2
  | .comment =>
      5 * (sSize - s.sIndex).toNat + if sContent s.sIndex ≠ '\n' ∧ s.sIndex < sSize then 1 else 4
  | .search => 5 * (sSize - s.sIndex).toNat + if s.sIndex < sSize then 1 else 4
  | .number lJ => (sSize - lJ).toNat

section Step

variable {R : Type} [CFloat R] {sContent : ℤ → Char} {text : List Char} {i₀ i : ℕ}
  {reads : List ℤ}

/-- The byte at an index within the text. -/
theorem drop_eq_cons (hT : Holds sContent text) (hi : i < text.length) :
    text.drop i = sContent i :: text.drop (i + 1) := by
  rw [List.drop_eq_getElem_cons hi, hT i text[i] (List.getElem?_eq_getElem hi)]

/-- One more index is read. -/
theorem forall_mem_reads {j : ℕ} (hreads : ∀ k ∈ reads, 0 ≤ k ∧ k ≤ (text.length : ℤ))
    (hj : j ≤ text.length) : ∀ k ∈ (j : ℤ) :: reads, 0 ≤ k ∧ k ≤ (text.length : ℤ) :=
  List.forall_mem_cons.mpr ⟨⟨Int.natCast_nonneg j, Int.ofNat_le.mpr hj⟩, hreads⟩

variable (value : R)

/-- What a step is to do. -/
def StepGood (sContent : ℤ → Char) (text : List Char) (i₀ : ℕ) (value : R) (s : Scanner) : Prop :=
  Good (Inv text i₀) (stepsLeft sContent text.length) (Post text i₀ value) s
    (parserStep sContent text.length value s)

/-- The test of the main loop. -/
theorem stepGood_round (h : InvAt text i₀ i .round reads) :
    StepGood sContent text i₀ value ⟨.round, i, reads⟩ := by
  obtain ⟨hstart, hle, hahead, hreads, -⟩ := h
  unfold StepGood
  rw [parserStep]
  by_cases hi : i < text.length
  · rw [if_pos (Int.ofNat_lt.mpr hi)]
    have hne : text.drop i ≠ [] := by simpa using hi
    refine ⟨⟨i, rfl, hstart, hle, ?_, hreads, fun lJ h => Pc.noConfusion h⟩, Nat.lt_succ_self _⟩
    exact (next_blanks_of_ne hne).trans hahead
  · obtain rfl : i = text.length := by omega
    rw [if_neg (lt_irrefl _)]
    refine ⟨hreads, by simp, ?_⟩
    rw [← hahead, Indexed.ahead, List.drop_length]
    exact ⟨rfl, rfl, rfl⟩

/-- The loop over blanks, and what the scanner does behind them. -/
theorem stepGood_blanks (hT : Holds sContent text) (h : InvAt text i₀ i .blanks reads) :
    StepGood sContent text i₀ value ⟨.blanks, i, reads⟩ := by
  obtain ⟨hstart, hle, hahead, hreads, -⟩ := h
  have hreads' := forall_mem_reads hreads hle
  unfold StepGood
  rw [parserStep]
  by_cases hi : i < text.length
  · have hlt : (i : ℤ) < text.length := Int.ofNat_lt.mpr hi
    rw [Indexed.ahead, drop_eq_cons hT hi, next_blanks_cons, next_line_cons] at hahead
    by_cases hblank : isBlank (sContent i) = true
    · rw [if_pos ⟨hblank, hlt⟩]
      rw [if_pos hblank] at hahead
      exact ⟨⟨i + 1, by simp, by omega, hi, hahead, hreads', fun lJ h => Pc.noConfusion h⟩,
        by simp only [stepsLeft]; omega⟩
    · rw [if_neg fun h => hblank h.1, if_neg (not_le.mpr hlt)]
      rw [if_neg hblank] at hahead
      by_cases hnl : sContent i = '\n'
      · rw [if_pos hnl]
        rw [if_pos hnl] at hahead
        exact ⟨⟨i + 1, by simp, by omega, hi, hahead, hreads', fun lJ h => Pc.noConfusion h⟩,
          by simp only [stepsLeft]; omega⟩
      · rw [if_neg hnl]
        rw [if_neg hnl] at hahead
        by_cases hhash : sContent i = '#'
        · rw [if_pos hhash]
          rw [if_pos hhash] at hahead
          refine ⟨⟨i, rfl, hstart, hle, ?_, hreads', fun lJ h => Pc.noConfusion h⟩, ?_⟩
          · rw [Indexed.ahead, drop_eq_cons hT hi, next, if_neg hnl]
            exact hahead
          · simp only [stepsLeft, if_pos (And.intro hnl hlt)]
            omega
        · rw [if_neg hhash]
          rw [if_neg hhash] at hahead
          refine ⟨⟨i, rfl, hstart, hle, ?_, hreads', fun lJ h => Pc.noConfusion h⟩, ?_⟩
          · rw [Indexed.ahead, drop_eq_cons hT hi, next]
            exact hahead
          · simp only [stepsLeft, if_pos hlt]
            omega
  · -- the end of the file behind blanks
    obtain rfl : i = text.length := by omega
    rw [if_neg fun h => lt_irrefl _ h.2, if_pos le_rfl]
    refine ⟨hreads', by simp, ?_⟩
    rw [← hahead, Indexed.ahead, List.drop_length]
    exact ⟨rfl, rfl⟩

/-- The loop over a comment. -/
theorem stepGood_comment (hT : Holds sContent text) (h : InvAt text i₀ i .comment reads) :
    StepGood sContent text i₀ value ⟨.comment, i, reads⟩ := by
  obtain ⟨hstart, hle, hahead, hreads, -⟩ := h
  have hreads' := forall_mem_reads hreads hle
  unfold StepGood
  rw [parserStep]
  by_cases hstep : sContent i ≠ '\n' ∧ (i : ℤ) < text.length
  · rw [if_pos hstep]
    have hi : i < text.length := Int.ofNat_lt.mp hstep.2
    rw [Indexed.ahead, drop_eq_cons hT hi, next, if_neg hstep.1] at hahead
    refine ⟨⟨i + 1, by simp, by omega, hi, hahead, hreads', fun lJ h => Pc.noConfusion h⟩, ?_⟩
    simp only [stepsLeft, if_pos hstep]
    split <;> omega
  · rw [if_neg hstep]
    refine ⟨⟨i, rfl, hstart, hle, ?_, hreads', fun lJ h => Pc.noConfusion h⟩, ?_⟩
    · rw [← hahead, Indexed.ahead, Indexed.ahead]
      by_cases hi : i < text.length
      · -- the end of the line, which the main loop steps over
        have hnl : sContent i = '\n' := by
          by_contra hnl
          exact hstep ⟨hnl, Int.ofNat_lt.mpr hi⟩
        rw [drop_eq_cons hT hi, hnl]
        rfl
      · rw [List.drop_of_length_le (not_lt.mp hi)]
        rfl
    · simp only [stepsLeft, if_neg hstep]
      omega

/-- The search for a digit. -/
theorem stepGood_search (hT : Holds sContent text) (hS : (text.length : ℤ) < 2 ^ 31)
    (h : InvAt text i₀ i .search reads) :
    StepGood sContent text i₀ value ⟨.search, i, reads⟩ := by
  obtain ⟨hstart, hle, hahead, hreads, -⟩ := h
  have hreads' := forall_mem_reads hreads hle
  unfold StepGood
  rw [parserStep]
  by_cases hi : i < text.length
  · have hlt : (i : ℤ) < text.length := Int.ofNat_lt.mpr hi
    rw [Indexed.ahead, drop_eq_cons hT hi, next] at hahead
    by_cases hdigit : (sContent i).isDigit = true
    · -- the first digit of the number
      rw [if_neg fun h => Bool.false_ne_true (h.1.symm.trans hdigit), if_pos hlt,
        wrapUnsigned_of_nonneg (by omega) (by omega)]
      rw [if_pos hdigit] at hahead
      refine ⟨⟨i, rfl, hstart, hle, ?_, hreads', ?_⟩, ?_⟩
      · have hone : ((i : ℤ) + 1).toNat = i + 1 := by omega
        rw [Indexed.ahead, hone, Nat.add_sub_cancel_left, drop_eq_cons hT hi, List.take_succ_cons,
          List.take_zero]
        exact hahead
      · intro lJ h
        obtain rfl := Pc.number.inj h
        exact ⟨i + 1, by simp, by omega, hi⟩
      · simp only [stepsLeft, if_pos hlt]
        omega
    · rw [if_pos ⟨Bool.eq_false_iff.mpr hdigit, hlt⟩]
      rw [if_neg hdigit] at hahead
      refine ⟨⟨i + 1, by simp, by omega, hi, hahead, hreads', fun lJ h => Pc.noConfusion h⟩, ?_⟩
      simp only [stepsLeft, if_pos hlt]
      split <;> omega
  · obtain rfl : i = text.length := by omega
    rw [if_neg fun h => lt_irrefl _ h.2, if_neg (lt_irrefl _)]
    refine ⟨⟨text.length, rfl, hstart, hle, ?_, hreads', fun lJ h => Pc.noConfusion h⟩, ?_⟩
    · rw [← hahead, Indexed.ahead, Indexed.ahead, List.drop_length]
      rfl
    · simp only [stepsLeft, if_neg (lt_irrefl _)]
      omega

/-- The bytes between two indices, as they stand in memory. -/
theorem map_range_eq {j : ℕ} (hT : Holds sContent text) (hj : j ≤ text.length) :
    ((List.range (j - i)).map fun k : ℕ => (i : ℤ) + (k : ℤ)).map sContent
      = (text.drop i).take (j - i) := by
  refine List.ext_getElem? fun k => ?_
  rw [List.map_map, List.getElem?_map, List.getElem?_take]
  by_cases hk : k < j - i
  · have hlt : i + k < text.length := by omega
    rw [List.getElem?_range hk, if_pos hk, List.getElem?_drop, List.getElem?_eq_getElem hlt,
      Option.map_some, Function.comp_apply, ← Int.natCast_add,
      hT (i + k) text[i + k] (List.getElem?_eq_getElem hlt)]
  · rw [if_neg hk, List.getElem?_eq_none (by simpa using hk), Option.map_none]

/-- A number does not go on over the end of a line. -/
theorem ne_newline_of_isNumberChar {c : Char} (hc : isNumberChar c = true) : c ≠ '\n' := by
  rintro rfl
  exact absurd hc (by decide)

/-- A number holds no NUL. -/
theorem nul_notMem_of_isRun {run : List Char} (h : IsRun run) : '\x00' ∉ run := by
  obtain ⟨c, t, rfl, hc, ht⟩ := h
  rw [List.mem_cons, not_or]
  refine ⟨?_, fun hmem => absurd (ht _ hmem) (by decide)⟩
  rintro rfl
  exact absurd hc (by decide)

/-- Nothing is passed in front of another character. -/
theorem dropWhile_of_head? {s : List Char} (h : ∀ c ∈ s.head?, isNumberChar c = false) :
    s.takeWhile isNumberChar = [] ∧ s.dropWhile isNumberChar = s := by
  cases s with
  | nil => exact ⟨rfl, rfl⟩
  | cons c t =>
      have hc : ¬ isNumberChar c = true := Bool.eq_false_iff.mp (h c rfl)
      exact ⟨List.takeWhile_cons_of_neg hc, List.dropWhile_cons_of_neg hc⟩

/-- One more byte of a number is passed. -/
theorem take_drop_succ (hT : Holds sContent text) {j : ℕ} (hij : i < j) (hj : j < text.length) :
    (text.drop i).take (j + 1 - i) = (text.drop i).take (j - i) ++ [sContent j] := by
  have hbyte : (text.drop i)[j - i]? = some (sContent j) := by
    rw [List.getElem?_drop, Nat.add_sub_cancel' hij.le, List.getElem?_eq_getElem hj,
      hT j text[j] (List.getElem?_eq_getElem hj)]
  rw [Nat.succ_sub hij.le, List.take_add_one, hbyte]
  rfl

/-- Where the loop over a number stops, the number ends. -/
theorem head?_of_stop (hT : Holds sContent text) {j : ℕ}
    (hstop : ¬ (isNumberChar (sContent j) = true ∧ sContent j ≠ '\n' ∧ (j : ℤ) < text.length)) :
    ∀ c ∈ (text.drop j).head?, isNumberChar c = false := by
  intro c hc
  by_cases hlt : j < text.length
  · rw [drop_eq_cons hT hlt] at hc
    obtain rfl := Option.some.inj hc
    by_contra hchar
    have hchar : isNumberChar (sContent j) = true := by simpa using hchar
    exact hstop ⟨hchar, ne_newline_of_isNumberChar hchar, Int.ofNat_lt.mpr hlt⟩
  · rw [List.drop_of_length_le (not_lt.mp hlt)] at hc
    exact absurd hc (by simp)

/-- As many bytes are copied as the number has, the wrap of the sizes notwithstanding. -/
theorem copied_length {j : ℕ} (hij : i < j) (hj : (j : ℤ) < 2 ^ 31) :
    (wrapUnsigned (wrapUnsigned ((j : ℤ) - i + 1) - 1)).toNat = j - i := by
  have hsize : wrapUnsigned ((j : ℤ) - i + 1) = (j : ℤ) - i + 1 :=
    wrapUnsigned_of_nonneg (by omega) (by omega)
  have hless : wrapUnsigned ((j : ℤ) - i) = (j : ℤ) - i :=
    wrapUnsigned_of_nonneg (by omega) (by omega)
  rw [hsize, add_sub_cancel_right, hless]
  omega

/-- The loop over a number, and what is done with it. -/
theorem stepGood_number (hT : Holds sContent text) (hS : (text.length : ℤ) < 2 ^ 31) {lJ : ℤ}
    (h : InvAt text i₀ i (.number lJ) reads) :
    StepGood sContent text i₀ value ⟨.number lJ, i, reads⟩ := by
  obtain ⟨hstart, hle, hahead, hreads, hnumber⟩ := h
  obtain ⟨j, rfl, hij, hj⟩ := hnumber lJ rfl
  have hreads' := forall_mem_reads hreads hj
  have hsize : wrapUnsigned text.length = text.length :=
    wrapUnsigned_of_nonneg (by omega) (by omega)
  unfold StepGood
  rw [parserStep, hsize]
  by_cases hstep : isNumberChar (sContent j) = true ∧ sContent j ≠ '\n' ∧ (j : ℤ) < text.length
  · rw [if_pos hstep, wrapUnsigned_of_nonneg (by omega) (by omega)]
    have hlt : j < text.length := Int.ofNat_lt.mp hstep.2.2
    refine ⟨⟨i, rfl, hstart, hle, ?_, hreads', ?_⟩, ?_⟩
    · have hone : ((j : ℤ) + 1).toNat = j + 1 := by omega
      rw [← hahead, Indexed.ahead, Indexed.ahead, hone, Int.toNat_natCast,
        take_drop_succ hT hij hlt, drop_eq_cons hT hlt, List.takeWhile_cons_of_pos hstep.1,
        List.dropWhile_cons_of_pos hstep.1, List.append_assoc]
      rfl
    · intro lJ h
      obtain rfl := Pc.number.inj h
      exact ⟨j + 1, by simp, by omega, hlt⟩
    · simp only [stepsLeft]
      omega
  · rw [if_neg hstep]
    have hstop := head?_of_stop hT hstep
    have hrest := dropWhile_of_head? hstop
    rw [Indexed.ahead, Int.toNat_natCast, hrest.1, hrest.2, List.append_nil, List.drop_drop]
      at hahead
    generalize hrun : (text.drop i).take (j - i) = run at hahead
    have hlen : run.length = j - i := by
      rw [← hrun, List.length_take, List.length_drop]
      omega
    have hcopied := copied_length hij (by omega)
    obtain ⟨-, -, -, -, hisRun, -⟩ := exists_front_of_next hahead.symm
    have hnul := nul_notMem_of_isRun hisRun
    refine ⟨hreads', ?_, ?_⟩
    · intro k hk
      simp only [hcopied, List.mem_map, List.mem_range] at hk
      obtain ⟨m, hm, rfl⟩ := hk
      omega
    · rw [← hahead]
      simp only [hcopied, map_range_eq hT hj, hrun, cstr_of_notMem hnul]
      have htake : text.take j = text.take i ++ run := by
        rw [← hrun, ← List.take_add, Nat.add_sub_cancel' hij.le]
      have hsuffix : run <:+ text.take j := htake ▸ List.suffix_append _ _
      refine ⟨rfl, rfl, j, by omega, hj, hsuffix, hstop, rfl, ?_⟩
      dsimp only

/-- **Every step of a call gets on**, and the last one returns what the text model finds. -/
theorem stepGood (hT : Holds sContent text) (hS : (text.length : ℤ) < 2 ^ 31) {s : Scanner}
    (h : Inv text i₀ s) : StepGood sContent text i₀ value s := by
  obtain ⟨pc, sIndex, reads⟩ := s
  obtain ⟨i, rfl, h⟩ := h
  cases pc with
  | round => exact stepGood_round value h
  | blanks => exact stepGood_blanks value hT h
  | comment => exact stepGood_comment value hT h
  | search => exact stepGood_search value hT hS h
  | number lJ => exact stepGood_number value hT hS h

/-- **A call in front of the end returns.** -/
theorem exists_call (hT : Holds sContent text) (hS : (text.length : ℤ) < 2 ^ 31)
    (hi : i₀ < text.length) :
    ∃ call, parserGetNextValue sContent text.length value i₀ = some call ∧
      Post text i₀ value call := by
  have hstart : Inv text i₀ ⟨.round, i₀, []⟩ :=
    ⟨i₀, rfl, le_rfl, hi.le, rfl, by simp, fun lJ h => Pc.noConfusion h⟩
  have hsteps : stepsLeft sContent text.length ⟨.round, i₀, []⟩ < callSteps text.length i₀ :=
    Nat.lt_succ_self _
  rw [parserGetNextValue, if_neg (not_le.mpr (Int.ofNat_lt.mpr hi))]
  exact exists_run (fun s => stepGood value hT hS) hstart hsteps

end Step

/-! ## The index -/

/-- The index wraps at the end of a text. -/
def WrapsBehind (text : List Char) : Prop :=
  (text.length : ℤ) = 2 ^ 31 - 1 ∧ ∃ run, IsRun run ∧ run <:+ text

section Index

variable {R : Type} [CFloat R] {text : List Char} {i₀ : ℕ} {value : R} {call : Call R}

/-- Where a call leaves the index: further on, by two bytes at least if not at the end. -/
theorem Post.sIndex (h : Post text i₀ value call) (hS : (text.length : ℤ) < 2 ^ 31)
    (hwrap : ¬ WrapsBehind text) :
    ∃ e : ℕ, call.sIndex = e ∧ (e = text.length ∨ i₀ + 2 ≤ e) ∧ e ≤ text.length + 1 ∧
      (next .line (text.drop i₀)).result value
        = if call.ok then some (call.value, text.drop e) else none := by
  have hfound := h.found
  cases hnext : next .line (text.drop i₀) with
  | ended =>
      rw [hnext] at hfound
      obtain ⟨hok, hindex⟩ := hfound
      exact ⟨text.length, hindex, Or.inl rfl, Nat.le_succ _, by rw [hok]; rfl⟩
  | stale =>
      rw [hnext] at hfound
      obtain ⟨hok, hvalue, hindex⟩ := hfound
      refine ⟨text.length, hindex, Or.inl rfl, Nat.le_succ _, ?_⟩
      rw [hok, hvalue, List.drop_length]
      rfl
  | number run rest =>
      rw [hnext] at hfound
      obtain ⟨hok, hvalue, j, hrun, hj, hsuffix, -, hrest, hindex⟩ := hfound
      obtain ⟨-, -, -, -, hisRun, -⟩ := exists_front_of_next hnext
      have hpos : 0 < run.length := by
        obtain ⟨c, t, rfl, -⟩ := hisRun
        exact Nat.succ_pos _
      -- a number at the very end is where the index would wrap
      have hfits : (j : ℤ) + 1 < 2 ^ 31 := by
        by_contra hbig
        obtain rfl : j = text.length := by omega
        rw [List.take_length] at hsuffix
        exact hwrap ⟨by omega, run, hisRun, hsuffix⟩
      refine ⟨j + 1, ?_, Or.inr (by omega), by omega, ?_⟩
      · rw [hindex, wrapInt_of_nonneg (by omega) hfits, Nat.cast_succ]
      · rw [hok, hvalue, ← hrest]
        rfl

end Index

/-! ## The array -/

section Array

variable {R : Type} [CFloat R] {sContent : ℤ → Char} {text : List Char} {value : R}

/-- The invariant of `read_special_frequencies`: the counters do not wrap, the array has room for
what was counted, and the values written are those the text model reads first. -/
structure ReaderInv (text : List Char) (value : R) (st : Reader R) (e : ℕ) : Prop where
  index : st.sIndex = e
  index_le : e ≤ text.length + 1
  count : st.lCount = st.calls
  gain : 2 * st.calls ≤ e ∨ e = text.length ∧ 2 * st.calls ≤ text.length + 1
  calls_le : st.calls + (text.length - e) ≤ text.length
  allocated : st.lAllocated = st.room
  chunks : ∃ chunks : ℕ, st.room = 5 * chunks
  count_le : st.lCount ≤ st.room
  room_le : st.room ≤ st.lCount + 5
  writes : ∀ w ∈ st.writes, 0 ≤ w.index ∧ w.index < w.room
  indices : st.writes.map Write.index = (List.range st.calls).map fun k : ℕ => (k : ℤ)
  values : ∀ n array, readLoop n st.lValue (text.drop e) = some array →
    readLoop (st.calls + n) value text = some (st.writes.map Write.value ++ array)

/-- What holds of the table. -/
structure TablePost (text : List Char) (value : R) (table : Table R) : Prop where
  calls_le : table.calls ≤ text.length + 1
  writes : ∀ w ∈ table.writes, 0 ≤ w.index ∧ w.index < w.room
  indices : table.writes.map Write.index
    = (List.range table.writes.length).map fun k : ℕ => (k : ℤ)
  values : Fgcom.readSpecialFrequencies value text = some (table.writes.map Write.value)

/-- One more chunk where the array is full. -/
theorem wrapInt_newSize {lCount : ℤ} {chunks : ℕ} (hcount : lCount = 5 * chunks)
    (hbound : lCount + 5 < 2 ^ 31) :
    wrapInt (allocChunkSize * (lCount.tdiv allocChunkSize + 1)) = lCount + 5 := by
  have hdiv : lCount.tdiv allocChunkSize = chunks := by
    rw [hcount]
    exact Int.mul_tdiv_cancel_left _ (by decide)
  have hsize : allocChunkSize * ((chunks : ℤ) + 1) = lCount + 5 := by
    rw [hcount, allocChunkSize]
    ring
  rw [hdiv, hsize]
  exact wrapInt_of_nonneg (by omega) hbound

/-- A write finds room, in whole chunks and no more than one of them free. -/
theorem exists_room {st : Reader R} {e : ℕ} (h : ReaderInv text value st e) (h0 : 0 ≤ st.lCount)
    (hbound : st.lCount + 5 < 2 ^ 31) (sIndex : ℤ) (lValue : R) :
    ∃ room, st.store sIndex lValue
        = ⟨sIndex, lValue, st.lCount + 1, room, room, st.calls + 1,
            st.writes ++ [⟨st.lCount, room, lValue⟩]⟩ ∧
      st.lCount < room ∧ room ≤ st.lCount + 6 ∧ ∃ chunks : ℕ, room = 5 * chunks := by
  obtain ⟨-, -, -, -, -, hallocated, ⟨chunks, hchunks⟩, hle, hroom, -, -, -⟩ := h
  have hlCount : wrapInt (st.lCount + 1) = st.lCount + 1 :=
    wrapInt_of_nonneg (by omega) (by omega)
  by_cases hfull : st.lAllocated ≤ st.lCount
  · -- the array is full, and grows by a chunk
    have hsame : st.lCount = st.room := le_antisymm hle (hallocated ▸ hfull)
    have hnew := wrapInt_newSize (hsame.trans hchunks) hbound
    have hallocated' : wrapInt (st.lAllocated + allocChunkSize) = st.lCount + 5 := by
      rw [hallocated, ← hsame, allocChunkSize]
      exact wrapInt_of_nonneg (by omega) hbound
    refine ⟨st.lCount + 5, ?_, by omega, by omega, chunks + 1, by push_cast; omega⟩
    simp only [Reader.store, hfull, hnew, hallocated', hlCount, decide_true, if_true]
  · refine ⟨st.room, ?_, by omega, by omega, chunks, hchunks⟩
    rw [hallocated] at hfull
    simp only [Reader.store, hfull, hlCount, hallocated, decide_false, Bool.false_eq_true, if_false]

/-- Writing a value keeps the array's room ahead of its count. -/
theorem readerInv_store {st : Reader R} {e e' : ℕ} {lValue : R}
    (hS : (text.length : ℤ) < 2 ^ 31) (h : ReaderInv text value st e) (he : e < text.length)
    (hgain : e' = text.length ∨ e + 2 ≤ e') (he' : e' ≤ text.length + 1)
    (hcall : Fgcom.parserGetNextValue st.lValue (text.drop e)
      = some (some (lValue, text.drop e'))) :
    ReaderInv text value (st.store e' lValue) e' := by
  have hstored := exists_room h
  obtain ⟨-, -, hcount, hbefore, hcalls, -, -, -, -, hwrites, hindices, hvalues⟩ := h
  -- each value takes two bytes, but for one at the end
  have htwo : 2 * st.calls ≤ e := hbefore.resolve_right fun h => absurd h.1 he.ne
  obtain ⟨room, hstore, hmore, hbelow, hchunks⟩ :=
    hstored (by omega) (by omega) e' lValue
  rw [hstore]
  refine ⟨rfl, he', ?_, ?_, ?_, rfl, hchunks, ?_, ?_, ?_, ?_, ?_⟩
  · rw [hcount, Nat.cast_succ]
  · rcases hgain with rfl | hgain
    · exact Or.inr ⟨rfl, by dsimp only; omega⟩
    · exact Or.inl (by dsimp only; omega)
  · dsimp only
    omega
  · dsimp only
    omega
  · dsimp only
    omega
  · rw [List.forall_mem_append]
    exact ⟨hwrites, by simpa using ⟨by omega, hmore⟩⟩
  · simp [List.range_succ, hindices, hcount]
  · intro n array harray
    have hnext : readLoop (n + 1) st.lValue (text.drop e) = some (lValue :: array) := by
      rw [readLoop, hcall]
      show (readLoop n lValue (text.drop e')).map (lValue :: ·) = _
      rw [harray]
      rfl
    have hsum : st.calls + 1 + n = st.calls + (n + 1) := by omega
    dsimp only
    rw [hsum, hvalues (n + 1) (lValue :: array) hnext, List.map_append, List.append_assoc]
    rfl

/-- Writing the terminator. -/
theorem tablePost_finish {st : Reader R} {e : ℕ} (hS : (text.length : ℤ) < 2 ^ 31)
    (h : ReaderInv text value st e)
    (hcall : Fgcom.parserGetNextValue st.lValue (text.drop e) = some none) :
    TablePost text value st.finish := by
  obtain ⟨-, he, hcount, hgain, hcalls, hallocated, -, hle, hroom, hwrites, hindices, hvalues⟩ := h
  have hlength : st.writes.length = st.calls := by simpa using congrArg List.length hindices
  have hlCount : wrapInt (st.lCount + 1) = st.lCount + 1 :=
    wrapInt_of_nonneg (by omega) (by omega)
  obtain ⟨room, hfinish, hmore⟩ : ∃ room, st.finish
      = ⟨st.calls + 1, st.writes ++ [⟨st.lCount, room, CFloat.lit (-1)⟩]⟩ ∧ st.lCount < room := by
    by_cases hfull : st.lCount = st.lAllocated
    · exact ⟨st.lCount + 1, by rw [Reader.finish, if_pos hfull, hlCount], by omega⟩
    · exact ⟨st.room, by rw [Reader.finish, if_neg hfull], by omega⟩
  rw [hfinish]
  refine ⟨by dsimp only; omega, ?_, ?_, ?_⟩
  · rw [List.forall_mem_append]
    exact ⟨hwrites, by simpa using ⟨by omega, hmore⟩⟩
  · simp [List.range_succ, hindices, hcount, hlength]
  · -- the text model has rounds to spare
    obtain ⟨n, hn⟩ : ∃ n, text.length + 1 = st.calls + (n + 1) :=
      ⟨text.length - st.calls, by omega⟩
    have hnil : readLoop (n + 1) st.lValue (text.drop e) = some [] := by
      rw [readLoop, hcall]
      rfl
    rw [Fgcom.readSpecialFrequencies, hn, hvalues (n + 1) [] hnil, List.append_nil, List.map_append]
    rfl

/-- The text model behind the end. -/
theorem parserGetNextValue_of_length_le {e : ℕ} (lValue : R) (he : text.length ≤ e) :
    Fgcom.parserGetNextValue lValue (text.drop e) = some none := by
  rw [List.drop_of_length_le he]
  rfl

/-- **A round of `read_special_frequencies`** gets on, or ends with the table. -/
theorem readStep_good (hT : Holds sContent text) (hS : (text.length : ℤ) < 2 ^ 31)
    (hwrap : ¬ WrapsBehind text) {st : Reader R} (h : ∃ e, ReaderInv text value st e) :
    Good (fun st => ∃ e, ReaderInv text value st e)
      (fun st => ((text.length : ℤ) - st.sIndex).toNat)
      (fun t => ∃ table, t = some table ∧ TablePost text value table) st
      (readStep sContent text.length st) := by
  obtain ⟨e, h⟩ := h
  have hindex := h.index
  rw [readStep, hindex]
  by_cases he : e < text.length
  · obtain ⟨call, hcall, hpost⟩ := exists_call st.lValue hT hS he
    obtain ⟨e', hindex', hgain, he', hresult⟩ := hpost.sIndex hS hwrap
    have htext := parserGetNextValue_of_ne (s := text.drop e) (by simpa using he) st.lValue
    rw [hresult] at htext
    rw [hcall]
    dsimp only
    cases hok : call.ok with
    | true =>
        rw [hok, if_pos rfl] at htext
        rw [if_pos rfl, hindex']
        refine ⟨⟨e', readerInv_store hS h he hgain he' htext⟩, ?_⟩
        simp only [Reader.store, hindex]
        omega
    | false =>
        rw [hok, if_neg Bool.false_ne_true] at htext
        rw [if_neg Bool.false_ne_true]
        exact ⟨st.finish, rfl, tablePost_finish hS h htext⟩
  · have hle : (text.length : ℤ) ≤ e := by omega
    rw [parserGetNextValue, if_pos hle]
    exact ⟨st.finish, rfl,
      tablePost_finish hS h (parserGetNextValue_of_length_le st.lValue (not_lt.mp he))⟩

/-- **The array is the one of the text model**, written within its room. -/
theorem exists_table (hT : Holds sContent text) (hS : (text.length : ℤ) < 2 ^ 31)
    (hwrap : ¬ WrapsBehind text) (value : R) :
    ∃ table, readSpecialFrequencies sContent text.length value = some table ∧
      TablePost text value table := by
  have hstart : ReaderInv text value ⟨0, value, 0, allocChunkSize, allocChunkSize, 0, []⟩ 0 :=
    { index := rfl
      index_le := Nat.zero_le _
      count := rfl
      gain := Or.inl le_rfl
      calls_le := by simp
      allocated := rfl
      chunks := ⟨1, rfl⟩
      count_le := show (0 : ℤ) ≤ 5 by decide
      room_le := show (5 : ℤ) ≤ 0 + 5 by decide
      writes := by simp
      indices := rfl
      values := fun n array h => by rw [Nat.zero_add]; exact h }
  obtain ⟨t, hrun, table, rfl, hpost⟩ :=
    exists_run (fun st => readStep_good hT hS hwrap) ⟨0, hstart⟩
      (n := ((text.length : ℤ)).toNat + 1) (by simp)
  exact ⟨table, by rw [readSpecialFrequencies, hrun]; rfl, hpost⟩

end Array

/-! ## The bounds of a file -/

/-- `s_size` is at most the size of the file. -/
theorem sizeOf_le (content : List Char) :
    sizeOf content ≤ content.length ∧ sizeOf content < 2 ^ 31 := by
  unfold sizeOf wrapInt
  rw [Int.bmod_def]
  split <;> omega

/-- What the scanner sees of a file. -/
def seen (content : List Char) : List Char := content.take (sizeOf content).toNat

theorem length_seen {content : List Char} (h : 0 ≤ sizeOf content) :
    ((seen content).length : ℤ) = sizeOf content := by
  have hle := (sizeOf_le content).1
  rw [seen, List.length_take]
  omega

theorem holds_seen {sContent : ℤ → Char} {content : List Char} (h : Holds sContent content) :
    Holds sContent (seen content) := by
  intro k c hc
  rw [seen, List.getElem?_take] at hc
  split at hc
  · exact h k c hc
  · exact absurd hc (by simp)

theorem wrapsBehind_seen_iff {content : List Char} (h : 0 ≤ sizeOf content) :
    WrapsBehind (seen content) ↔ IndexWraps content := by
  unfold WrapsBehind IndexWraps
  rw [length_seen h]
  refine and_congr_right fun hsize => ?_
  rw [seen, hsize]
  rfl

/-- A file whose size is not positive as an `int` is not looked at. -/
theorem readSpecialFrequencies_of_nonpos {R : Type} [CFloat R] (sContent : ℤ → Char) {sSize : ℤ}
    (h : sSize ≤ 0) (value : R) :
    readSpecialFrequencies sContent sSize value = some ⟨1, [⟨0, 5, CFloat.lit (-1)⟩]⟩ := by
  have hfuel : sSize.toNat + 1 = 1 := by omega
  have hround : readStep sContent sSize
      (⟨0, value, 0, allocChunkSize, allocChunkSize, 0, []⟩ : Reader R)
        = .inr (some ⟨1, [⟨0, 5, CFloat.lit (-1)⟩]⟩) := by
    rw [readStep, parserGetNextValue, if_pos h]
    rfl
  rw [readSpecialFrequencies, hfuel, run_succ_of_inr 0 hround]
  rfl

/-- **Within its bounds**, if the index does not wrap. -/
theorem scanBounded_of_not_indexWraps {content : List Char} (hwrap : ¬ IndexWraps content) :
    ScanBounded content := by
  intro R _ sContent value hholds
  obtain ⟨hle, hS⟩ := sizeOf_le content
  rcases lt_or_ge (sizeOf content) 0 with hneg | hsize
  · refine ⟨fun sIndex h0 hlt => by omega, ?_⟩
    refine ⟨_, readSpecialFrequencies_of_nonpos sContent hneg.le value, Nat.le_add_left _ _, ?_⟩
    intro w hw
    obtain rfl := List.mem_singleton.mp hw
    exact ⟨le_rfl, show (0 : ℤ) < 5 by decide⟩
  · have hlen := length_seen hsize
    have hT := holds_seen hholds
    have hwrap' : ¬ WrapsBehind (seen content) := fun h => hwrap ((wrapsBehind_seen_iff hsize).mp h)
    rw [← hlen] at hle hS ⊢
    constructor
    · intro sIndex h0 hlt
      obtain ⟨i, rfl⟩ := Int.eq_ofNat_of_zero_le h0
      have hi : i < (seen content).length := Int.ofNat_lt.mp hlt
      obtain ⟨call, hcall, hpost⟩ := exists_call value hT hS hi
      obtain ⟨e, hindex, hgain, -, -⟩ := hpost.sIndex hS hwrap'
      refine ⟨call, hcall, by omega, fun k hk => ?_, fun k hk => ?_⟩
      · have hread := hpost.reads k hk
        omega
      · have hcopied := hpost.copied k hk
        omega
    · obtain ⟨table, hread, hpost⟩ := exists_table hT hS hwrap' value
      have hcalls := hpost.calls_le
      exact ⟨table, hread, by omega, hpost.writes⟩

/-- **Where the index wraps**, the call that meets the last number does not get on. -/
theorem not_scanBounded_of_indexWraps {content : List Char} (hwrap : IndexWraps content) :
    ¬ ScanBounded content := by
  intro hbounded
  have hS := (sizeOf_le content).2
  have hsize : 0 ≤ sizeOf content := by
    rw [hwrap.1]
    decide
  have hlen := length_seen hsize
  obtain ⟨hmax, run, hrun, pre, hpre⟩ := (wrapsBehind_seen_iff hsize).mpr hwrap
  have hholds := holds_inMemory '\x00' content
  obtain ⟨hcalls, -⟩ := hbounded ℚ _ 0 hholds
  have hlength : (seen content).length = pre.length + run.length := by
    rw [← hpre, List.length_append]
  have hdrop : (seen content).drop pre.length = run := by
    rw [← hpre, List.drop_left]
  obtain ⟨c, t, rfl, hc, ht⟩ := hrun
  have hnext : next .line ((seen content).drop pre.length) = .number (c :: t) [] := by
    rw [hdrop, next_line_of_isDigit hc, numberAt, List.takeWhile_eq_self_iff.mpr ht,
      List.dropWhile_eq_nil_iff.mpr ht]
    rfl
  have hi : pre.length < (seen content).length := by
    rw [hlength, List.length_cons]
    omega
  rw [← hlen] at hcalls hS
  obtain ⟨call, hcall, hpost⟩ := exists_call (0 : ℚ) (holds_seen hholds) hS hi
  obtain ⟨call', hcall', hgets, -⟩ := hcalls pre.length (by omega) (Int.ofNat_lt.mpr hi)
  obtain rfl := Option.some.inj (hcall.symm.trans hcall')
  have hfound := hpost.found
  rw [hnext] at hfound
  obtain ⟨-, -, j, hj, hjle, -, -, -, hindex⟩ := hfound
  have hend : (j : ℤ) + 1 = 2 ^ 31 := by omega
  have hmin : wrapInt (2 ^ 31) = -2 ^ 31 := by decide
  rw [hindex, hend, hmin] at hgets
  omega

/-- **The scan is bounded, for every file but those at whose end the index wraps.** -/
theorem scan_bounded_iff (content : List Char) : ScanBounded content ↔ ¬ IndexWraps content :=
  ⟨fun hbounded hwrap => not_scanBounded_of_indexWraps hwrap hbounded,
    scanBounded_of_not_indexWraps⟩

/-- As many ones as the largest `int`: the index is negative behind them. -/
theorem scan_not_bounded : ¬ ScanBounded (List.replicate (2 ^ 31 - 1) '1') := by
  refine not_scanBounded_of_indexWraps ⟨?_, List.replicate (2 ^ 31 - 1) '1', ?_, ?_⟩
  · rw [sizeOf, List.length_replicate]
    decide
  · exact ⟨'1', List.replicate (2 ^ 31 - 2) '1', List.replicate_succ, rfl, fun d hd => by
      rw [List.eq_of_mem_replicate hd]
      decide⟩
  · exact (List.take_of_length_le List.length_replicate.le).symm ▸ List.suffix_rfl

end Fgcom.Indexed
