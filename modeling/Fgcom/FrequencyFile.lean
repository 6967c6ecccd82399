import Fgcom.FrequencyScan

/-! # The special-frequencies file, on its buffer

What `special_frequencies_iff` says of the text holds of the buffer and its `int` index, too, for
every file below 2^31 bytes, unless the index wraps at its end.

* **`ReadFaithfully`** — the array is the numbers of the file, whatever stands in memory around it.
* **`exists_table_seen`** — where the index does not wrap, the array is the one of the text model.
* **`not_readFaithfully_of_indexWraps`** — where it does, something is read that is no number of the
  file.
* **`special_frequencies_read_iff`** — the files that are read faithfully. -/

namespace Fgcom.Indexed

open Loop

/-! ## What is to be read -/

/-- The array that is left: each double is written behind the one before it. -/
def Table.Is {R : Type} (table : Table R) (array : List R) : Prop :=
  table.writes.map Write.value = array ∧
    table.writes.map Write.index = (List.range array.length).map fun k : ℕ => (k : ℤ)

/-- **A file is read faithfully** by the `int` index, whatever stands in memory around it: the array
is the numbers outside comments and the terminator; and with exact arithmetic the scan of
`check_special_frq` stops in it, and finds a whole number of kHz exactly when it is one of the
numbers. -/
def ReadFaithfully (content : List Char) : Prop :=
  (∀ (R : Type) [CFloat R] (sContent : ℤ → Char) (value : R), Holds sContent content →
    ∃ table, readSpecialFrequencies sContent (sizeOf content) value = some table ∧
      table.Is ((numbersOf content).map CFloat.atof ++ [CFloat.lit (-1)])) ∧
  ∀ (sContent : ℤ → Char) (value : ℚ) (table : Table ℚ) (array : List ℚ),
    Holds sContent content → readSpecialFrequencies sContent (sizeOf content) value = some table →
      table.Is array →
    (∃ x ∈ array, CFloat.le (CFloat.lit 0 : ℚ) x = false) ∧
    ∀ k : ℤ, specialScan (ceilKhz ((k : ℚ) / 1000)) array = true ↔
      (k : ℚ) / 1000 ∈ (numbersOf content).map CFloat.atof

theorem Table.Is.unique {R : Type} {table : Table R} {a b : List R} (ha : table.Is a)
    (hb : table.Is b) : a = b := ha.1.symm.trans hb.1

/-! ## Where the index does not wrap -/

section Seen

variable {R : Type} [CFloat R] {sContent : ℤ → Char} {content : List Char}

/-- **The array is the one of the text model** on what is seen of the file. -/
theorem exists_table_seen (hwrap : ¬ IndexWraps content) (hholds : Holds sContent content)
    (value : R) :
    ∃ table array, readSpecialFrequencies sContent (sizeOf content) value = some table ∧
      Fgcom.readSpecialFrequencies value (seen content) = some array ∧ table.Is array := by
  rcases lt_or_ge (sizeOf content) 0 with hneg | hsize
  · -- nothing is seen, and the terminator is all
    have hseen : seen content = [] := by
      rw [seen, Int.toNat_of_nonpos hneg.le, List.take_zero]
    exact ⟨_, [CFloat.lit (-1)], readSpecialFrequencies_of_nonpos sContent hneg.le value,
      by rw [hseen]; rfl, rfl, rfl⟩
  · have hlen := length_seen hsize
    have hS := (sizeOf_le content).2
    rw [← hlen] at hS ⊢
    obtain ⟨table, hread, hpost⟩ := exists_table (holds_seen hholds) hS
      (fun h => hwrap ((wrapsBehind_seen_iff hsize).mp h)) value
    exact ⟨table, _, hread, hpost.values, rfl, by rw [hpost.indices, List.length_map]⟩

/-- All of a file below 2^31 bytes is seen. -/
theorem seen_eq (hsize : content.length < 2 ^ 31) : seen content = content := by
  have hint : sizeOf content = content.length := wrapInt_of_nonneg (by omega) (by omega)
  rw [seen, hint, Int.toNat_natCast, List.take_length]

/-- What is read faithfully by the index is by the text model. -/
theorem ReadFaithfully.fileFaithful (h : ReadFaithfully content) (hsize : content.length < 2 ^ 31)
    (hwrap : ¬ IndexWraps content) : FileFaithful content := by
  obtain ⟨harray, hscan⟩ := h
  have hholds := holds_inMemory '\x00' content
  refine ⟨fun R _ value => ?_, fun value array htext => ?_⟩
  · obtain ⟨table, array, hread, htext, his⟩ := exists_table_seen hwrap hholds value
    obtain ⟨table', hread', his'⟩ := harray R _ value hholds
    obtain rfl := Option.some.inj (hread.symm.trans hread')
    rw [← his.unique his', ← htext, seen_eq hsize]
  · obtain ⟨table, array', hread, htext', his⟩ := exists_table_seen hwrap hholds value
    rw [seen_eq hsize] at htext'
    obtain rfl := Option.some.inj (htext.symm.trans htext')
    exact hscan _ value table array hholds hread his

end Seen

/-- Files whose part that is seen is laid out as their numbers are read faithfully. -/
theorem readFaithfully_of_layout {content : List Char}
    (h : Layout (seen content) (numbersOf content)) (hwrap : ¬ IndexWraps content) :
    ReadFaithfully content := by
  have hall : ∀ (R : Type) [CFloat R] (sContent : ℤ → Char) (value : R), Holds sContent content →
      ∃ table, readSpecialFrequencies sContent (sizeOf content) value = some table ∧
        table.Is ((numbersOf content).map CFloat.atof ++ [CFloat.lit (-1)]) := by
    intro R _ sContent value hholds
    obtain ⟨table, array, hread, htext, his⟩ := exists_table_seen hwrap hholds value
    rw [readSpecialFrequencies_of_layout h] at htext
    exact ⟨table, hread, Option.some.inj htext ▸ his⟩
  refine ⟨hall, fun sContent value table array hholds hread his => ?_⟩
  obtain ⟨table', hread', his'⟩ := hall ℚ sContent value hholds
  obtain rfl := Option.some.inj (hread.symm.trans hread')
  obtain rfl := his.unique his'
  exact specialScan_of_layout h

/-! ## Where the index wraps -/

section Wraps

variable {R : Type} [CFloat R] {sContent : ℤ → Char} {text : List Char}

/-- A text at whose end the index wraps ends in a character of a number. -/
theorem isNumberChar_of_wrapsBehind (h : WrapsBehind text) :
    ∀ c ∈ text.getLast?, isNumberChar c = true := by
  obtain ⟨-, run, ⟨d, t, rfl, hd, ht⟩, front, rfl⟩ := h
  intro c hc
  rw [List.getLast?_append_cons] at hc
  have hmem : c ∈ d :: t := List.mem_of_mem_getLast? hc
  rcases List.mem_cons.mp hmem with rfl | hmem
  · simp [isNumberChar, hd]
  · exact ht c hmem

/-- In front of the file the scanner reads a number, if a digit happens to stand there. -/
theorem exists_call_of_wrapped (hdigit : sContent (-2147483648) = '1') (value : R) :
    ∃ call, parserGetNextValue sContent 2147483647 value (-2147483648) = some call ∧
      call.ok = true := by
  obtain ⟨n, hn⟩ : ∃ n, callSteps 2147483647 (-2147483648) = n + 1 + 1 + 1 + 1 := ⟨_, rfl⟩
  have hround : parserStep sContent 2147483647 value ⟨.round, -2147483648, []⟩
      = .inl ⟨.blanks, -2147483648, []⟩ := rfl
  have hblanks : parserStep sContent 2147483647 value ⟨.blanks, -2147483648, []⟩
      = .inl ⟨.search, -2147483648, [-2147483648]⟩ := by
    rw [parserStep, hdigit]
    rfl
  have hsearch : parserStep sContent 2147483647 value ⟨.search, -2147483648, [-2147483648]⟩
      = .inl ⟨.number 2147483649, -2147483648, [-2147483648, -2147483648]⟩ := by
    rw [parserStep, hdigit]
    rfl
  -- `l_j` is already behind the end, as an `unsigned int`
  have hstop : ¬ (isNumberChar (sContent 2147483649) = true ∧ sContent 2147483649 ≠ '\n' ∧
      (2147483649 : ℤ) < wrapUnsigned 2147483647) := fun h => absurd h.2.2 (by decide)
  rw [parserGetNextValue, if_neg (by decide), hn, run_succ_of_inl _ hround,
    run_succ_of_inl _ hblanks, run_succ_of_inl _ hsearch, run, parserStep, if_neg hstop]
  exact ⟨_, rfl, rfl⟩

/-- Where the scan of a file at whose end the index wraps can stand, when there are `n` numbers to
read: it has those in front of it still to read, the index has wrapped, or there is one too many. -/
def Overrun (text : List Char) (n : ℕ) (st : Reader R) : Prop :=
  (∃ e : ℕ, st.sIndex = e ∧ e < text.length ∧ ∃ runs last, Reads (text.drop e) runs last ∧
    n ≤ st.writes.length + runs.length) ∨
  (st.sIndex = -2147483648 ∧ n ≤ st.writes.length) ∨ n < st.writes.length

omit [CFloat R] in
theorem length_writes_store (st : Reader R) (sIndex : ℤ) (lValue : R) :
    (st.store sIndex lValue).writes.length = st.writes.length + 1 := by
  simp [Reader.store]

theorem length_writes_finish (st : Reader R) :
    st.finish.writes.length = st.writes.length + 1 := by
  simp [Reader.finish]

/-- Behind the end there is nothing to read. -/
theorem runs_of_reads_nil {runs : List (List Char)} {last : Bool} (h : Reads [] runs last) :
    runs = [] := by
  cases h with
  | atEnd => rfl
  | ended h => rfl
  | stale hs h => rfl
  | number h hrest => exact Next.noConfusion h

/-- A file that ends in a number does not end in a blank, so no call in it ends without one. -/
theorem next_ne_ended (h : WrapsBehind text) {e : ℕ} (he : e < text.length) :
    next .line (text.drop e) ≠ .ended := by
  intro hnext
  obtain ⟨hne, -, hblank⟩ := behind_of_next hnext
  obtain ⟨c, hc⟩ := Option.ne_none_iff_exists'.mp (mt List.getLast?_eq_none_iff.mp hne)
  have hspace := hblank c hc
  rw [List.getLast?_drop, if_neg (not_le.mpr he)] at hc
  have hnumber := isNumberChar_of_wrapsBehind h c hc
  simp only [isBlank, Bool.or_eq_true, decide_eq_true_eq] at hspace
  rcases hspace with rfl | rfl
  · exact absurd hnumber (by decide)
  · exact absurd hnumber (by decide)

/-- A number that ends so far behind ends with the file: the byte behind a number is no part of
it. -/
theorem eq_length_of_stop (h : WrapsBehind text) {j : ℕ} (hj : j ≤ text.length)
    (hge : text.length ≤ j + 1) (hhead : ∀ c ∈ (text.drop j).head?, isNumberChar c = false) :
    j = text.length := by
  by_contra hother
  have hlt : j < text.length := by omega
  have hlast : (text.drop j).getLast? = text.getLast? := by
    rw [List.getLast?_drop, if_neg (not_le.mpr hlt)]
  obtain ⟨c, hc⟩ := List.length_eq_one_iff.mp
    (show (text.drop j).length = 1 by rw [List.length_drop]; omega)
  rw [hc] at hlast hhead
  have hnumber := isNumberChar_of_wrapsBehind h c hlast.symm
  rw [hhead c rfl] at hnumber
  exact Bool.noConfusion hnumber

/-- A call in the file leads on to the next number, or the index wraps, or a number is read once
more. -/
theorem overrun_of_call (h : WrapsBehind text) {n e : ℕ} {st : Reader R} {call : Call R}
    (he : e < text.length) {runs : List (List Char)} {last : Bool}
    (hreads : Reads (text.drop e) runs last) (hn : n ≤ st.writes.length + runs.length)
    (hpost : Post text e st.lValue call) :
    call.ok = true ∧ Overrun text n (st.store call.sIndex call.value) := by
  have hlength := h.1
  have hfound := hpost.found
  have hended := next_ne_ended h he
  have hne : text.drop e ≠ [] := by simpa using he
  generalize text.drop e = tail at hreads hfound hended hne
  cases hreads with
  | atEnd => exact absurd rfl hne
  | ended hnext => exact absurd hnext hended
  | stale hs hnext =>
      rw [hnext] at hfound
      refine ⟨hfound.1, Or.inr (Or.inr ?_)⟩
      rw [length_writes_store]
      simpa using Nat.lt_succ_of_le hn
  | @number _ run rest runs _ hnext hrest =>
      rw [hnext] at hfound
      obtain ⟨hok, -, j, -, hj, -, hhead, rfl, hindex⟩ := hfound
      rw [List.length_cons] at hn
      refine ⟨hok, ?_⟩
      rcases Nat.lt_or_ge (j + 1) text.length with hlt | hge
      · refine Or.inl ⟨j + 1, ?_, hlt, runs, _, hrest, ?_⟩
        · show call.sIndex = _
          rw [hindex, wrapInt_of_nonneg (by omega) (by omega), Nat.cast_succ]
        · rw [length_writes_store]
          omega
      · have hend := eq_length_of_stop h hj hge hhead
        have hnone : runs = [] := by
          rw [List.drop_of_length_le hge] at hrest
          exact runs_of_reads_nil hrest
        refine Or.inr (Or.inl ⟨?_, ?_⟩)
        · show call.sIndex = _
          have hbig : (j : ℤ) + 1 = 2 ^ 31 := by omega
          rw [hindex, hbig]
          decide
        · rw [length_writes_store]
          simpa [hnone] using hn

/-- **Every round of the reader** leaves the scan where it can stand, and in the end there is one
double more than there is to be. -/
theorem overrun_readStep (hT : Holds sContent text) (hfront : sContent (-2147483648) = '1')
    (h : WrapsBehind text) {n : ℕ} {st : Reader R} (hst : Overrun text n st) :
    Sum.elim (Overrun text n) (fun t => ∀ table, t = some table → n + 1 < table.writes.length)
      (readStep sContent text.length st) := by
  have hlength := h.1
  rw [readStep]
  rcases hst with ⟨e, hindex, he, runs, last, hreads, hn⟩ | ⟨hindex, hn⟩ | hn
  · obtain ⟨call, hcall, hpost⟩ := exists_call st.lValue hT (by omega) he
    obtain ⟨hok, hnext⟩ := overrun_of_call h he hreads hn hpost
    rw [hindex, hcall]
    dsimp only
    rw [if_pos hok]
    exact hnext
  · obtain ⟨call, hcall, hok⟩ := exists_call_of_wrapped hfront st.lValue
    have hsize : (text.length : ℤ) = 2147483647 := hlength
    rw [hindex, hsize, hcall]
    dsimp only
    rw [if_pos hok]
    refine Or.inr (Or.inr ?_)
    rw [length_writes_store]
    exact Nat.lt_succ_of_le hn
  · cases parserGetNextValue sContent text.length st.lValue st.sIndex with
    | none => exact fun table htable => absurd htable (by simp)
    | some call =>
        dsimp only
        split
        · refine Or.inr (Or.inr ?_)
          rw [length_writes_store]
          omega
        · intro table htable
          rw [← Option.some.inj htable, length_writes_finish]
          omega

/-- **Where the index wraps, too much is read.** -/
theorem not_readFaithfully_of_indexWraps {content : List Char} (hsize : content.length < 2 ^ 31)
    (hwrap : IndexWraps content) : ¬ ReadFaithfully content := by
  rintro ⟨harray, -⟩
  have hint : sizeOf content = content.length := wrapInt_of_nonneg (by omega) (by omega)
  have hbehind : WrapsBehind content := by
    have hpos : 0 ≤ sizeOf content := by omega
    rw [← seen_eq hsize]
    exact (wrapsBehind_seen_iff hpos).mpr hwrap
  have hholds := holds_inMemory '1' content
  obtain ⟨table, hread, his⟩ := harray ℚ (inMemory '1' content) 0 hholds
  obtain ⟨runs, last, hreads⟩ := exists_reads content
  have hsub : (numbersOf content).length ≤ runs.length :=
    (numbersOf_eq content ▸ sublist_of_reads hreads false).length_le
  have hstart : Overrun content (numbersOf content).length
      (⟨0, (0 : ℚ), 0, allocChunkSize, allocChunkSize, 0, []⟩ : Reader ℚ) := by
    have hpos : 0 < content.length := by
      have hmax := hbehind.1
      omega
    exact Or.inl ⟨0, rfl, hpos, runs, last, hreads, by simpa using hsub⟩
  rw [hint, readSpecialFrequencies] at hread
  obtain ⟨t, hrun, ht⟩ := Option.bind_eq_some_iff.mp hread
  have hmany := of_run (fun st => overrun_readStep hholds rfl hbehind) hstart hrun table ht
  have hlength := congrArg List.length his.1
  rw [List.length_map, List.length_append, List.length_map, List.length_singleton] at hlength
  omega

end Wraps

/-! ## Which files are read faithfully -/

/-- **When the file is read faithfully**: by the text model, the files of the layout; by the code's
index, of the files below 2^31 bytes those of the layout at whose end the index does not wrap, and
whatever the size such files as are laid out so as far as they are seen. -/
theorem special_frequencies_read_iff (content : List Char) :
    (FileFaithful content ↔ Layout content (numbersOf content)) ∧
      (content.length < 2 ^ 31 →
        (ReadFaithfully content ↔ Layout content (numbersOf content) ∧ ¬ IndexWraps content)) ∧
      (Layout (seen content) (numbersOf content) ∧ ¬ IndexWraps content →
        ReadFaithfully content) := by
  refine ⟨special_frequencies_iff content, fun hsize => ⟨fun h => ?_, fun h => ?_⟩,
    fun h => readFaithfully_of_layout h.1 h.2⟩
  · have hwrap : ¬ IndexWraps content := fun hwrap =>
      not_readFaithfully_of_indexWraps hsize hwrap h
    exact ⟨(special_frequencies_iff content).mp (h.fileFaithful hsize hwrap), hwrap⟩
  · exact readFaithfully_of_layout ((seen_eq hsize).symm ▸ h.1) h.2

/-- A comment right behind a number, and a blank line at the end: 910 is read from the comment, and
twice. -/
theorem comment_read_as_number :
    numbersOf "121.5#910\n\n".toList = ["121.5".toList] ∧
      Fgcom.readSpecialFrequencies (0 : ℚ) "121.5#910\n\n".toList
        = some [243 / 2, 910, 910, -1] ∧
      specialScan (ceilKhz (910 : ℚ)) [243 / 2, 910, 910, -1] = true ∧
      ¬ FileFaithful "121.5#910\n\n".toList ∧ ¬ ReadFaithfully "121.5#910\n\n".toList := by
  have harray : Fgcom.readSpecialFrequencies (0 : ℚ) "121.5#910\n\n".toList
      = some [243 / 2, 910, 910, -1] := by decide +kernel
  have htext : ¬ FileFaithful "121.5#910\n\n".toList := fun h =>
    absurd (harray.symm.trans (h.1 ℚ 0)) (by decide +kernel)
  have hwrap : ¬ IndexWraps "121.5#910\n\n".toList := fun h => absurd h.1 (by decide)
  exact ⟨by decide, harray, by decide +kernel, htext,
    fun h => htext (h.fileFaithful (by decide) hwrap)⟩

end Fgcom.Indexed
