import Fgcom.Lib.InputStream
import Fgcom.Position
import Mathlib.Algebra.Order.BigOperators.Group.List
import Mathlib.Data.List.DropRight
import Mathlib.Data.List.TakeWhile

/-! # Reading the config file

`_fgcomParseOptions` reads `.fgcomrc` with three stream manipulators and `getline`, and hands each
line to `_parseOption`. A comment ends at a carriage return already, a line only at a newline; and
the end of a line is trimmed by a comparison of signed characters with 32.

* **`fgcomParseOptions`** — the strings handed to `_parseOption`, in order.
* **`optionLines`** — the lines that should be: neither blank nor comments, white space cut off at
  both ends.
* **`lineOut`** — what the reader makes of one line. `fgcomParseOptions_eq`: of a file it makes what
  it makes of its lines, one after the other.
* **`config_lines_handed_over_iff`** — for which files the two agree. -/

namespace Fgcom

open DecimalText InputStream InputStream.Stream

/-! ## The manipulators -/

/-- `skip_eol`: to behind the next newline or carriage return. -/
def skipEol (s : Stream Char) : Stream Char := (s.getUntil fun c => c = '\n' || c = '\r').2

/-- `skip_ws`: to the next character that is not white space, which is put back. -/
def skipWs (s : Stream Char) : Stream Char :=
  match s.getUntil fun c => !isSpace c with
  | (some c, s) => s.putback c
  | (none, s) => s

/-- `skip_comment`: white space and comments are skipped as long as the stream holds. The fuel
counts the rounds of the loop. -/
def skipComment : ℕ → Stream Char → Option (Stream Char)
  | 0, _ => none
  | n + 1, s =>
      if s.fail then some s
      else
        match (skipWs s).get with
        | (some c, s) => if c ≠ '#' then some (s.putback c) else skipComment n (skipEol s)
        | (none, s) => skipComment n (skipEol s)

/-! ## The reader -/

/-- The line without its last characters that are not above 32, as signed characters. -/
def cutLine (line : List Char) : List Char := line.rdropWhile fun c => schar c ≤ 32

/-- The loop of `_fgcomParseOptions`: the strings handed to `_parseOption`. After an error the
program exits. -/
def parseOptionsLoop (isError : List Char → Bool) : ℕ → Stream Char → Option (List (List Char))
  | 0, _ => none
  | n + 1, s =>
      if s.eof then some []
      else
        let (line, s) := s.getline '\n'
        let line := cutLine line
        if isError line then some [line]
        else
          ((skipComment (s.rest.length + 2) s).bind (parseOptionsLoop isError n)).map (line :: ·)

/-- `_fgcomParseOptions` on the content of an open file. -/
def fgcomParseOptions (isError : List Char → Bool) (content : List Char) :
    Option (List (List Char)) :=
  (skipComment (content.length + 2) (ofText content)).bind
    (parseOptionsLoop isError (content.length + 1))

/-! ## What should be handed over -/

/-- A text without the white space at its ends. -/
def stripped (l : List Char) : List Char := (l.dropWhile isSpace).rdropWhile isSpace

/-- A blank line, or one that starts with `#` behind white space. -/
def BlankOrComment (l : List Char) : Prop :=
  l.dropWhile isSpace = [] ∨ (l.dropWhile isSpace).head? = some '#'

instance (l : List Char) : Decidable (BlankOrComment l) := inferInstanceAs (Decidable (_ ∨ _))

/-- The string a line should be handed over as. -/
def lineOption (l : List Char) : List (List Char) :=
  if BlankOrComment l then [] else [stripped l]

/-- The strings that should be handed over. -/
def optionLines (content : List Char) : List (List Char) :=
  (content.splitOn '\n').flatMap lineOption

/-! ## Skipping, as a function of the text -/

/-- What `skip_comment` leaves of a text; the flag says whether it stands in a comment. -/
def skipTo : Bool → List Char → List Char
  | _, [] => []
  | true, c :: cs => if c = '\n' ∨ c = '\r' then skipTo false cs else skipTo true cs
  | false, c :: cs =>
      if isSpace c then skipTo false cs else if c = '#' then skipTo true cs else c :: cs

/-- The stream in front of a text, or behind the end when nothing is left. -/
def streamOf (text : List Char) : Stream Char := if text = [] then ended else ofText text

@[simp] theorem skipTo_nil (m : Bool) : skipTo m [] = [] := by cases m <;> rfl

/-- A round of `skip_ws` on a text: white space is dropped. -/
theorem skipWs_cons_space {c : Char} (cs : List Char) (h : isSpace c = true) :
    skipWs (ofText (c :: cs)) = skipWs (ofText cs) := by
  unfold skipWs
  rw [getUntil_ofText_cons, if_neg (by simp [h])]

theorem skipWs_cons {c : Char} (cs : List Char) (h : isSpace c = false) :
    skipWs (ofText (c :: cs)) = ofText (c :: cs) := by
  unfold skipWs
  rw [getUntil_ofText_cons, if_pos (by simp [h])]
  rfl

theorem skipEol_cons (c : Char) (cs : List Char) :
    skipEol (ofText (c :: cs))
      = if c = '\n' ∨ c = '\r' then ofText cs else skipEol (ofText cs) := by
  unfold skipEol
  rw [getUntil_ofText_cons]
  by_cases h : c = '\n' ∨ c = '\r'
  · rw [if_pos (by simpa using h), if_pos h]
  · rw [if_neg (by simpa using h), if_neg h]

/-- In front of a character that is not white space the loop ends, or goes on behind a comment. -/
theorem skipComment_cons {c : Char} (cs : List Char) (n : ℕ) (h : isSpace c = false) :
    skipComment (n + 1) (ofText (c :: cs))
      = if c ≠ '#' then some (ofText (c :: cs)) else skipComment n (skipEol (ofText cs)) := by
  have hget : (skipWs (ofText (c :: cs))).get = (some c, ofText cs) := by
    rw [skipWs_cons cs h]
    rfl
  rw [skipComment, hget]
  rfl

/-- **`skip_comment` leaves what `skipTo` leaves**, for enough fuel: from the start of a line and,
behind `skip_eol`, from within a comment. -/
theorem skipComment_ofText (text : List Char) {n : ℕ} (hn : text.length + 2 ≤ n) :
    skipComment n (ofText text) = some (streamOf (skipTo false text)) ∧
      skipComment n (skipEol (ofText text)) = some (streamOf (skipTo true text)) := by
  induction text generalizing n with
  | nil =>
      obtain ⟨n, rfl⟩ : ∃ k, n = k + 2 := ⟨n - 2, by omega⟩
      exact ⟨rfl, rfl⟩
  | cons c cs ih =>
      rw [List.length_cons] at hn
      obtain ⟨n, rfl⟩ : ∃ k, n = k + 1 := ⟨n - 1, by omega⟩
      constructor
      · cases hspace : isSpace c with
        | true =>
            have hsame :
                skipComment (n + 1) (ofText (c :: cs)) = skipComment (n + 1) (ofText cs) := by
              unfold skipComment
              rw [skipWs_cons_space cs hspace]
              rfl
            rw [hsame, skipTo, if_pos hspace]
            exact (ih (by omega)).1
        | false =>
            rw [skipComment_cons cs n hspace, skipTo, if_neg (Bool.eq_false_iff.mp hspace)]
            by_cases hc : c = '#'
            · -- a comment: its end is looked for in the rest
              rw [if_neg (not_not.mpr hc), if_pos hc]
              exact (ih (by omega)).2
            · rw [if_pos hc, if_neg hc]
              rfl
      · rw [skipEol_cons, skipTo]
        by_cases heol : c = '\n' ∨ c = '\r'
        · rw [if_pos heol, if_pos heol]
          exact (ih (by omega)).1
        · rw [if_neg heol, if_neg heol]
          exact (ih (by omega)).2

/-! ## Line by line -/

/-- What the reader makes of one line. -/
def lineOut (l : List Char) : List (List Char) :=
  if skipTo false l = [] then [] else [cutLine (skipTo false l)]

/-- A text with the lines up to and with the first error. -/
def upToError (isError : List Char → Bool) : List (List Char) → List (List Char)
  | [] => []
  | l :: ls => if isError l then [l] else l :: upToError isError ls

/-- Skipping stops in front of the end of a line or a comment, or goes on behind it. -/
theorem skipTo_append_eol (m : Bool) {e : Char} (he : e = '\n' ∨ e = '\r') {l : List Char}
    (rest : List Char) (hl : e ∉ l) :
    skipTo m (l ++ e :: rest)
      = if skipTo m l = [] then skipTo false rest else skipTo m l ++ e :: rest := by
  induction l generalizing m with
  | nil =>
      rw [skipTo_nil, if_pos rfl]
      cases m with
      | true => exact if_pos he
      | false =>
          have hspace : isSpace e = true := by rcases he with rfl | rfl <;> rfl
          exact if_pos hspace
  | cons c l ih =>
      have hl' : e ∉ l := fun h => hl (List.mem_cons_of_mem c h)
      rw [List.cons_append]
      cases m with
      | true =>
          rw [skipTo, skipTo]
          split
          · exact ih false hl'
          · exact ih true hl'
      | false =>
          rw [skipTo, skipTo]
          split
          · exact ih false hl'
          · split
            · exact ih true hl'
            · rw [if_neg (List.cons_ne_nil c l)]
              rfl

/-- What is left of a text is its end. -/
theorem skipTo_suffix (m : Bool) (text : List Char) : skipTo m text <:+ text := by
  induction text generalizing m with
  | nil => simp
  | cons c cs ih =>
      have hrest : ∀ m, skipTo m cs <:+ c :: cs := fun m => (ih m).trans (List.suffix_cons c cs)
      cases m with
      | true =>
          unfold skipTo
          split
          · exact hrest false
          · exact hrest true
      | false =>
          unfold skipTo
          split
          · exact hrest false
          · split
            · exact hrest true
            · exact List.suffix_refl _

/-- The reader behind the end. -/
theorem parseOptionsLoop_ended (isError : List Char → Bool) {n : ℕ} (hn : 0 < n) :
    parseOptionsLoop isError n ended = some [] := by
  obtain ⟨n, rfl⟩ : ∃ k, n = k + 1 := ⟨n - 1, by omega⟩
  rfl

/-- The reader in front of a last line without a newline. -/
theorem parseOptionsLoop_last (isError : List Char → Bool) {t : List Char} (n : ℕ)
    (hno : '\n' ∉ t) (hne : t ≠ []) :
    parseOptionsLoop isError (n + 2) (ofText t) = some (upToError isError [cutLine t]) := by
  have hline := getline_ofText_last hno hne
  -- the stream has met its end, so `skip_comment` and the loop stop at once
  have hskip : skipComment 2 ⟨[], true, false⟩ = some ended := rfl
  rw [parseOptionsLoop, hline]
  show (if isError (cutLine t) then some [cutLine t]
    else ((skipComment 2 ⟨[], true, false⟩).bind (parseOptionsLoop isError (n + 1))).map
      (cutLine t :: ·)) = _
  rw [hskip, Option.bind_some, parseOptionsLoop_ended isError (Nat.succ_pos n), upToError]
  split <;> rfl

/-- The reader in front of a line with a newline. -/
theorem parseOptionsLoop_line (isError : List Char → Bool) {t : List Char} (rest : List Char)
    (n : ℕ) (hno : '\n' ∉ t) :
    parseOptionsLoop isError (n + 1) (ofText (t ++ '\n' :: rest))
      = if isError (cutLine t) then some [cutLine t]
        else (parseOptionsLoop isError n (streamOf (skipTo false rest))).map (cutLine t :: ·) := by
  have hline := getline_ofText_append rest hno
  rw [parseOptionsLoop, hline]
  show (if isError (cutLine t) then some [cutLine t]
    else ((skipComment (rest.length + 2) (ofText rest)).bind (parseOptionsLoop isError n)).map
      (cutLine t :: ·)) = _
  rw [(skipComment_ofText rest le_rfl).1, Option.bind_some]

/-- **What the loop hands over**, from the start of a line: what each line makes, up to the
first error. -/
theorem parseOptionsLoop_eq (isError : List Char → Bool) (text : List Char) {n : ℕ}
    (hn : text.length < n) :
    parseOptionsLoop isError n (streamOf (skipTo false text))
      = some (upToError isError ((text.splitOn '\n').flatMap lineOut)) := by
  induction hlen : text.length using Nat.strongRecOn generalizing text n with
  | ind k ih =>
      by_cases hnl : '\n' ∈ text
      · obtain ⟨l, rest, rfl, hl⟩ := List.eq_append_cons_of_mem hnl
        rw [List.length_append, List.length_cons] at hn hlen
        have hrest : ∀ m, rest.length < m →
            parseOptionsLoop isError m (streamOf (skipTo false rest))
              = some (upToError isError ((rest.splitOn '\n').flatMap lineOut)) :=
          fun m hm => ih rest.length (by omega) rest hm rfl
        rw [List.splitOn_append_cons_self_of_not_mem hl, List.flatMap_cons,
          skipTo_append_eol false (Or.inl rfl) rest hl, lineOut]
        by_cases hempty : skipTo false l = []
        · rw [if_pos hempty, if_pos hempty]
          exact hrest n (by omega)
        · obtain ⟨n, rfl⟩ : ∃ k, n = k + 1 := ⟨n - 1, by omega⟩
          have hno : '\n' ∉ skipTo false l := fun h => hl ((skipTo_suffix false l).subset h)
          rw [if_neg hempty, if_neg hempty, streamOf, if_neg (by simp),
            parseOptionsLoop_line isError rest n hno, hrest n (by omega), List.singleton_append,
            upToError]
          split <;> rfl
      · rw [List.splitOn_eq_singleton hnl, List.flatMap_singleton, lineOut]
        by_cases hempty : skipTo false text = []
        · rw [hempty, if_pos rfl]
          exact parseOptionsLoop_ended isError (by omega)
        · have hno : '\n' ∉ skipTo false text :=
            fun h => hnl ((skipTo_suffix false text).subset h)
          have hpos : 0 < text.length := by
            rcases Nat.eq_zero_or_pos text.length with h0 | h0
            · rw [List.length_eq_zero_iff.mp h0, skipTo_nil] at hempty
              exact absurd rfl hempty
            · exact h0
          obtain ⟨n, rfl⟩ : ∃ k, n = k + 2 := ⟨n - 2, by omega⟩
          rw [if_neg hempty, streamOf, if_neg hempty]
          exact parseOptionsLoop_last isError n hno hempty

/-- **What the reader hands over**, for every content; in particular it ends. -/
theorem fgcomParseOptions_eq (isError : List Char → Bool) (content : List Char) :
    fgcomParseOptions isError content
      = some (upToError isError ((content.splitOn '\n').flatMap lineOut)) := by
  rw [fgcomParseOptions, (skipComment_ofText content le_rfl).1, Option.bind_some]
  exact parseOptionsLoop_eq isError content (Nat.lt_succ_self _)

/-- Without errors every line is handed over. -/
theorem upToError_of_forall {isError : List Char → Bool} {ls : List (List Char)}
    (h : ∀ l ∈ upToError isError ls, isError l = false) : upToError isError ls = ls := by
  induction ls with
  | nil => rfl
  | cons l ls ih =>
      rw [upToError] at h ⊢
      by_cases hl : isError l = true
      · rw [if_pos hl] at h
        exact absurd (hl.symm.trans (h l (List.mem_singleton_self l))) (by decide)
      · rw [if_neg hl] at h ⊢
        rw [ih fun l' hl' => h l' (List.mem_cons_of_mem l hl')]

/-! ## One line -/

/-- Without an end of line, a comment swallows everything. -/
theorem skipTo_true_of_notMem {l : List Char} (hn : '\n' ∉ l) (hr : '\r' ∉ l) :
    skipTo true l = [] := by
  induction l with
  | nil => rfl
  | cons c l ih =>
      rw [List.mem_cons, not_or] at hn hr
      have heol : ¬ (c = '\n' ∨ c = '\r') := by
        rintro (h | h)
        · exact hn.1 h.symm
        · exact hr.1 h.symm
      rw [skipTo, if_neg heol]
      exact ih hn.2 hr.2

/-- Nothing but blank and comment is skipped at the start of a line. -/
theorem skipTo_of_not_blankOrComment {l : List Char} (h : ¬ BlankOrComment l) :
    skipTo false l = l.dropWhile isSpace := by
  induction l with
  | nil => exact absurd (Or.inl rfl) h
  | cons c l ih =>
      unfold BlankOrComment at h
      rw [skipTo]
      by_cases hspace : isSpace c = true
      · rw [List.dropWhile_cons_of_pos hspace] at h ⊢
        rw [if_pos hspace]
        exact ih h
      · rw [List.dropWhile_cons_of_neg hspace] at h ⊢
        have hc : c ≠ '#' := fun hc => h (Or.inr (by rw [hc]; rfl))
        rw [if_neg hspace, if_neg hc]

/-- A line without carriage returns is skipped when it is blank or a comment. -/
theorem skipTo_eq_nil_iff_of_notMem {l : List Char} (hn : '\n' ∉ l) (hr : '\r' ∉ l) :
    skipTo false l = [] ↔ BlankOrComment l := by
  constructor
  · intro h
    by_contra hnot
    rw [skipTo_of_not_blankOrComment hnot] at h
    exact hnot (Or.inl h)
  · intro h
    induction l with
    | nil => rfl
    | cons c l ih =>
        have hn' : '\n' ∉ l := fun hm => hn (List.mem_cons_of_mem c hm)
        have hr' : '\r' ∉ l := fun hm => hr (List.mem_cons_of_mem c hm)
        unfold BlankOrComment at h
        rw [skipTo]
        by_cases hspace : isSpace c = true
        · rw [List.dropWhile_cons_of_pos hspace] at h
          rw [if_pos hspace]
          exact ih hn' hr' h
        · rw [List.dropWhile_cons_of_neg hspace] at h
          have hc : c = '#' := by simpa using h
          rw [if_neg hspace, if_pos hc]
          exact skipTo_true_of_notMem hn' hr'

/-- **What of a line is skipped**: everything, when all its pieces between carriage returns are
blank or comments. -/
theorem skipTo_eq_nil_iff {l : List Char} (hn : '\n' ∉ l) :
    skipTo false l = [] ↔ ∀ piece ∈ l.splitOn '\r', BlankOrComment piece := by
  induction hlen : l.length using Nat.strongRecOn generalizing l with
  | ind k ih =>
      by_cases hr : '\r' ∈ l
      · obtain ⟨a, b, rfl, ha⟩ := List.eq_append_cons_of_mem hr
        rw [List.length_append, List.length_cons] at hlen
        have hna : '\n' ∉ a := fun h => hn (List.mem_append_left _ h)
        have hnb : '\n' ∉ b := fun h => hn (List.mem_append_right _ (List.mem_cons_of_mem _ h))
        have hfirst := skipTo_eq_nil_iff_of_notMem hna ha
        rw [skipTo_append_eol false (Or.inr rfl) b ha, List.splitOn_append_cons_self_of_not_mem ha,
          List.forall_mem_cons, ← hfirst, ← ih b.length (by omega) hnb rfl]
        by_cases hempty : skipTo false a = []
        · rw [if_pos hempty]
          exact ⟨fun h => ⟨hempty, h⟩, And.right⟩
        · rw [if_neg hempty]
          exact ⟨fun h => absurd h (by simp), fun h => absurd h.1 hempty⟩
      · rw [List.splitOn_eq_singleton hr, List.forall_mem_singleton]
        exact skipTo_eq_nil_iff_of_notMem hn hr

/-- White space is not above 32. -/
theorem schar_le_of_isSpace {c : Char} (h : isSpace c = true) : schar c ≤ 32 := by
  have hcases : c = ' ' ∨ c = '\t' ∨ c = '\n' ∨ c = '\x0b' ∨ c = '\x0c' ∨ c = '\r' := by
    simpa [isSpace, or_assoc] using h
  rcases hcases with rfl | rfl | rfl | rfl | rfl | rfl <;> decide

/-- The characters above 32, as signed characters: those from 33 to 127. -/
theorem lt_schar_iff (c : Char) : 32 < schar c ↔ 33 ≤ c.toNat ∧ c.toNat ≤ 127 := by
  unfold schar
  split <;> omega

/-- Dropping more of an end that is partly dropped. -/
theorem rdropWhile_rdropWhile_of_imp {α : Type*} {p q : α → Bool} (h : ∀ c, q c = true → p c = true)
    (l : List α) : (l.rdropWhile q).rdropWhile p = l.rdropWhile p := by
  induction l using List.reverseRecOn with
  | nil => rfl
  | append_singleton l c ih =>
      by_cases hq : q c = true
      · rw [List.rdropWhile_concat_pos q l c hq, List.rdropWhile_concat_pos p l c (h c hq), ih]
      · rw [List.rdropWhile_concat_neg q l c hq]

/-- A line that ends in a character from 33 to 127 is not cut. -/
theorem cutLine_eq_self_iff (l : List Char) :
    cutLine l = l ↔ ∀ c ∈ l.getLast?, 33 ≤ c.toNat ∧ c.toNat ≤ 127 := by
  unfold cutLine
  rw [List.rdropWhile_eq_self_iff]
  constructor
  · intro h c hc
    have hne : l ≠ [] := by
      rintro rfl
      simp at hc
    obtain rfl : l.getLast hne = c := by
      rw [List.getLast?_eq_some_getLast hne] at hc
      exact Option.some.inj hc
    rw [← lt_schar_iff]
    simpa using h hne
  · intro h hne
    have hlast := h (l.getLast hne) (List.getLast?_eq_some_getLast hne)
    rw [← lt_schar_iff] at hlast
    simpa using hlast

/-- A line comes through: of a comment, every piece behind a carriage return is blank or a comment
too; any other line that is not blank ends, white space apart, in a character from 33 to 127. -/
def LineKept (l : List Char) : Prop :=
  (BlankOrComment l → ∀ piece ∈ l.splitOn '\r', BlankOrComment piece) ∧
    (¬ BlankOrComment l → ∀ c ∈ (stripped l).getLast?, 33 ≤ c.toNat ∧ c.toNat ≤ 127)

instance (l : List Char) : Decidable (LineKept l) := inferInstanceAs (Decidable (_ ∧ _))

/-- **One line** makes what it should exactly when it comes through. -/
theorem lineOut_eq_lineOption_iff {l : List Char} (hn : '\n' ∉ l) :
    lineOut l = lineOption l ↔ LineKept l := by
  unfold lineOut lineOption LineKept
  by_cases hblank : BlankOrComment l
  · rw [if_pos hblank, ← skipTo_eq_nil_iff hn]
    by_cases hempty : skipTo false l = []
    · rw [if_pos hempty]
      exact iff_of_true rfl ⟨fun _ => hempty, fun h => absurd hblank h⟩
    · rw [if_neg hempty]
      exact iff_of_false (List.cons_ne_nil _ _) fun h => hempty (h.1 hblank)
  · have hne : skipTo false l ≠ [] := by
      rw [skipTo_of_not_blankOrComment hblank]
      exact fun h => hblank (Or.inl h)
    have hcut : cutLine (skipTo false l) = cutLine (stripped l) := by
      rw [skipTo_of_not_blankOrComment hblank]
      exact (rdropWhile_rdropWhile_of_imp (fun c hc => decide_eq_true (schar_le_of_isSpace hc))
        _).symm
    rw [if_neg hblank, if_neg hne, hcut, List.singleton_inj, cutLine_eq_self_iff]
    exact ⟨fun h => ⟨fun hb => absurd hb hblank, fun _ => h⟩, fun h => h.2 hblank⟩

/-- The reader makes at least as many strings of a line as it should. -/
theorem length_lineOption_le (l : List Char) : (lineOption l).length ≤ (lineOut l).length := by
  unfold lineOption lineOut
  by_cases hblank : BlankOrComment l
  · rw [if_pos hblank]
    exact Nat.zero_le _
  · have hne : skipTo false l ≠ [] := by
      rw [skipTo_of_not_blankOrComment hblank]
      exact fun h => hblank (Or.inl h)
    rw [if_neg hblank, if_neg hne]
    exact le_rfl

/-! ## The whole file -/

/-- Two texts made piece by piece, each piece of the first at least as long as that of the second:
they are the same when the pieces are. -/
theorem flatMap_eq_flatMap_iff {α β : Type*} {f g : α → List β} {l : List α}
    (h : ∀ x ∈ l, (g x).length ≤ (f x).length) :
    l.flatMap f = l.flatMap g ↔ ∀ x ∈ l, f x = g x := by
  refine ⟨fun heq => ?_, fun hall => List.flatMap_congr hall⟩
  induction l with
  | nil => simp
  | cons x l ih =>
      have hl : ∀ y ∈ l, (g y).length ≤ (f y).length := fun y hy => h y (List.mem_cons_of_mem x hy)
      have hsum : (l.flatMap g).length ≤ (l.flatMap f).length := by
        rw [List.length_flatMap, List.length_flatMap]
        exact List.sum_le_sum hl
      rw [List.flatMap_cons, List.flatMap_cons] at heq
      -- the totals are equal, so neither the first piece nor the rest is longer
      have hlen : (f x).length = (g x).length := by
        have htotal := congrArg List.length heq
        rw [List.length_append, List.length_append] at htotal
        have hx := h x List.mem_cons_self
        omega
      obtain ⟨hx, hrest⟩ := List.append_inj heq hlen
      exact List.forall_mem_cons.mpr ⟨hx, ih hl hrest⟩

/-- No piece between newlines has a newline. -/
theorem notMem_of_mem_splitOn {a : Char} {s piece : List Char} (h : piece ∈ s.splitOn a) :
    a ∉ piece := by
  induction hn : s.length using Nat.strongRecOn generalizing s with
  | ind k ih =>
      by_cases ha : a ∈ s
      · obtain ⟨x, y, rfl, hx⟩ := List.eq_append_cons_of_mem ha
        rw [List.length_append, List.length_cons] at hn
        rw [List.splitOn_append_cons_self_of_not_mem hx] at h
        rcases List.mem_cons.mp h with rfl | h
        · exact hx
        · exact ih y.length (by omega) h rfl
      · rw [List.splitOn_eq_singleton ha] at h
        obtain rfl := List.mem_singleton.mp h
        exact ha

/-- **When the config reader hands over exactly the option lines**: when each line of the file comes
through. Where no string handed over is an error, the reader ends with all of them. -/
theorem config_lines_handed_over_iff (isError : List Char → Bool) (content : List Char)
    (hok : ∀ passed ∈ fgcomParseOptions isError content, ∀ l ∈ passed, isError l = false) :
    (∃ passed, fgcomParseOptions isError content = some passed) ∧
      (fgcomParseOptions isError content = some (optionLines content) ↔
        ∀ l ∈ content.splitOn '\n', LineKept l) := by
  have heq := fgcomParseOptions_eq isError content
  refine ⟨⟨_, heq⟩, ?_⟩
  rw [heq, upToError_of_forall (hok _ heq), Option.some_inj, optionLines,
    flatMap_eq_flatMap_iff fun l _ => length_lineOption_le l]
  exact forall₂_congr fun l hl => lineOut_eq_lineOption_iff (notMem_of_mem_splitOn hl)

/-- A config file with comments, blank lines, both line ends and no newline at the end. -/
def someConfig : List Char :=
  "# fgcom\r\n\n  --user=pilot \r\n\t# password\n--password=s3cret\n-d".toList

/-- The lines of `someConfig` are handed over, and none of them is empty. -/
theorem config_lines_handed_over_someConfig :
    (∃ passed, fgcomParseOptions (fun l => l.isEmpty) someConfig = some passed) ∧
      (fgcomParseOptions (fun l => l.isEmpty) someConfig = some (optionLines someConfig) ↔
        ∀ l ∈ someConfig.splitOn '\n', LineKept l) :=
  config_lines_handed_over_iff (fun l => l.isEmpty) someConfig (by decide +kernel)

/-- **Bytes lost and a comment read**: a last byte above 127 is cut off as a negative character, and
what stands behind a carriage return in a comment is taken for an option. -/
theorem config_line_mangled :
    fgcomParseOptions (fun _ => false) "--password=gr\u00fc\n# a\r-d\n".toList
        = some ["--password=gr".toList, "-d".toList] ∧
      optionLines "--password=gr\u00fc\n# a\r-d\n".toList = ["--password=gr\u00fc".toList] := by
  decide +kernel

end Fgcom
