import Fgcom.Client

/-! # The special-frequencies file

`parser_get_next_value` scans the content of the file for the next number, and
`read_special_frequencies` puts one after the other into an array. The scanner skips the character
behind a number, a `#` there too; looks for the first digit of a number across comments and ends of
lines; and returns success when the file ends before it finds one.

* **`readSpecialFrequencies`** — the array, terminator included. What `l_value` holds before the
  first number is read is a parameter.
* **`numbersOf`** — the numbers that stand outside comments.
* **`Layout`** — the files the scanner understands, with their numbers: in front of a number blanks,
  ends of lines, whole comment lines and then a text without digits; behind the last one nothing
  but a last line of blanks.
* **`special_frequencies_iff`** — the array is the list of the numbers exactly for these. -/

namespace Fgcom

/-! ## The scanner -/

/-- The characters a number goes on with. -/
def isNumberChar (c : Char) : Bool := c.isDigit || c = '.' || c = ','

/-- A space or a tab. -/
def isBlank (c : Char) : Bool := c = ' ' || c = '\t'

section Model

variable {R : Type} [CFloat R]

/-- The main loop of `parser_get_next_value` on the text from `s_index` on: `none` for `-1`, else
the value and the text behind it. The fuel counts the rounds. -/
def parserLoop : ℕ → R → List Char → Option (Option (R × List Char))
  | 0, _, _ => none
  | n + 1, value, s =>
      if s = [] then some (some (value, []))
      else
        match s.dropWhile isBlank with
        | [] => some none
        | c :: t =>
            if c = '\n' then parserLoop n value t
            else if c = '#' then parserLoop n value ((c :: t).dropWhile (· ≠ '\n'))
            else
              match (c :: t).dropWhile fun d => !d.isDigit with
              -- the loop ends, and the value is the one before
              | [] => some (some (value, []))
              -- the character behind the number is skipped
              | d :: u =>
                  some (some (CFloat.atof (d :: u.takeWhile isNumberChar),
                    (u.dropWhile isNumberChar).drop 1))

/-- `parser_get_next_value`. -/
def parserGetNextValue (value : R) (s : List Char) : Option (Option (R × List Char)) :=
  if s = [] then some none else parserLoop (s.length + 1) value s

/-- The loop of `read_special_frequencies`. -/
def readLoop : ℕ → R → List Char → Option (List R)
  | 0, _, _ => none
  | n + 1, value, s =>
      (parserGetNextValue value s).bind fun
        | none => some []
        | some (value, rest) => (readLoop n value rest).map (value :: ·)

/-- `read_special_frequencies` on the content of an open file, with what `l_value` happens to
hold. -/
def readSpecialFrequencies (value : R) (content : List Char) : Option (List R) :=
  (readLoop (content.length + 1) value content).map (· ++ [CFloat.lit (-1)])

end Model

/-! ## The numbers of a file -/

/-- The numbers of a text: the pieces of digits, dots and commas, from their first digit on. -/
def numberRuns (s : List Char) : List (List Char) :=
  ((s.splitOnP fun c => !isNumberChar c).map (List.dropWhile fun c => !c.isDigit)).filter (· ≠ [])

/-- The numbers that stand outside comments, line by line. -/
def numbersOf (content : List Char) : List (List Char) :=
  (content.splitOn '\n').flatMap fun line => numberRuns (line.takeWhile (· ≠ '#'))

example : numbersOf "121.5 # 7\n122,75;.910".toList
    = ["121.5".toList, "122,75".toList, "910".toList] := by decide

/-! ## The layout of a file -/

/-- Blanks, ends of lines and whole comment lines. -/
inductive Skipped : List Char → Prop
  | nil : Skipped []
  | blank {c : Char} {s : List Char} (hc : isBlank c = true) (h : Skipped s) : Skipped (c :: s)
  | newline {s : List Char} (h : Skipped s) : Skipped ('\n' :: s)
  | comment {body s : List Char} (hbody : '\n' ∉ body) (h : Skipped s) :
      Skipped ('#' :: (body ++ '\n' :: s))

/-- What may stand in front of a number: skipped text, and then other text without digits. -/
def Leading (g : List Char) : Prop :=
  ∃ skipped text, g = skipped ++ text ∧ Skipped skipped ∧ (∀ c ∈ text, c.isDigit = false) ∧
    ∀ c ∈ text.head?, isBlank c = false ∧ c ≠ '\n' ∧ c ≠ '#'

/-- What may stand behind the last number: skipped text that ends in a blank, or nothing. -/
def Trailing (g : List Char) : Prop := Skipped g ∧ ∀ c ∈ g.getLast?, isBlank c = true

/-- A number: a digit, and characters a number goes on with. -/
def IsRun (run : List Char) : Prop :=
  ∃ c t, run = c :: t ∧ c.isDigit = true ∧ ∀ d ∈ t, isNumberChar d = true

/-- **The files the scanner understands**, with their numbers. One character behind a number is not
looked at. -/
inductive Layout : List Char → List (List Char) → Prop
  | behind {g : List Char} (h : Trailing g) : Layout g []
  | number {g run tail : List Char} {runs : List (List Char)} (hg : Leading g) (hrun : IsRun run)
      (htail : ∀ c ∈ tail.head?, isNumberChar c = false) (h : Layout (tail.drop 1) runs) :
      Layout (g ++ run ++ tail) (run :: runs)

/-- **A file is read faithfully**: the array is the numbers outside comments and the terminator,
whatever the numbers are stored as; and with exact arithmetic the scan of `check_special_frq` stops
in it, and finds a whole number of kHz exactly when it is one of the numbers. -/
def FileFaithful (content : List Char) : Prop :=
  (∀ (R : Type) [CFloat R] (value : R), readSpecialFrequencies value content
    = some ((numbersOf content).map CFloat.atof ++ [CFloat.lit (-1)])) ∧
  ∀ (value : ℚ) (table : List ℚ), readSpecialFrequencies value content = some table →
    (∃ x ∈ table, CFloat.le (CFloat.lit 0 : ℚ) x = false) ∧
    ∀ k : ℤ, specialScan (ceilKhz ((k : ℚ) / 1000)) table = true ↔
      (k : ℚ) / 1000 ∈ (numbersOf content).map CFloat.atof

/-! ## The scanner, as a function of the text -/

/-- Where the scanner stands: at the start of a round, behind blanks, in a comment, or in a text in
which it looks for a digit. -/
inductive Mode
  | line | blanks | comment | text

/-- What a call finds. -/
inductive Next
  | ended
  | stale
  | number (run rest : List Char)

/-- A number found at its first digit. -/
def numberAt (c : Char) (t : List Char) : Next :=
  .number (c :: t.takeWhile isNumberChar) ((t.dropWhile isNumberChar).drop 1)

/-- What a call finds in a text. -/
def next : Mode → List Char → Next
  | .blanks, [] => .ended
  | _, [] => .stale
  | .comment, c :: t => if c = '\n' then next .line t else next .comment t
  | .text, c :: t => if c.isDigit then numberAt c t else next .text t
  | _, c :: t =>
      if isBlank c then next .blanks t
      else if c = '\n' then next .line t
      else if c = '#' then next .comment t
      else if c.isDigit then numberAt c t
      else next .text t

/-- Behind blanks a character is read as at the start of a round. -/
theorem next_blanks_cons (c : Char) (t : List Char) :
    next .blanks (c :: t) = next .line (c :: t) := by
  rw [next, next] <;> exact fun h => Mode.noConfusion h

/-- A round in front of a character. -/
theorem next_line_cons (c : Char) (t : List Char) :
    next .line (c :: t)
      = if isBlank c then next .blanks t else if c = '\n' then next .line t
        else if c = '#' then next .comment t else if c.isDigit then numberAt c t
        else next .text t := by
  rw [next] <;> exact fun h => Mode.noConfusion h

/-- A digit starts a number at once. -/
theorem next_line_of_isDigit {c : Char} (hc : c.isDigit = true) (t : List Char) :
    next .line (c :: t) = numberAt c t := by
  have hblank : ¬ isBlank c = true := by
    rw [isBlank, Bool.or_eq_true, decide_eq_true_eq, decide_eq_true_eq]
    rintro (rfl | rfl) <;> exact absurd hc (by decide)
  have hnl : c ≠ '\n' := by
    rintro rfl
    exact absurd hc (by decide)
  have hhash : c ≠ '#' := by
    rintro rfl
    exact absurd hc (by decide)
  rw [next_line_cons, if_neg hblank, if_neg hnl, if_neg hhash, if_pos hc]

/-- Blanks are skipped. -/
theorem next_blanks (s : List Char) :
    next .blanks s
      = if s.dropWhile isBlank = [] then .ended else next .line (s.dropWhile isBlank) := by
  induction s with
  | nil => rfl
  | cons c t ih =>
      rw [next_blanks_cons, next_line_cons]
      by_cases hc : isBlank c = true
      · rw [if_pos hc, List.dropWhile_cons_of_pos hc]
        exact ih
      · rw [if_neg hc, List.dropWhile_cons_of_neg hc, if_neg (List.cons_ne_nil c t),
          next_line_cons, if_neg hc]

/-- A comment is skipped up to the end of its line. -/
theorem next_comment (s : List Char) : next .comment s = next .line (s.dropWhile (· ≠ '\n')) := by
  induction s with
  | nil => rfl
  | cons c t ih =>
      rw [next]
      by_cases hc : c = '\n'
      · subst hc
        rfl
      · rw [if_neg hc, List.dropWhile_cons_of_pos (by simpa using hc)]
        exact ih

/-- A text is skipped up to its first digit. -/
theorem next_text (s : List Char) :
    next .text s
      = match s.dropWhile fun d => !d.isDigit with
        | [] => .stale
        | d :: u => numberAt d u := by
  induction s with
  | nil => rfl
  | cons c t ih =>
      rw [next]
      by_cases hc : c.isDigit = true
      · rw [if_pos hc, List.dropWhile_cons_of_neg (by simpa using hc)]
      · rw [if_neg hc, List.dropWhile_cons_of_pos (by simpa using hc)]
        exact ih

section Scan

variable {R : Type} [CFloat R]

/-- What a call returns for what it finds. -/
def Next.result (value : R) : Next → Option (R × List Char)
  | .ended => none
  | .stale => some (value, [])
  | .number run rest => some (CFloat.atof run, rest)

/-- **The main loop finds what `next` finds**, for enough fuel. -/
theorem parserLoop_eq (value : R) (s : List Char) {n : ℕ} (hn : s.length < n) :
    parserLoop n value s = some ((next .line s).result value) := by
  induction n generalizing s with
  | zero => omega
  | succ n ih =>
      cases s with
      | nil => rfl
      | cons c₀ t₀ =>
          have hround : next .line (c₀ :: t₀)
              = if (c₀ :: t₀).dropWhile isBlank = [] then .ended
                else next .line ((c₀ :: t₀).dropWhile isBlank) := by
            rw [← next_blanks_cons, next_blanks]
          have hlen : ((c₀ :: t₀).dropWhile isBlank).length ≤ (c₀ :: t₀).length :=
            (List.dropWhile_suffix _).length_le
          rw [parserLoop, if_neg (List.cons_ne_nil c₀ t₀), hround]
          cases hdrop : (c₀ :: t₀).dropWhile isBlank with
          | nil => rfl
          | cons c t =>
              have hc : isBlank c = false := by
                have hhead := List.head?_dropWhile_not isBlank (c₀ :: t₀)
                rw [hdrop] at hhead
                simpa using hhead
              rw [hdrop, List.length_cons] at hlen
              rw [if_neg (List.cons_ne_nil c t), next_line_cons,
                if_neg (Bool.eq_false_iff.mp hc)]
              dsimp only
              split
              · exact ih t (by omega)
              · rename_i hnl
                have hskip : (c :: t).dropWhile (· ≠ '\n') = t.dropWhile (· ≠ '\n') :=
                  List.dropWhile_cons_of_pos (by simpa using hnl)
                split
                · rw [hskip, next_comment]
                  have hle := (List.dropWhile_suffix (l := t) fun d => decide (d ≠ '\n')).length_le
                  exact ih _ (by omega)
                · rename_i hhash
                  have htext : (if c.isDigit = true then numberAt c t else next .text t)
                      = next .text (c :: t) := rfl
                  rw [htext, next_text]
                  cases (c :: t).dropWhile fun d => !d.isDigit with
                  | nil => rfl
                  | cons d u => rfl

/-- What the calls read from a text on: the numbers, and whether a last call returns with no
number of its own. -/
inductive Reads : List Char → List (List Char) → Bool → Prop
  | atEnd : Reads [] [] false
  | ended {s : List Char} (h : next .line s = .ended) : Reads s [] false
  | stale {s : List Char} (hs : s ≠ []) (h : next .line s = .stale) : Reads s [] true
  | number {s run rest : List Char} {runs : List (List Char)} {last : Bool}
      (h : next .line s = .number run rest) (hrest : Reads rest runs last) :
      Reads s (run :: runs) last

/-- A call in front of some text. -/
theorem parserGetNextValue_of_ne {s : List Char} (hs : s ≠ []) (value : R) :
    parserGetNextValue value s = some ((next .line s).result value) := by
  rw [parserGetNextValue, if_neg hs]
  exact parserLoop_eq value s (Nat.lt_succ_self _)

end Scan

/-! ## The grammar of what is skipped -/

/-- What the scanner skips in front of a number, by the place where it stands. -/
def Front : Mode → List Char → Prop
  | .line, g | .blanks, g => Leading g
  | .comment, g => ∃ body g', g = body ++ '\n' :: g' ∧ '\n' ∉ body ∧ Leading g'
  | .text, g => ∀ c ∈ g, c.isDigit = false

theorem leading_blank {c : Char} {g : List Char} (hc : isBlank c = true) (h : Leading g) :
    Leading (c :: g) := by
  obtain ⟨skipped, text, rfl, hskipped, htext, hhead⟩ := h
  exact ⟨c :: skipped, text, rfl, hskipped.blank hc, htext, hhead⟩

theorem leading_newline {g : List Char} (h : Leading g) : Leading ('\n' :: g) := by
  obtain ⟨skipped, text, rfl, hskipped, htext, hhead⟩ := h
  exact ⟨'\n' :: skipped, text, rfl, hskipped.newline, htext, hhead⟩

theorem leading_comment {g : List Char} (h : Front .comment g) : Leading ('#' :: g) := by
  obtain ⟨body, g', rfl, hbody, skipped, text, rfl, hskipped, htext, hhead⟩ := h
  refine ⟨'#' :: (body ++ '\n' :: skipped), text, ?_, hskipped.comment hbody, htext, hhead⟩
  simp

theorem leading_text {c : Char} {g : List Char} (h : Front .text g) (hblank : isBlank c = false)
    (hnl : c ≠ '\n') (hhash : c ≠ '#') (hdigit : c.isDigit = false) : Leading (c :: g) := by
  refine ⟨[], c :: g, rfl, .nil, List.forall_mem_cons.mpr ⟨hdigit, h⟩, fun d hd => ?_⟩
  obtain rfl : c = d := by simpa using hd
  exact ⟨hblank, hnl, hhash⟩

theorem leading_nil : Leading [] := ⟨[], [], rfl, .nil, by simp, by simp⟩

/-- What a number is, and what stands behind it. -/
theorem numberAt_eq_number {c : Char} {t run rest : List Char} (hc : c.isDigit = true)
    (h : numberAt c t = .number run rest) :
    ∃ tail, c :: t = run ++ tail ∧ IsRun run ∧ (∀ d ∈ tail.head?, isNumberChar d = false) ∧
      rest = tail.drop 1 := by
  obtain ⟨rfl, rfl⟩ := Next.number.inj h
  refine ⟨t.dropWhile isNumberChar, ?_, ⟨c, _, rfl, hc, fun d hd => List.mem_takeWhile_imp hd⟩,
    fun d hd => ?_, rfl⟩
  · rw [List.cons_append, List.takeWhile_append_dropWhile]
  · have hhead := List.head?_dropWhile_not isNumberChar t
    rw [Option.mem_def.mp hd] at hhead
    simpa using hhead

/-- A text with a number behind what is skipped, and what is left of it behind the number and the
character after it. -/
def NumberBehind (m : Mode) (s run rest : List Char) : Prop :=
  ∃ g tail, s = g ++ run ++ tail ∧ Front m g ∧ IsRun run ∧
    (∀ d ∈ tail.head?, isNumberChar d = false) ∧ rest = tail.drop 1

/-- The number starts here. -/
theorem numberBehind_here {m : Mode} {c : Char} {t run rest : List Char} (hc : c.isDigit = true)
    (hfront : Front m []) (h : numberAt c t = .number run rest) :
    NumberBehind m (c :: t) run rest := by
  obtain ⟨tail, heq, hrun, htail, hrest⟩ := numberAt_eq_number hc h
  exact ⟨[], tail, heq, hfront, hrun, htail, hrest⟩

/-- The number stands behind one more character that is skipped. -/
theorem NumberBehind.cons {m m' : Mode} {c : Char} {t run rest : List Char}
    (h : NumberBehind m' t run rest) (hfront : ∀ g, Front m' g → Front m (c :: g)) :
    NumberBehind m (c :: t) run rest := by
  obtain ⟨g, tail, rfl, hg, hrun, htail, hrest⟩ := h
  exact ⟨c :: g, tail, rfl, hfront g hg, hrun, htail, hrest⟩

/-- The first character of a line, when the scanner finds numbers behind every character of it. -/
theorem numberBehind_line {c : Char} {t run rest : List Char}
    (ih : ∀ m, next m t = .number run rest → NumberBehind m t run rest)
    (h : next .line (c :: t) = .number run rest) : NumberBehind .line (c :: t) run rest := by
  rw [next_line_cons] at h
  split at h
  · rename_i hblank
    exact (ih .blanks h).cons fun g hg => leading_blank hblank hg
  · rename_i hblank
    split at h
    · rename_i hnl
      exact (ih .line h).cons fun g hg => hnl ▸ leading_newline hg
    · rename_i hnl
      split at h
      · rename_i hhash
        exact (ih .comment h).cons fun g hg => hhash ▸ leading_comment hg
      · rename_i hhash
        split at h
        · rename_i hdigit
          exact numberBehind_here hdigit leading_nil h
        · rename_i hdigit
          exact (ih .text h).cons fun g hg => leading_text hg (by simpa using hblank) hnl hhash
            (by simpa using hdigit)

/-- **What is found is a number**, behind what the scanner skips. -/
theorem exists_front_of_next {m : Mode} {s run rest : List Char}
    (h : next m s = .number run rest) : NumberBehind m s run rest := by
  induction s generalizing m with
  | nil => cases m <;> exact Next.noConfusion h
  | cons c t ih =>
      have hline := numberBehind_line (c := c) fun m => ih (m := m)
      cases m with
      | line => exact hline h
      | blanks => exact hline (next_blanks_cons c t ▸ h)
      | comment =>
          rw [next] at h
          split at h
          · rename_i hnl
            exact (ih h).cons fun g hg => ⟨[], g, by rw [hnl]; rfl, List.not_mem_nil, hg⟩
          · rename_i hnl
            refine (ih h).cons fun g hg => ?_
            obtain ⟨body, g', rfl, hbody, hlead⟩ := hg
            exact ⟨c :: body, g', rfl, by simp [hbody, Ne.symm hnl], hlead⟩
      | text =>
          rw [next] at h
          split at h
          · rename_i hdigit
            exact numberBehind_here hdigit (by simp [Front]) h
          · rename_i hdigit
            exact (ih h).cons fun g hg => List.forall_mem_cons.mpr ⟨by simpa using hdigit, hg⟩

/-- In front of some text it makes no difference whether blanks came before. -/
theorem next_blanks_of_ne {s : List Char} (hs : s ≠ []) : next .blanks s = next .line s := by
  obtain ⟨c, t, rfl⟩ := List.exists_cons_of_ne_nil hs
  exact next_blanks_cons c t

/-- Skipped text is skipped, in front of some other text. -/
theorem next_skipped {skipped s : List Char} (h : Skipped skipped) (hs : s ≠ []) :
    next .line (skipped ++ s) = next .line s := by
  induction h with
  | nil => rfl
  | blank hc h ih =>
      rw [List.cons_append, next_line_cons, if_pos hc, next_blanks_of_ne (by simp [hs])]
      exact ih
  | newline h ih => exact ih
  | @comment body s' hbody h ih =>
      have hskip : next .line ('#' :: (body ++ '\n' :: s') ++ s)
          = next .comment (body ++ '\n' :: (s' ++ s)) := by
        rw [List.cons_append, List.append_assoc]
        rfl
      have hdrop : (body ++ '\n' :: (s' ++ s)).dropWhile (· ≠ '\n') = '\n' :: (s' ++ s) := by
        rw [List.dropWhile_append_of_pos]
        · exact List.dropWhile_cons_of_neg (by simp)
        · intro d hd
          exact decide_eq_true fun heq => hbody (heq ▸ hd)
      rw [hskip, next_comment, hdrop]
      exact ih

/-- A number behind what may stand in front of it is found. -/
theorem next_leading {g run tail : List Char} (hg : Leading g) (hrun : IsRun run)
    (htail : ∀ c ∈ tail.head?, isNumberChar c = false) :
    next .line (g ++ run ++ tail) = .number run (tail.drop 1) := by
  obtain ⟨skipped, text, rfl, hskipped, htext, hhead⟩ := hg
  obtain ⟨c, t, rfl, hc, ht⟩ := hrun
  have hnumber : numberAt c (t ++ tail) = .number (c :: t) (tail.drop 1) := by
    have hstop : tail.takeWhile isNumberChar = [] ∧ tail.dropWhile isNumberChar = tail := by
      cases tail with
      | nil => exact ⟨rfl, rfl⟩
      | cons d u => simp [htail d rfl]
    rw [numberAt, List.takeWhile_append_of_pos ht, List.dropWhile_append_of_pos ht, hstop.1,
      hstop.2, List.append_nil]
  have htextNext : next .text (text ++ c :: (t ++ tail)) = .number (c :: t) (tail.drop 1) := by
    rw [next_text, List.dropWhile_append_of_pos fun d hd => by simp [htext d hd],
      List.dropWhile_cons_of_neg (by simp [hc])]
    exact hnumber
  have hassoc : skipped ++ text ++ c :: t ++ tail = skipped ++ (text ++ c :: (t ++ tail)) := by
    simp
  rw [hassoc, next_skipped hskipped (by simp)]
  cases text with
  | nil =>
      rw [List.nil_append, next_line_of_isDigit hc]
      exact hnumber
  | cons d u =>
      obtain ⟨hblank, hnl, hhash⟩ := hhead d rfl
      have hdigit : ¬ d.isDigit = true := by simp [htext d List.mem_cons_self]
      rw [List.cons_append] at htextNext ⊢
      rw [next_line_cons, if_neg (Bool.eq_false_iff.mp hblank), if_neg hnl, if_neg hhash,
        if_neg hdigit]
      rw [next, if_neg hdigit] at htextNext
      exact htextNext

/-- Behind the last number: what the scanner may stand in front of when it ends. -/
def Behind : Mode → List Char → Prop
  | .line, s => s ≠ [] ∧ Trailing s
  | .blanks, s => Trailing s
  | .comment, s => ∃ body s', s = body ++ '\n' :: s' ∧ '\n' ∉ body ∧ s' ≠ [] ∧ Trailing s'
  | .text, _ => False

/-- The last character of a text is the last one of its end. -/
theorem getLast?_cons_of_ne {c : Char} {s : List Char} (hs : s ≠ []) :
    (c :: s).getLast? = s.getLast? := by
  obtain ⟨d, t, rfl⟩ := List.exists_cons_of_ne_nil hs
  rfl

/-- **A call ends only in front of skipped text with a blank at its end.** -/
theorem behind_of_next {m : Mode} {s : List Char} (h : next m s = .ended) : Behind m s := by
  induction s generalizing m with
  | nil =>
      cases m with
      | blanks => exact ⟨.nil, by simp⟩
      | line => exact Next.noConfusion h
      | comment => exact Next.noConfusion h
      | text => exact Next.noConfusion h
  | cons c t ih =>
      have hline : next .line (c :: t) = .ended → Trailing (c :: t) := by
        intro hnext
        rw [next_line_cons] at hnext
        split at hnext
        · rename_i hblank
          obtain ⟨hskipped, hlast⟩ := ih (m := .blanks) hnext
          refine ⟨hskipped.blank hblank, ?_⟩
          by_cases ht : t = []
          · subst ht
            simpa using hblank
          · rwa [getLast?_cons_of_ne ht]
        · split at hnext
          · rename_i hnl
            obtain ⟨hne, hskipped, hlast⟩ := ih (m := .line) hnext
            subst hnl
            exact ⟨hskipped.newline, by rwa [getLast?_cons_of_ne hne]⟩
          · split at hnext
            · rename_i hhash
              obtain ⟨body, s', rfl, hbody, hne, hskipped, hlast⟩ := ih (m := .comment) hnext
              subst hhash
              refine ⟨hskipped.comment hbody, ?_⟩
              rw [getLast?_cons_of_ne (by simp), List.getLast?_append_cons, getLast?_cons_of_ne hne]
              exact hlast
            · split at hnext
              · exact Next.noConfusion hnext
              · exact (ih (m := .text) hnext).elim
      cases m with
      | line => exact ⟨List.cons_ne_nil c t, hline h⟩
      | blanks => exact hline (next_blanks_cons c t ▸ h)
      | comment =>
          rw [next] at h
          split at h
          · rename_i hnl
            obtain ⟨hne, htrailing⟩ := ih (m := .line) h
            exact ⟨[], t, by rw [hnl]; rfl, List.not_mem_nil, hne, htrailing⟩
          · rename_i hnl
            obtain ⟨body, s', rfl, hbody, hne, htrailing⟩ := ih (m := .comment) h
            exact ⟨c :: body, s', rfl, by simp [hbody, Ne.symm hnl], hne, htrailing⟩
      | text =>
          rw [next] at h
          split at h
          · exact Next.noConfusion h
          · exact ih (m := .text) h

/-- In front of such a text a call ends. -/
theorem next_trailing {s : List Char} (hs : s ≠ []) (h : Trailing s) :
    next .line s = .ended := by
  obtain ⟨hskipped, hlast⟩ := h
  induction hskipped with
  | nil => exact absurd rfl hs
  | @blank c t hc hskipped ih =>
      rw [next_line_cons, if_pos hc]
      by_cases ht : t = []
      · subst ht
        rfl
      · rw [next_blanks_of_ne ht]
        exact ih ht (by rwa [getLast?_cons_of_ne ht] at hlast)
  | @newline t hskipped ih =>
      have ht : t ≠ [] := by
        rintro rfl
        exact absurd (hlast '\n' rfl) (by decide)
      exact ih ht (by rwa [getLast?_cons_of_ne ht] at hlast)
  | @comment body t hbody hskipped ih =>
      rw [getLast?_cons_of_ne (by simp), List.getLast?_append_cons] at hlast
      have ht : t ≠ [] := by
        rintro rfl
        exact absurd (hlast '\n' rfl) (by decide)
      have hsplit : '#' :: (body ++ '\n' :: t) = '#' :: (body ++ ['\n']) ++ t := by simp
      rw [hsplit, next_skipped (.comment hbody .nil) ht]
      exact ih ht (by rwa [getLast?_cons_of_ne ht] at hlast)

/-! ## What is read -/

/-- A file of the layout is read to its end. -/
theorem reads_of_layout {s : List Char} {runs : List (List Char)} (h : Layout s runs) :
    Reads s runs false := by
  induction h with
  | @behind g h =>
      by_cases hg : g = []
      · subst hg
        exact .atEnd
      · exact .ended (next_trailing hg h)
  | number hg hrun htail h ih => exact .number (next_leading hg hrun htail) ih

/-- A file that is read to its end is of the layout. -/
theorem layout_of_reads {s : List Char} {runs : List (List Char)} (h : Reads s runs false) :
    Layout s runs := by
  generalize hlast : false = last at h
  induction h with
  | atEnd => exact .behind ⟨.nil, by simp⟩
  | ended h => exact .behind (behind_of_next h).2
  | stale hs h => exact Bool.noConfusion hlast
  | number h hrest ih =>
      obtain ⟨g, tail, rfl, hg, hrun, htail, rfl⟩ := exists_front_of_next h
      exact .number hg hrun htail (ih hlast)

/-- Every call that finds a number gets on. -/
theorem length_lt_of_next {m : Mode} {s run rest : List Char}
    (h : next m s = .number run rest) : rest.length < s.length := by
  obtain ⟨g, tail, rfl, -, ⟨c, t, rfl, -⟩, -, rfl⟩ := exists_front_of_next h
  simp only [List.length_append, List.length_cons, List.length_drop]
  omega

/-- Every text is read. -/
theorem exists_reads (s : List Char) : ∃ runs last, Reads s runs last := by
  induction hlen : s.length using Nat.strongRecOn generalizing s with
  | ind k ih =>
      by_cases hs : s = []
      · subst hs
        exact ⟨[], false, .atEnd⟩
      · cases hnext : next .line s with
        | ended => exact ⟨[], false, .ended hnext⟩
        | stale => exact ⟨[], true, .stale hs hnext⟩
        | number run rest =>
            have hlt := length_lt_of_next hnext
            obtain ⟨runs, last, hreads⟩ := ih rest.length (by omega) rest rfl
            exact ⟨run :: runs, last, .number hnext hreads⟩

/-- **What the loop makes of what is read**: the values, and the last one once more where a call
returns with no number of its own. -/
theorem readLoop_of_reads {R : Type} [CFloat R] {s : List Char} {runs : List (List Char)}
    {last : Bool} (h : Reads s runs last) (value : R) {n : ℕ} (hn : s.length < n) :
    readLoop n value s = some (runs.map CFloat.atof ++
      if last then [(runs.map CFloat.atof).getLastD value] else []) := by
  induction h generalizing value n with
  | atEnd =>
      obtain ⟨n, rfl⟩ : ∃ k, n = k + 1 := ⟨n - 1, by omega⟩
      rfl
  | @ended s h =>
      obtain ⟨n, rfl⟩ : ∃ k, n = k + 1 := ⟨n - 1, by omega⟩
      have hs : s ≠ [] := by
        rintro rfl
        exact Next.noConfusion h
      rw [readLoop, parserGetNextValue_of_ne hs, h]
      rfl
  | @stale s hs h =>
      have hpos : 0 < s.length := List.length_pos_of_ne_nil hs
      obtain ⟨n, rfl⟩ : ∃ k, n = k + 2 := ⟨n - 2, by omega⟩
      rw [readLoop, parserGetNextValue_of_ne hs, h]
      rfl
  | @number s run rest runs last h hrest ih =>
      have hlt := length_lt_of_next h
      obtain ⟨n, rfl⟩ : ∃ k, n = k + 1 := ⟨n - 1, by omega⟩
      have hs : s ≠ [] := by
        rintro rfl
        exact Next.noConfusion h
      rw [readLoop, parserGetNextValue_of_ne hs, h]
      show (readLoop n (CFloat.atof run) rest).map (CFloat.atof run :: ·) = _
      rw [ih (CFloat.atof run) (by omega), List.map_cons, List.getLastD_cons]
      rfl

/-! ## The numbers, as a function of the text -/

section NumberRuns

variable {c : Char} {s t run rest : List Char}

/-- The numbers on both sides of a character that no number goes on with. -/
theorem numberRuns_append_cons (hc : isNumberChar c = false) :
    numberRuns (s ++ c :: t) = numberRuns s ++ numberRuns t := by
  unfold numberRuns
  rw [List.splitOnP_append_cons s t (by simp [hc]), List.map_append, List.filter_append]

/-- A character that is no digit starts no number. -/
theorem numberRuns_cons (hc : c.isDigit = false) : numberRuns (c :: t) = numberRuns t := by
  by_cases hchar : isNumberChar c = true
  · -- a dot or a comma is cut off the front of its piece
    obtain ⟨p, ps, hp⟩ := List.exists_cons_of_ne_nil
      (List.splitOnP_ne_nil (fun c => !isNumberChar c) t)
    unfold numberRuns
    rw [List.splitOnP_cons_eq_if_modifyHead, if_neg (by simp [hchar]), hp, List.modifyHead_cons,
      List.map_cons, List.map_cons, List.dropWhile_cons_of_pos (by simp [hc])]
  · exact numberRuns_append_cons (s := []) (Bool.eq_false_iff.mpr hchar)

/-- A number is one. -/
theorem numberRuns_of_isRun (h : IsRun run) : numberRuns run = [run] := by
  obtain ⟨c, t, rfl, hc, ht⟩ := h
  have hall : ∀ d ∈ c :: t, (!isNumberChar d) = false := by
    rw [List.forall_mem_cons]
    exact ⟨by simp [isNumberChar, hc], fun d hd => by simp [ht d hd]⟩
  unfold numberRuns
  rw [List.splitOnP_eq_singleton hall, List.map_singleton,
    List.dropWhile_cons_of_neg (by simp [hc])]
  rfl

/-- A number in front of a text it does not go on with. -/
theorem numberRuns_append (h : IsRun run) (hrest : ∀ d ∈ rest.head?, isNumberChar d = false) :
    numberRuns (run ++ rest) = run :: numberRuns rest := by
  cases rest with
  | nil => rw [List.append_nil, numberRuns_of_isRun h]; rfl
  | cons d u =>
      have hd := hrest d rfl
      have hdigit : d.isDigit = false := by
        rw [isNumberChar, Bool.or_eq_false_iff, Bool.or_eq_false_iff] at hd
        exact hd.1.1
      rw [numberRuns_append_cons hd, numberRuns_of_isRun h, numberRuns_cons hdigit]
      rfl

end NumberRuns

/-- What stands outside comments; the flag says whether the text starts in one. -/
def outsideComments : Bool → List Char → List Char
  | _, [] => []
  | true, c :: cs => if c = '\n' then '\n' :: outsideComments false cs else outsideComments true cs
  | false, c :: cs => if c = '#' then outsideComments true cs else c :: outsideComments false cs

/-- A line, in front of a text that starts outside comments anyway. -/
theorem outsideComments_append {l : List Char} (tail : List Char) (m : Bool) (hl : '\n' ∉ l)
    (htail : outsideComments true tail = outsideComments false tail) :
    outsideComments m (l ++ tail)
      = (if m then [] else l.takeWhile (· ≠ '#')) ++ outsideComments false tail := by
  induction l generalizing m with
  | nil =>
      cases m with
      | true => exact htail
      | false => rfl
  | cons c l ih =>
      rw [List.mem_cons, not_or] at hl
      rw [List.cons_append]
      cases m with
      | true =>
          rw [outsideComments, if_neg (Ne.symm hl.1)]
          exact ih true hl.2
      | false =>
          rw [outsideComments]
          by_cases hc : c = '#'
          · rw [if_pos hc, ih true hl.2]
            simp [hc]
          · rw [if_neg hc, ih false hl.2]
            simp [hc]

/-- Within a comment a line is dropped. -/
theorem outsideComments_true_append {l : List Char} (tail : List Char) (hl : '\n' ∉ l) :
    outsideComments true (l ++ tail) = outsideComments true tail := by
  induction l with
  | nil => rfl
  | cons c l ih =>
      rw [List.mem_cons, not_or] at hl
      rw [List.cons_append, outsideComments, if_neg (Ne.symm hl.1)]
      exact ih hl.2

/-- Outside comments everything is kept. -/
theorem outsideComments_false_append {l : List Char} (tail : List Char) (hl : '#' ∉ l) :
    outsideComments false (l ++ tail) = l ++ outsideComments false tail := by
  induction l with
  | nil => rfl
  | cons c l ih =>
      rw [List.mem_cons, not_or] at hl
      rw [List.cons_append, outsideComments, if_neg (Ne.symm hl.1), ih hl.2]
      rfl

/-- A number ends in front of a comment too. -/
theorem head?_outsideComments {tail : List Char}
    (htail : ∀ d ∈ tail.head?, isNumberChar d = false) :
    ∀ d ∈ (outsideComments false tail).head?, isNumberChar d = false := by
  have hcomment : ∀ u, ∀ d ∈ (outsideComments true u).head?, isNumberChar d = false := by
    intro u
    induction u with
    | nil => simp [outsideComments]
    | cons c u ih =>
        rw [outsideComments]
        by_cases hc : c = '\n'
        · rw [if_pos hc]
          rintro d hd
          obtain rfl : '\n' = d := by simpa using hd
          rfl
        · rw [if_neg hc]
          exact ih
  cases tail with
  | nil => simp [outsideComments]
  | cons c u =>
      rw [outsideComments]
      by_cases hc : c = '#'
      · rw [if_pos hc]
        exact hcomment u
      · rw [if_neg hc]
        exact htail

/-- **The numbers of a file** are the numbers of what stands outside comments. -/
theorem numbersOf_eq (content : List Char) :
    numbersOf content = numberRuns (outsideComments false content) := by
  unfold numbersOf
  induction hlen : content.length using Nat.strongRecOn generalizing content with
  | ind k ih =>
      by_cases hnl : '\n' ∈ content
      · obtain ⟨l, rest, rfl, hl⟩ := List.eq_append_cons_of_mem hnl
        rw [List.length_append, List.length_cons] at hlen
        have htail : outsideComments true ('\n' :: rest) = outsideComments false ('\n' :: rest) :=
          rfl
        rw [List.splitOn_append_cons_self_of_not_mem hl, List.flatMap_cons,
          ih rest.length (by omega) rest rfl, outsideComments_append _ false hl htail]
        exact (numberRuns_append_cons (c := '\n') rfl).symm
      · have hline := outsideComments_append [] false hnl rfl
        rw [List.append_nil] at hline
        rw [List.splitOn_eq_singleton hnl, List.flatMap_singleton, hline]
        simp [outsideComments]

/-! ## No number is missed -/

/-- What a call finds, against the numbers of the text: no number is left behind it, and in front
of it stands at most the one it returns. -/
def Found (m : Bool) (s : List Char) : Next → Prop
  | .number run rest => ∃ m', numberRuns (outsideComments m s)
      = numberRuns (outsideComments m' rest) ∨
        numberRuns (outsideComments m s) = run :: numberRuns (outsideComments m' rest)
  | _ => numberRuns (outsideComments m s) = []

/-- A character that is no digit hides no number. -/
theorem exists_outsideComments_cons {c : Char} (hc : c.isDigit = false) (m : Bool)
    (t : List Char) :
    ∃ m', (c = '#' → m' = true) ∧
      numberRuns (outsideComments m (c :: t)) = numberRuns (outsideComments m' t) := by
  cases m with
  | true =>
      rw [outsideComments]
      by_cases hnl : c = '\n'
      · rw [if_pos hnl]
        exact ⟨false, fun h => absurd (hnl.symm.trans h) (by decide), numberRuns_cons rfl⟩
      · rw [if_neg hnl]
        exact ⟨true, fun _ => rfl, rfl⟩
  | false =>
      rw [outsideComments]
      by_cases hhash : c = '#'
      · rw [if_pos hhash]
        exact ⟨true, fun _ => rfl, rfl⟩
      · rw [if_neg hhash]
        exact ⟨false, fun h => absurd h hhash, numberRuns_cons hc⟩

/-- A number, in or outside a comment. -/
theorem found_numberAt {c : Char} (hc : c.isDigit = true) (m : Bool) (t : List Char) :
    Found m (c :: t) (numberAt c t) := by
  obtain ⟨run, rest, hnumber⟩ : ∃ run rest, numberAt c t = .number run rest := ⟨_, _, rfl⟩
  obtain ⟨tail, heq, hrun, htail, rfl⟩ := numberAt_eq_number hc hnumber
  have hchars : ∀ d ∈ run, isNumberChar d = true := by
    obtain ⟨d, u, rfl, hd, hu⟩ := hrun
    exact List.forall_mem_cons.mpr ⟨by simp [isNumberChar, hd], hu⟩
  -- the character behind it may start a comment, but no number
  obtain ⟨m', hrest⟩ : ∃ m', numberRuns (outsideComments m tail)
      = numberRuns (outsideComments m' (tail.drop 1)) := by
    cases tail with
    | nil => exact ⟨m, rfl⟩
    | cons d u =>
        have hd := htail d rfl
        rw [isNumberChar, Bool.or_eq_false_iff, Bool.or_eq_false_iff] at hd
        obtain ⟨m', -, h⟩ := exists_outsideComments_cons hd.1.1 m u
        exact ⟨m', h⟩
  rw [hnumber, heq]
  refine ⟨m', ?_⟩
  cases m with
  | true =>
      have hnl : '\n' ∉ run := fun h => absurd (hchars _ h) (by decide)
      rw [outsideComments_true_append tail hnl]
      exact Or.inl hrest
  | false =>
      have hhash : '#' ∉ run := fun h => absurd (hchars _ h) (by decide)
      rw [outsideComments_false_append tail hhash,
        numberRuns_append hrun (head?_outsideComments htail), hrest]
      exact Or.inr rfl

/-- A character in front of a text in which a call finds something. -/
theorem Found.cons {m m' : Bool} {c : Char} {t : List Char} {r : Next} (h : Found m' t r)
    (heq : numberRuns (outsideComments m (c :: t)) = numberRuns (outsideComments m' t)) :
    Found m (c :: t) r := by
  cases r with
  | ended => exact heq.trans h
  | stale => exact heq.trans h
  | number run rest =>
      obtain ⟨m'', h⟩ := h
      exact ⟨m'', by rw [heq]; exact h⟩

/-- **A call misses no number**, wherever comments start. -/
theorem found_next (mode : Mode) (m : Bool) (s : List Char) (hm : mode = .comment → m = true) :
    Found m s (next mode s) := by
  induction s generalizing mode m with
  | nil =>
      have hnone : numberRuns (outsideComments m []) = [] := by cases m <;> rfl
      cases mode <;> exact hnone
  | cons c t ih =>
      have hline : Found m (c :: t) (next .line (c :: t)) := by
        by_cases hc : c.isDigit = true
        · rw [next_line_of_isDigit hc]
          exact found_numberAt hc m t
        · obtain ⟨m', hm', heq⟩ := exists_outsideComments_cons (Bool.eq_false_iff.mpr hc) m t
          rw [next_line_cons, if_neg hc]
          split
          · exact (ih .blanks m' Mode.noConfusion).cons heq
          · split
            · exact (ih .line m' Mode.noConfusion).cons heq
            · split
              · rename_i hhash
                exact (ih .comment m' fun _ => hm' hhash).cons heq
              · exact (ih .text m' Mode.noConfusion).cons heq
      cases mode with
      | line => exact hline
      | blanks =>
          rw [next_blanks_cons]
          exact hline
      | comment =>
          obtain rfl := hm rfl
          rw [next]
          by_cases hnl : c = '\n'
          · rw [if_pos hnl]
            refine (ih .line false Mode.noConfusion).cons ?_
            rw [outsideComments, if_pos hnl]
            exact numberRuns_cons rfl
          · rw [if_neg hnl]
            refine (ih .comment true fun _ => rfl).cons ?_
            rw [outsideComments, if_neg hnl]
      | text =>
          rw [next]
          by_cases hc : c.isDigit = true
          · rw [if_pos hc]
            exact found_numberAt hc m t
          · obtain ⟨m', -, heq⟩ := exists_outsideComments_cons (Bool.eq_false_iff.mpr hc) m t
            rw [if_neg hc]
            exact (ih .text m' Mode.noConfusion).cons heq

/-- **No number is missed**: the numbers are among what is read, in order. -/
theorem sublist_of_reads {s : List Char} {runs : List (List Char)} {last : Bool}
    (h : Reads s runs last) (m : Bool) : (numberRuns (outsideComments m s)).Sublist runs := by
  induction h generalizing m with
  | atEnd => cases m <;> exact List.Sublist.slnil
  | @ended s h =>
      have hfound := found_next .line m s Mode.noConfusion
      rw [h] at hfound
      exact List.sublist_nil.mpr hfound
  | @stale s hs h =>
      have hfound := found_next .line m s Mode.noConfusion
      rw [h] at hfound
      exact List.sublist_nil.mpr hfound
  | @number s run rest runs last h hrest ih =>
      have hfound := found_next .line m s Mode.noConfusion
      rw [h] at hfound
      obtain ⟨m', heq | heq⟩ := hfound
      · rw [heq]
        exact (ih m').cons run
      · rw [heq]
        exact (ih m').cons_cons run

/-! ## When the file is read faithfully -/

/-- The numbers of a layout are numbers. -/
theorem isRun_of_layout {s : List Char} {runs : List (List Char)} (h : Layout s runs) :
    ∀ run ∈ runs, IsRun run := by
  induction h with
  | behind h => simp
  | number hg hrun htail h ih => exact List.forall_mem_cons.mpr ⟨hrun, ih⟩

/-- The array made of what is read. -/
theorem readSpecialFrequencies_of_reads {R : Type} [CFloat R] {s : List Char}
    {runs : List (List Char)} {last : Bool} (h : Reads s runs last) (value : R) :
    readSpecialFrequencies value s = some ((runs.map CFloat.atof ++
      if last then [(runs.map CFloat.atof).getLastD value] else []) ++ [CFloat.lit (-1)]) := by
  rw [readSpecialFrequencies, readLoop_of_reads h value (Nat.lt_succ_self _)]
  rfl

/-- A whole number of kHz is rounded to itself. -/
theorem ceilKhz_intCast (k : ℤ) : ceilKhz ((k : ℚ) / 1000) = (k : ℚ) / 1000 := by
  unfold ceilKhz
  simp only [lit_exact, mul_exact, toFloat_exact, ceilf_exact, div_exact]
  rw [div_mul_cancel₀ (k : ℚ) (by norm_num), Int.ceil_intCast]

/-- The scan of a table whose values are not negative finds what is in front of the terminator. -/
theorem specialScan_append_iff {q : ℚ} {values : List ℚ} (h : ∀ x ∈ values, 0 ≤ x) :
    specialScan q (values ++ [-1]) = true ↔ q ∈ values := by
  induction values with
  | nil =>
      have hstop : specialScan q [-1] = false := rfl
      rw [List.nil_append, hstop]
      exact ⟨fun h => Bool.noConfusion h, fun h => absurd h List.not_mem_nil⟩
  | cons x values ih =>
      rw [List.forall_mem_cons] at h
      have hx : CFloat.le (CFloat.lit 0) x = true := decide_eq_true h.1
      rw [List.cons_append, specialScan, if_pos hx, List.mem_cons, ← ih h.2]
      by_cases hq : q = x
      · have heq : CFloat.eq q x = true := decide_eq_true hq
        rw [if_pos heq]
        exact ⟨fun _ => Or.inl hq, fun _ => rfl⟩
      · have hne : ¬ CFloat.eq q x = true := fun h => hq (of_decide_eq_true h)
        rw [if_neg hne, or_iff_right hq]

/-- The array of a layout is its numbers and the terminator. -/
theorem readSpecialFrequencies_of_layout {R : Type} [CFloat R] {s : List Char}
    {runs : List (List Char)} (h : Layout s runs) (value : R) :
    readSpecialFrequencies value s = some (runs.map CFloat.atof ++ [CFloat.lit (-1)]) := by
  rw [readSpecialFrequencies_of_reads (reads_of_layout h), if_neg Bool.false_ne_true,
    List.append_nil]

/-- The scan of the numbers of a layout stops, and finds a whole number of kHz among them. -/
theorem specialScan_of_layout {s : List Char} {runs : List (List Char)} (h : Layout s runs) :
    (∃ x ∈ runs.map CFloat.atof ++ [CFloat.lit (-1)], CFloat.le (CFloat.lit 0 : ℚ) x = false) ∧
      ∀ k : ℤ, specialScan (ceilKhz ((k : ℚ) / 1000)) (runs.map CFloat.atof ++ [CFloat.lit (-1)])
        = true ↔ (k : ℚ) / 1000 ∈ runs.map CFloat.atof := by
  refine ⟨⟨-1, by simp, rfl⟩, fun k => ?_⟩
  rw [ceilKhz_intCast]
  refine specialScan_append_iff fun x hx => ?_
  obtain ⟨run, hrun, rfl⟩ := List.mem_map.mp hx
  obtain ⟨c, t, rfl, hc, -⟩ := isRun_of_layout h run hrun
  exact DecimalText.atof_nonneg hc

/-- **When the file is read faithfully**: the files of the layout, with the numbers that stand
outside comments. -/
theorem special_frequencies_iff (content : List Char) :
    FileFaithful content ↔ Layout content (numbersOf content) := by
  constructor
  · intro h
    obtain ⟨runs, last, hreads⟩ := exists_reads content
    have harray := h.1 ℚ 0
    rw [readSpecialFrequencies_of_reads hreads, Option.some_inj] at harray
    have hvalues := List.append_cancel_right harray
    have hsub : (numbersOf content).Sublist runs :=
      numbersOf_eq content ▸ sublist_of_reads hreads false
    -- the array is as long as the list of the numbers, and nothing else was read
    have hlen := congrArg List.length hvalues
    rw [List.length_append, List.length_map, List.length_map] at hlen
    have hle := hsub.length_le
    have hlast : last = false := by
      cases last with
      | false => rfl
      | true =>
          rw [if_pos rfl, List.length_singleton] at hlen
          omega
    subst hlast
    have heq : numbersOf content = runs := hsub.eq_of_length (by simpa using hlen.symm)
    rw [heq]
    exact layout_of_reads hreads
  · intro h
    refine ⟨fun R _ value => readSpecialFrequencies_of_layout h value,
      fun value table htable => ?_⟩
    obtain rfl := Option.some.inj ((readSpecialFrequencies_of_layout h value).symm.trans htable)
    exact specialScan_of_layout h

end Fgcom
