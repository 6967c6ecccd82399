import Fgcom.Lib.DecimalText
import Fgcom.Lib.Record
import Mathlib.Data.List.TakeWhile

/-! # Reading with `scanf`

The conversions of a `scanf` format as functions on the text still to be read. Each returns what it
has read and the text behind it, or `none` where it does not match.

* **`readSet`** — `%w[...]`: the longest run of at most `w` characters of a set, at least one;
  **`readSet_eq_some`** says what was read.
* **`readNumber`** — `%f` and `%lf` of a decimal numeral.
* **`readChar`** — an ordinary character of the format. -/

namespace Scanf

open DecimalText

/-- `%w[...]`. -/
def readSet (p : Char → Bool) (w : ℕ) (s : List Char) :
    Option ({v : List Char // v.length ≤ w} × List Char) :=
  let v := (s.take w).takeWhile p
  if v = [] then none
  else
    some (⟨v, (List.takeWhile_prefix p).length_le.trans (List.length_take_le w s)⟩, s.drop v.length)

/-- `%f` and `%lf`: blanks are skipped, then a numeral is read. -/
def readNumber (s : List Char) : Option (ℚ × List Char) := readDecimal (s.dropWhile isSpace)

/-- An ordinary character of the format. -/
def readChar (c : Char) : List Char → Option (List Char)
  | [] => none
  | d :: s => if d = c then some s else none

/-- The characters of a buffer up to the first NUL. -/
def cString (s : List Char) : List Char := s.takeWhile (· ≠ '\x00')

theorem length_cString_le (s : List Char) : (cString s).length ≤ s.length :=
  (List.takeWhile_prefix _).length_le

/-- **What a set conversion has read.** -/
theorem readSet_eq_some {p : Char → Bool} {w : ℕ} {s rest : List Char}
    {v : {v : List Char // v.length ≤ w}} (h : readSet p w s = some (v, rest)) :
    s = v.val ++ rest ∧ v.val ≠ [] ∧ ∀ c ∈ v.val, p c = true := by
  simp only [readSet, Option.ite_none_left_eq_some, Option.some_inj, Prod.mk.injEq] at h
  obtain ⟨hne, rfl, rfl⟩ := h
  have hprefix : (s.take w).takeWhile p <+: s :=
    (List.takeWhile_prefix p).trans (List.take_prefix w s)
  exact ⟨(List.prefix_iff_eq_append.mp hprefix).symm, hne, List.all_eq_true.mp List.all_takeWhile⟩

/-- A run that fits its width is read whole. -/
theorem readSet_append {p : Char → Bool} {w : ℕ} {v : List Char} {c : Char} (rest : List Char)
    (hne : v ≠ []) (hlen : v.length ≤ w) (hv : ∀ c ∈ v, p c = true) (hc : p c = false) :
    readSet p w (v ++ c :: rest) = some (⟨v, hlen⟩, c :: rest) := by
  have htake : ((v ++ c :: rest).take w).takeWhile p = v := by
    rw [List.take_append, List.take_of_length_le hlen, List.takeWhile_append_of_pos hv]
    -- the character behind the run ends it, if the width has not
    cases w - v.length with
    | zero => rw [List.take_zero, List.takeWhile_nil, List.append_nil]
    | succ n =>
        rw [List.take_succ_cons, List.takeWhile_cons_of_neg (by simp [hc]), List.append_nil]
  simp only [readSet, htake, if_neg hne, List.drop_left]

/-- A plain numeral is read whole where it can end. -/
theorem readNumber_append {s rest : List Char} (hs : IsDecimal s) (hrest : EndsNumeral rest) :
    readNumber (s ++ rest) = some (atof s, rest) := by
  rw [readNumber, dropWhile_isSpace_append hs, readDecimal_append hs hrest]

@[simp] theorem readChar_cons (c : Char) (s : List Char) : readChar c (c :: s) = some s :=
  if_pos rfl

theorem readChar_eq_some {c : Char} {s rest : List Char} (h : readChar c s = some rest) :
    s = c :: rest := by
  cases s with
  | nil => exact absurd h (by simp [readChar])
  | cons d s =>
      simp only [readChar, Option.ite_none_right_eq_some, Option.some_inj] at h
      rw [h.1, h.2]

/-- A text is cut at the first separator in one way. -/
theorem append_cons_inj {c : Char} {u v s t : List Char} (hu : c ∉ u) (hv : c ∉ v)
    (h : u ++ c :: s = v ++ c :: t) : u = v ∧ s = t := by
  have hfree {w : List Char} (hw : c ∉ w) : ∀ x ∈ w, decide (x = c) = false := fun x hx =>
    decide_eq_false fun hxc => hw (hxc ▸ hx)
  exact Record.cut_inj (hfree hu) (hfree hv) (decide_eq_true rfl) (decide_eq_true rfl) h

/-- A string without a NUL is all of its buffer, and a buffer's string has none. -/
theorem cString_eq_self {s : List Char} (h : '\x00' ∉ s) : cString s = s :=
  List.takeWhile_eq_self_iff.mpr fun _ hc => decide_eq_true fun hc0 => h (hc0 ▸ hc)

theorem nul_not_mem_cString (s : List Char) : '\x00' ∉ cString s := fun h =>
  absurd (List.all_eq_true.mp List.all_takeWhile _ h) (by decide)

theorem mem_of_mem_cString {s : List Char} {c : Char} (h : c ∈ cString s) : c ∈ s :=
  (List.takeWhile_prefix _).subset h

/-! ## What is left is shorter -/

theorem length_readSet {p : Char → Bool} {w : ℕ} {s rest : List Char}
    {v : {v : List Char // v.length ≤ w}} (h : readSet p w s = some (v, rest)) :
    rest.length < s.length := by
  obtain ⟨rfl, hne, -⟩ := readSet_eq_some h
  have := List.length_pos_of_ne_nil hne
  rw [List.length_append]
  omega

theorem length_readChar {c : Char} {s rest : List Char} (h : readChar c s = some rest) :
    rest.length < s.length := by
  rw [readChar_eq_some h, List.length_cons]
  exact Nat.lt_succ_self _

theorem length_readNumber {s rest : List Char} {q : ℚ} (h : readNumber s = some (q, rest)) :
    rest.length ≤ s.length :=
  (readDecimal_suffix h).length_le.trans (List.dropWhile_suffix _).length_le

end Scanf
