import Mathlib.Data.List.TakeWhile

/-! # Input streams with state flags

A C++ input stream over a text that is already there: the rest of the text and the two state flags
`eof` and `fail`. Reading past the end sets both and delivers nothing; once a flag is set every
operation only sets `fail`.

* **`get`**, **`putback`**, **`getline`** — the operations, with the flags they set.
* **`getUntil`** — a loop of `get` that ends behind the first element of a kind; `getUntil_eq` is
  the loop's equation.
* The `_ofText` lemmas say what each does on a stream with no flag set. -/

namespace InputStream

variable {α : Type*}

/-- A stream: what is left to read, and the flags. -/
structure Stream (α : Type*) where
  rest : List α
  eof : Bool
  fail : Bool
  deriving DecidableEq

namespace Stream

/-- A stream in front of a text, with no flag set. -/
def ofText (text : List α) : Stream α := ⟨text, false, false⟩

/-- The stream behind the end of its text. -/
def ended : Stream α := ⟨[], true, true⟩

/-- `good ()`. -/
def good (s : Stream α) : Bool := !s.eof && !s.fail

/-- An operation on a stream that is not good. -/
def failed (s : Stream α) : Stream α := { s with fail := true }

/-- `get (c)`: the next element, `none` where the stream turns false. -/
def get (s : Stream α) : Option α × Stream α :=
  if s.good then
    match s.rest with
    | [] => (none, { s with eof := true, fail := true })
    | c :: cs => (some c, { s with rest := cs })
  else (none, s.failed)

/-- `putback (c)`. -/
def putback (c : α) (s : Stream α) : Stream α :=
  if s.good then { s with rest := c :: s.rest } else s.failed

/-- `getline (in, line, delim)`: everything up to the delimiter, which is taken and dropped. A line
that the end of the text ends sets `eof`, and an empty one `fail` as well. -/
def getline [DecidableEq α] (delim : α) (s : Stream α) : List α × Stream α :=
  if s.good then
    match s.rest.dropWhile (· ≠ delim) with
    | [] => (s.rest, { s with rest := [], eof := true, fail := s.rest.isEmpty })
    | _ :: behind => (s.rest.takeWhile (· ≠ delim), { s with rest := behind })
  else ([], s.failed)

/-- `while (in.get (c)) if (stop (c)) break;`: the element that ended the loop, `none` where the
stream did. -/
def getUntil (stop : α → Bool) (s : Stream α) : Option α × Stream α :=
  if s.good then go s.rest else (none, s.failed)
where
  /-- The loop on a good stream. -/
  go : List α → Option α × Stream α
    | [] => (none, ended)
    | c :: cs => if stop c then (some c, ofText cs) else go cs

variable {stop : α → Bool} {c : α} {cs text : List α}

@[simp] theorem good_ofText : (ofText text).good = true := rfl

@[simp] theorem rest_ofText : (ofText text).rest = text := rfl

/-- A good stream is its text. -/
theorem eq_ofText_of_good {s : Stream α} (h : s.good = true) : s = ofText s.rest := by
  obtain ⟨rest, eof, fail⟩ := s
  simp only [good, Bool.and_eq_true, Bool.not_eq_true'] at h
  obtain ⟨rfl, rfl⟩ := h
  rfl

@[simp] theorem get_ofText_nil : (ofText ([] : List α)).get = (none, ended) := rfl

@[simp] theorem get_ofText_cons : (ofText (c :: cs)).get = (some c, ofText cs) := rfl

@[simp] theorem putback_ofText : (ofText text).putback c = ofText (c :: text) := rfl

/-- **The equation of the loop**: read one element, then stop or go on. -/
theorem getUntil_eq (stop : α → Bool) (s : Stream α) :
    s.getUntil stop
      = match s.get with
        | (none, s') => (none, s')
        | (some c, s') => if stop c then (some c, s') else s'.getUntil stop := by
  cases hgood : s.good with
  | false =>
      have hget : s.get = (none, s.failed) := by simp [get, hgood]
      rw [hget, getUntil, hgood]
      rfl
  | true =>
      rw [eq_ofText_of_good hgood]
      cases s.rest with
      | nil => rfl
      | cons c cs => rfl

@[simp] theorem getUntil_ofText_nil : (ofText ([] : List α)).getUntil stop = (none, ended) := by
  rw [getUntil_eq, get_ofText_nil]

theorem getUntil_ofText_cons :
    (ofText (c :: cs)).getUntil stop
      = if stop c then (some c, ofText cs) else (ofText cs).getUntil stop := by
  rw [getUntil_eq, get_ofText_cons]

/-- A line with its delimiter behind it. -/
theorem getline_ofText_append [DecidableEq α] {delim : α} {line : List α} (behind : List α)
    (h : delim ∉ line) :
    (ofText (line ++ delim :: behind)).getline delim = (line, ofText behind) := by
  have hline : ∀ c ∈ line, decide (c ≠ delim) = true := by
    intro c hc
    simpa using fun heq : c = delim => h (heq ▸ hc)
  have hdrop : (line ++ delim :: behind).dropWhile (· ≠ delim) = delim :: behind := by
    rw [List.dropWhile_append_of_pos hline]
    simp
  have htake : (line ++ delim :: behind).takeWhile (· ≠ delim) = line := by
    rw [List.takeWhile_append_of_pos hline]
    simp
  rw [getline, if_pos good_ofText, rest_ofText, hdrop, htake]
  rfl

/-- A last line without a delimiter. -/
theorem getline_ofText_last [DecidableEq α] {delim : α} {line : List α} (h : delim ∉ line)
    (hne : line ≠ []) :
    (ofText line).getline delim = (line, ⟨[], true, false⟩) := by
  have hdrop : line.dropWhile (· ≠ delim) = [] := by
    rw [List.dropWhile_eq_nil_iff]
    intro c hc
    simpa using fun heq : c = delim => h (heq ▸ hc)
  rw [getline, if_pos good_ofText, rest_ofText, hdrop]
  cases line with
  | nil => exact absurd rfl hne
  | cons c cs => rfl

end Stream

end InputStream
