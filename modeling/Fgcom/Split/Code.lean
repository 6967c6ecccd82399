import Fgcom.Lib.Blocks
import Fgcom.SpecialFrequencies

/-! # `split`

The three loops of `split`, on the buffer they cut up. A read or a write outside the string, a
pointer stored behind the vector and an `int` counted past its end have no defined effect: the
result is `none`.

* **`split`** — the function, with a loop for one separator, for two, and for more.
* **`pieceStarts`** — where the pieces of a string start: the one definition the loops are compared
  with.
* **`Meets`** — a call does on a string what that definition says. -/

namespace Fgcom.Split

open CBuffer Blocks

/-! ## The code -/

/-- `INT_MAX`. -/
def intMax : ℤ := 2 ^ 31 - 1

/-- What a call leaves: the number it returns, the pointers in `fields`, and the buffer. -/
structure Result where
  ret : ℤ
  fields : List ℕ
  buf : List Char
  deriving DecidableEq

/-- `*fp++ = p`: the vector has room for `nfields` pointers. -/
def push (nfields : ℤ) (fields : List ℕ) (p : ℕ) : Option (List ℕ) :=
  if (fields.length : ℤ) < nfields then some (fields ++ [p]) else none

/-- `fn++`: past the largest `int` that has no defined effect. -/
def bump (fn : ℤ) : Option ℤ := if fn < intMax then some (fn + 1) else none

/-- The loop that reads on from `p` to a separator or the terminator: where that stands. -/
def scanPiece (isSep : Char → Bool) (b : List Char) (p : ℕ) : Option ℕ :=
  scan (fun c => isSep c || c = '\x00') b p

/-- The loop that reads on from `p` to the first character that is no separator. -/
def scanRun (isSep : Char → Bool) (b : List Char) (p : ℕ) : Option ℕ :=
  scan (fun c => !isSep c) b p

/-- Where a loop over a piece stops. -/
theorem lt_of_scanPiece {isSep : Char → Bool} {b : List Char} {p q : ℕ}
    (h : scanPiece isSep b p = some q) : p ≤ q ∧ q < b.length :=
  ⟨(le_of_scan h).1, (le_of_scan h).2.1⟩

/-- Where a loop over a run stops. -/
theorem lt_of_scanRun {isSep : Char → Bool} {b : List Char} {p q : ℕ}
    (h : scanRun isSep b p = some q) : p ≤ q ∧ q < b.length :=
  ⟨(le_of_scan h).1, (le_of_scan h).2.1⟩

/-- A write that is left out or done keeps the size of the buffer. -/
theorem length_of_ite_store {b b' : List Char} {q : ℕ} {P : Prop} [Decidable P] {c : Char}
    (h : (if P then store b q c else some b) = some b') : b'.length = b.length := by
  split at h
  · exact length_of_store h
  · rw [Option.some.inj h]

/-- Single separator, the fields vector overflowed: the pieces are only counted. -/
def countSingle (sepc : Char) (b : List Char) (p : ℕ) (fn : ℤ) : Option ℤ :=
  match _hscan : scanPiece (· = sepc) b p with
  | none => none
  | some q =>
      if b[q]? = some '\x00' then some fn
      else (bump fn).bind fun fn => countSingle sepc b (q + 1) fn
termination_by b.length - p
decreasing_by
  have hlt := lt_of_scanPiece _hscan
  omega

/-- Single separator: the loop that fills the fields. -/
def singleLoop (nfields : ℤ) (sepc : Char) (fn : ℤ) (fields : List ℕ) (b : List Char) (p : ℕ) :
    Option Result :=
  (push nfields fields p).bind fun fields =>
    if fn - 1 = 0 then (countSingle sepc b p nfields).map fun fn => ⟨fn, fields, b⟩
    else
      match _hscan : scanPiece (· = sepc) b p with
      | none => none
      | some q =>
          if b[q]? = some '\x00' then some ⟨nfields - (fn - 1), fields, b⟩
          else
            match _hstore : store b q '\x00' with
            | none => none
            | some b => singleLoop nfields sepc (fn - 1) fields b (q + 1)
termination_by b.length - p
decreasing_by
  have hlt := lt_of_scanPiece _hscan
  have hlen := length_of_store _hstore
  omega

/-- Two separators, the fields vector overflowed: the pieces are counted from behind a separator on,
up to the terminator. Where that stands, and `fn`. -/
def countTwo (isSep : Char → Bool) (b : List Char) (p : ℕ) (fn : ℤ) : Option (ℕ × ℤ) :=
  match _hrun : scanRun isSep b p with
  | none => none
  | some q =>
      (bump fn).bind fun fn =>
        match _hscan : scanPiece isSep b q with
        | none => none
        | some r => if b[r]? = some '\x00' then some (r, fn) else countTwo isSep b (r + 1) fn
termination_by b.length - p
decreasing_by
  have hrun := lt_of_scanRun _hrun
  have hlt := lt_of_scanPiece _hscan
  omega

/-- `while ((c = *--p) == sepc || c == sepc2)` and `p++`: back over separators, to the place behind
the last character that is none. -/
def scanBack (isSep : Char → Bool) (b : List Char) : ℕ → Option ℕ
  | 0 => none
  | p + 1 => b[p]?.bind fun c => if isSep c then scanBack isSep b p else some (p + 1)

/-- "might have to trim trailing white space": the terminator stands at `p`. -/
def trimTrailing (isSep : Char → Bool) (nfields : ℤ) (b : List Char) (p : ℕ) (fn : ℤ) :
    Option (ℤ × List Char) :=
  (scanBack isSep b p).bind fun p =>
    b[p]?.bind fun c =>
      if c = '\x00' then some (fn, b)
      else
        (bump nfields).bind fun next =>
          if fn = next then (store b p '\x00').map fun b => (fn - 1, b) else some (fn - 1, b)

/-- Two separators: the loop that fills the fields. -/
def twoLoop (nfields : ℤ) (isSep : Char → Bool) (trimtrail : Bool) (fn : ℤ) (fields : List ℕ)
    (b : List Char) (p : ℕ) : Option Result :=
  (push nfields fields p).bind fun fields =>
    match _hscan : scanPiece isSep b p with
    | none => none
    | some q =>
        if b[q]? = some '\x00' then
          -- the last field is empty behind trailing white space, and then it does not count
          if trimtrail ∧ b[p]? = some '\x00' then some ⟨nfields - (fn - 1 + 1), fields, b⟩
          else some ⟨nfields - (fn - 1), fields, b⟩
        else if fn - 1 = 0 then
          (countTwo isSep b (q + 1) nfields).bind fun (r, fn) =>
            if trimtrail then
              (trimTrailing isSep nfields b r fn).map fun (fn, b) => ⟨fn, fields, b⟩
            else some ⟨fn, fields, b⟩
        else
          match _hstore : store b q '\x00' with
          | none => none
          | some b =>
              match _hrun : scanRun isSep b (q + 1) with
              | none => none
              | some p => twoLoop nfields isSep trimtrail (fn - 1) fields b p
termination_by b.length - p
decreasing_by
  have hlt := lt_of_scanPiece _hscan
  have hlen := length_of_store _hstore
  have hrun := lt_of_scanRun _hrun
  omega

/-- More separators: one loop that fills the fields and counts on. -/
def manyLoop (nfields : ℤ) (isSep : Char → Bool) (fn : ℤ) (fields : List ℕ) (b : List Char)
    (p : ℕ) : Option Result :=
  (if fn < nfields then push nfields fields p else some fields).bind fun fields =>
    (bump fn).bind fun fn =>
      match _hscan : scanPiece isSep b p with
      | none => none
      | some q =>
          if b[q]? = some '\x00' then some ⟨fn, fields, b⟩
          else
            match _hstore : (if fn < nfields then store b q '\x00' else some b) with
            | none => none
            | some b =>
                match _hrun : scanRun isSep b (q + 1) with
                | none => none
                | some p => manyLoop nfields isSep fn fields b p
termination_by b.length - p
decreasing_by
  have hlt := lt_of_scanPiece _hscan
  have hrun := lt_of_scanRun _hrun
  have hlen := length_of_ite_store _hstore
  omega

/-- `split` behind the leading white space: the empty string is caught, and the number of separators
picks the loop. -/
def splitFrom (trimtrail : Bool) (b : List Char) (p : ℕ) (nfields : ℤ) (sep : List Char) :
    Option Result :=
  b[p]?.bind fun c =>
    if c = '\x00' then some ⟨0, [], b⟩
    else
      match sep with
      | [sepc] => singleLoop nfields sepc nfields [] b p
      | [sepc, sepc2] => twoLoop nfields (fun c => c = sepc || c = sepc2) trimtrail nfields [] b p
      | sep => manyLoop nfields (fun c => sep.contains c) 0 [] b p

/-- `split (string, fields, nfields, sep)`, the string at `p`: for no separators the leading white
space is skipped, and they are `" \t"`. -/
def split (b : List Char) (p : ℕ) (nfields : ℤ) (sep : List Char) : Option Result :=
  match sep with
  | [] =>
      (scanRun isBlank b p).bind fun p => splitFrom true b p nfields [' ', '\t']
  | sep => splitFrom false b p nfields sep

/-! ## The reference -/

/-- A string without its terminator. -/
abbrev CString : Type := {s : List Char // '\x00' ∉ s}

/-- How many places a vector of fields can have. -/
abbrev FieldCount : Type := {n : ℤ // 1 ≤ n ∧ n ≤ intMax}

/-- The separators: blanks and tabs for the empty separator string. -/
def isSeparator (sep : List Char) (c : Char) : Bool :=
  match sep with
  | [] => isBlank c
  | sep => sep.contains c

/-- Whether a piece starts between two neighbouring characters; `none` is an end of the string. -/
def startsPiece (sep : List Char) (prev next : Option Char) : Bool :=
  match sep with
  -- the words
  | [] => prev.all isBlank && next.any (fun c => !isBlank c)
  -- behind each separator
  | [sepc] => prev.all (· = sepc)
  -- behind each run of separators
  | sep => prev.all fun c => sep.contains c && next.all (fun c => !sep.contains c)

/-- **Where the pieces of a string start.** -/
def pieceStarts (s sep : List Char) : List ℕ :=
  if s = [] then [] else positions (startsPiece sep) none 0 s

/-- The piece that starts at `q`. -/
def pieceAt (s sep : List Char) (q : ℕ) : List Char :=
  (s.drop q).takeWhile fun c => !isSeparator sep c

/-- **`split` meets the reference** on a string: it returns the number of pieces, and each field
holds its piece, but the last one the rest of the string when there are more pieces than fields. -/
def Meets (s sep : CString) (nfields : FieldCount) : Prop :=
  ∃ r, split (s.val ++ ['\x00']) 0 nfields.val sep.val = some r ∧
    r.ret = (pieceStarts s.val sep.val).length ∧
    ∀ (i q : ℕ), (i : ℤ) < nfields.val → (pieceStarts s.val sep.val)[i]? = some q →
      r.fields[i]? = some q ∧
        readString '\x00' r.buf q
          = some (if (i : ℤ) + 1 = nfields.val ∧
              nfields.val < (pieceStarts s.val sep.val).length then s.val.drop q
            else pieceAt s.val sep.val q)

/-- **The paths agree**: the order and the number of two or more separators do not matter. -/
def PathsAgree (s sep : CString) (nfields : FieldCount) : Prop :=
  ∀ sep' : CString, 2 ≤ sep.val.length → 2 ≤ sep'.val.length →
    (∀ c, c ∈ sep.val ↔ c ∈ sep'.val) →
    split (s.val ++ ['\x00']) 0 nfields.val sep.val
      = split (s.val ++ ['\x00']) 0 nfields.val sep'.val

/-- How far `fn` has to count: white space at the end of the words counts for one more. -/
def counted (s sep : List Char) : ℕ :=
  (pieceStarts s sep).length + if sep = [] ∧ s.getLast?.any isBlank then 1 else 0

end Fgcom.Split
