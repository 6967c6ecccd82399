import Fgcom.Numeric
import Mathlib.Data.List.TakeWhile

/-! # Flight-data packets

A packet is a text of `KEY=value` tokens separated by commas. `parseFgdata` reads it into the flight
data the way `parse_fgdata` does: `strtok` cuts the text at commas, `split` cuts each token at its
first `=`, and the two field pointers live on from one token to the next, so a token without `=`
leaves `fields[1]` where the previous one put it.

A step is `none` where the C code hands a null pointer to a string function. -/

namespace Fgcom

/-! ## Flight data -/

/-- The sixteen keys of a packet, in the order `parse_fgdata` compares them. -/
inductive Key
  | com1Frq | com2Frq | nav1Frq | nav2Frq | ptt | transponder | ias | gs | lon | lat | alt | head
  | com1Srv | com2Srv | nav1Srv | nav2Srv
  deriving DecidableEq

/-- The keys in the order of comparison. -/
def Key.all : List Key :=
  [.com1Frq, .com2Frq, .nav1Frq, .nav2Frq, .ptt, .transponder, .ias, .gs, .lon, .lat, .alt, .head,
    .com1Srv, .com2Srv, .nav1Srv, .nav2Srv]

/-- The text a key is compared with. -/
def Key.name : Key → List Char
  | .com1Frq => "COM1_FRQ".toList
  | .com2Frq => "COM2_FRQ".toList
  | .nav1Frq => "NAV1_FRQ".toList
  | .nav2Frq => "NAV2_FRQ".toList
  | .ptt => "PTT".toList
  | .transponder => "TRANSPONDER".toList
  | .ias => "IAS".toList
  | .gs => "GS".toList
  | .lon => "LON".toList
  | .lat => "LAT".toList
  | .alt => "ALT".toList
  | .head => "HEAD".toList
  | .com1Srv => "COM1_SRV".toList
  | .com2Srv => "COM2_SRV".toList
  | .nav1Srv => "NAV1_SRV".toList
  | .nav2Srv => "NAV2_SRV".toList

/-- The key a field name is equal to, if any: the chain of `strcmp`. -/
def Key.ofName (s : List Char) : Option Key := Key.all.find? fun k => k.name = s

/-- `struct fgdata`. -/
structure FgData (R : Type) where
  com1Frq : R
  com2Frq : R
  nav1Frq : R
  nav2Frq : R
  com1Srv : ℤ
  com2Srv : ℤ
  nav1Srv : ℤ
  nav2Srv : ℤ
  ptt : ℤ
  transponder : ℤ
  ias : R
  gs : R
  lon : R
  lat : R
  alt : ℤ
  head : R
  deriving DecidableEq

/-- The content of one field of the flight data. -/
inductive Value (R : Type)
  | real (x : R)
  | int (n : ℤ)
  deriving DecidableEq

section Data

variable {R : Type}

/-- The field a key names. -/
def FgData.get (d : FgData R) : Key → Value R
  | .com1Frq => .real d.com1Frq
  | .com2Frq => .real d.com2Frq
  | .nav1Frq => .real d.nav1Frq
  | .nav2Frq => .real d.nav2Frq
  | .ptt => .int d.ptt
  | .transponder => .int d.transponder
  | .ias => .real d.ias
  | .gs => .real d.gs
  | .lon => .real d.lon
  | .lat => .real d.lat
  | .alt => .int d.alt
  | .head => .real d.head
  | .com1Srv => .int d.com1Srv
  | .com2Srv => .int d.com2Srv
  | .nav1Srv => .int d.nav1Srv
  | .nav2Srv => .int d.nav2Srv

variable [CFloat R]

/-- The initial flight data: a global, so all zero. -/
def FgData.zero : FgData R where
  com1Frq := CFloat.lit 0
  com2Frq := CFloat.lit 0
  nav1Frq := CFloat.lit 0
  nav2Frq := CFloat.lit 0
  com1Srv := 0
  com2Srv := 0
  nav1Srv := 0
  nav2Srv := 0
  ptt := 0
  transponder := 0
  ias := CFloat.lit 0
  gs := CFloat.lit 0
  lon := CFloat.lit 0
  lat := CFloat.lit 0
  alt := 0
  head := CFloat.lit 0

/-- The branch of `parse_fgdata` for a key: its field is assigned the value text, converted with
`atof` (into a `float` or a `double` field) or `atoi`. -/
def FgData.assign (d : FgData R) (k : Key) (v : List Char) : FgData R :=
  match k with
  | .com1Frq => { d with com1Frq := CFloat.toFloat (CFloat.atof v) }
  | .com2Frq => { d with com2Frq := CFloat.toFloat (CFloat.atof v) }
  | .nav1Frq => { d with nav1Frq := CFloat.toFloat (CFloat.atof v) }
  | .nav2Frq => { d with nav2Frq := CFloat.toFloat (CFloat.atof v) }
  | .ptt => { d with ptt := atoi v }
  | .transponder => { d with transponder := atoi v }
  | .ias => { d with ias := CFloat.toFloat (CFloat.atof v) }
  | .gs => { d with gs := CFloat.toFloat (CFloat.atof v) }
  | .lon => { d with lon := CFloat.atof v }
  | .lat => { d with lat := CFloat.atof v }
  | .alt => { d with alt := atoi v }
  | .head => { d with head := CFloat.toFloat (CFloat.atof v) }
  | .com1Srv => { d with com1Srv := atoi v }
  | .com2Srv => { d with com2Srv := atoi v }
  | .nav1Srv => { d with nav1Srv := atoi v }
  | .nav2Srv => { d with nav2Srv := atoi v }

/-- The conversion a key applies to its value text. -/
def Key.convert (k : Key) (v : List Char) : Value R :=
  match k with
  | .com1Frq | .com2Frq | .nav1Frq | .nav2Frq | .ias | .gs | .head =>
      .real (CFloat.toFloat (CFloat.atof v))
  | .lon | .lat => .real (CFloat.atof v)
  | .ptt | .transponder | .alt | .com1Srv | .com2Srv | .nav1Srv | .nav2Srv => .int (atoi v)

end Data

/-! ## Cutting the text -/

/-- The C string in a buffer: everything before the first NUL. -/
def cstr (buf : List Char) : List Char := buf.takeWhile (· ≠ '\x00')

/-- Text without a NUL is the whole C string. -/
theorem cstr_of_notMem {s : List Char} (h : '\x00' ∉ s) : cstr s = s := by
  refine List.takeWhile_eq_self_iff.mpr fun c hc => decide_eq_true ?_
  rintro rfl
  exact h hc

/-- `buf[strlen (buf) - 1] = '\0'`: the last character is cut off, whatever it is. On an empty
string the store hits the byte before the buffer, which has no defined effect. -/
def cutLast (s : List Char) : Option (List Char) := if s = [] then none else some s.dropLast

/-- The tokens successive calls of `strtok` return: the non-empty pieces between separators. -/
def strtokAll (sep : Char) (s : List Char) : List (List Char) :=
  (s.splitOn sep).filter (· ≠ [])

/-- The fields `split` stores for one separator character and a vector of `n` fields: the pieces
between separators, the last field taking the rest of the text. Nothing is stored for an empty
text. -/
def splitFields (n : ℕ) (sep : Char) (s : List Char) : List (List Char) :=
  if s = [] then [] else fieldsFrom n s
where
  /-- The loop over the vector, from the field that starts at `p`. -/
  fieldsFrom : ℕ → List Char → List (List Char)
    | 0, _ => []
    | 1, p => [p]
    | n + 2, p =>
        match p.dropWhile (· ≠ sep) with
        | [] => [p]
        | _ :: q => p.takeWhile (· ≠ sep) :: fieldsFrom (n + 1) q

/-- The pointers `fields[0]` and `fields[1]`: `none` is the null pointer they start as. -/
structure Fields where
  name : Option (List Char)
  value : Option (List Char)
  deriving DecidableEq

/-- The pointers after `split` has stored some fields: a field that is not stored keeps its old
pointer. -/
def Fields.store (f : Fields) : List (List Char) → Fields
  | [] => f
  | [a] => { f with name := some a }
  | a :: b :: _ => { name := some a, value := some b }

/-! ## The parser -/

section Parser

variable {R : Type} [CFloat R]

/-- One round of the loop of `parse_fgdata`. A null pointer handed to `strcmp`, `atof` or `atoi` has
no defined effect. -/
def parseToken (st : FgData R × Fields) (dataPair : List Char) : Option (FgData R × Fields) :=
  let fields := st.2.store (splitFields 2 '=' dataPair)
  match fields.name with
  | none => none
  | some name =>
      match Key.ofName name with
      | none => some (st.1, fields)
      | some k =>
          match fields.value with
          | none => none
          | some v => some (st.1.assign k v, fields)

/-- `parse_fgdata`. -/
def parseFgdata (d : FgData R) (buf : List Char) : Option (FgData R) :=
  ((strtokAll ',' buf).foldlM parseToken (d, ⟨none, none⟩)).map Prod.fst

/-- The first two statements of `process_packet`: the last character is cut off and the rest is
parsed. -/
def parsePacket (d : FgData R) (buf : List Char) : Option (FgData R) :=
  (cutLast (cstr buf)).bind (parseFgdata d)

end Parser

/-! ## The tokens of a text -/

/-- No token is empty. -/
theorem ne_nil_of_mem_strtokAll {sep : Char} {s token : List Char}
    (h : token ∈ strtokAll sep s) : token ≠ [] := by
  simpa using (List.mem_filter.mp h).2

/-- A text cut at a separator has the tokens of its two sides. -/
theorem strtokAll_append_cons (sep : Char) (s t : List Char) :
    strtokAll sep (s ++ sep :: t) = strtokAll sep s ++ strtokAll sep t := by
  rw [strtokAll, List.splitOn_append_cons_self, List.filter_append, strtokAll, strtokAll]

/-- A text without separators is one token, or none when it is empty. -/
theorem strtokAll_of_notMem {sep : Char} {s : List Char} (h : sep ∉ s) :
    strtokAll sep s = if s = [] then [] else [s] := by
  rw [strtokAll, List.splitOn_eq_singleton h]
  split <;> simp_all

/-- Separators in front of a text make no tokens. -/
theorem strtokAll_append_seps {sep : Char} {seps : List Char} (h : ∀ c ∈ seps, c = sep)
    (s : List Char) : strtokAll sep (seps ++ s) = strtokAll sep s := by
  induction seps with
  | nil => rfl
  | cons c seps ih =>
      obtain rfl := h c List.mem_cons_self
      have hnil : strtokAll c ([] : List Char) = [] := strtokAll_of_notMem List.not_mem_nil
      rw [List.cons_append, ← List.nil_append (c :: (seps ++ s)), strtokAll_append_cons, hnil,
        List.nil_append]
      exact ih fun d hd => h d (List.mem_cons_of_mem c hd)

/-- A token holds no separator, and nothing but characters of the text. -/
theorem sep_notMem_of_mem_strtokAll {sep : Char} {s token : List Char}
    (h : token ∈ strtokAll sep s) : sep ∉ token ∧ ∀ c ∈ token, c ∈ s := by
  induction hn : s.length using Nat.strongRecOn generalizing s with
  | ind n ih =>
      by_cases hsep : sep ∈ s
      · -- the token is one of either side of a separator, and both sides are shorter
        obtain ⟨a, b, rfl⟩ := List.append_of_mem hsep
        rw [List.length_append, List.length_cons] at hn
        rw [strtokAll_append_cons, List.mem_append] at h
        rcases h with h | h
        · obtain ⟨hno, hsub⟩ := ih a.length (by omega) h rfl
          exact ⟨hno, fun c hc => List.mem_append_left _ (hsub c hc)⟩
        · obtain ⟨hno, hsub⟩ := ih b.length (by omega) h rfl
          exact ⟨hno, fun c hc => List.mem_append_right _ (List.mem_cons_of_mem _ (hsub c hc))⟩
      · rw [strtokAll_of_notMem hsep] at h
        split at h
        · exact absurd h List.not_mem_nil
        · obtain rfl := List.mem_singleton.mp h
          exact ⟨hsep, fun c hc => hc⟩

end Fgcom
