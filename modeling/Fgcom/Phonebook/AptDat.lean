import Fgcom.Lib.DecimalText
import Fgcom.Lib.Pattern
import Mathlib.Data.List.AList
import Mathlib.Data.List.DropRight
import Mathlib.Data.Rat.Floor

/-! # Reading apt.dat and nav.dat

The two reading loops of `gen_phonebook.pl`. A line is matched against the script's patterns
(`classify`, `vorLine`), and the loop over the lines of apt.dat keeps what it has seen of the
current airport in variables (`Scan`) that a blank line stores and clears, all but `$latW` and
`$lonW`.

Texts are the bytes of the files; a hash is an association list whose order is the order in which
Perl happens to return its keys. -/

namespace Fgcom.Phonebook

open DecimalText Pattern

/-! ## Texts -/

/-- One pass of `s/\s{2}/ /g`: pairs of blanks become one space, from left to right. -/
def squeezePass : List Char → List Char
  | a :: b :: s =>
      if isSpace a && isSpace b then ' ' :: squeezePass s else a :: squeezePass (b :: s)
  | s => s

/-- `$ln =~ /\s{2}/`. -/
def hasDoubleSpace : List Char → Bool
  | a :: b :: s => isSpace a && isSpace b || hasDoubleSpace (b :: s)
  | _ => false

/-- The passes repeated while two blanks stand together. Each pass shortens the text, so its length
is fuel enough. -/
def squeeze : ℕ → List Char → List Char
  | 0, s => s
  | n + 1, s => if hasDoubleSpace s then squeeze n (squeezePass s) else s

/-- `trim_ends`: blanks are cut off behind and in front. -/
def trimEnds (s : List Char) : List Char := (s.rdropWhile isSpace).dropWhile isSpace

/-- `trim_all`. -/
def trimAll (s : List Char) : List Char :=
  let s := trimEnds (s.map fun c => if c = '\n' ∨ c = '\r' ∨ c = '\t' then ' ' else c)
  squeeze s.length s

/-- The truth of a scalar: undefined, empty and `"0"` are false. -/
def truthy : Option (List Char) → Bool
  | none => false
  | some s => s ≠ [] ∧ s ≠ ['0']

/-- `sprintf("%w.df", q)` for `q ≥ 0`. -/
def fixedText (w d : ℕ) (q : ℚ) : List Char :=
  let m := ⌊q * ((10 ^ d : ℕ) : ℚ) + 1 / 2⌋.toNat
  (Nat.toDigits 10 (m / 10 ^ d) ++ '.' :: padded d (m % 10 ^ d)).leftpad w ' '

/-! ## Patterns -/

/-- `.`: anything but a newline. -/
def anyChar (c : Char) : Bool := c ≠ '\n'

/-- `[A-Z0-9]`. -/
def codeChar (c : Char) : Bool := c.isUpper || c.isDigit

/-- `[01]`. -/
def zeroOne (c : Char) : Bool := c = '0' || c = '1'

/-- `[0-6]`. -/
def zeroToSix (c : Char) : Bool := '0' ≤ c && c ≤ '6'

/-- `-?\d+\.\d+`. -/
def decimalRx : Rx :=
  Rx.concat [.opt (· = '-'), .plus Char.isDigit, .text ['.'], .plus Char.isDigit]

/-- `^type\s+\d+\s+[01]\s+[01]\s+([A-Z0-9]+)\s+(.+)\s*$`. -/
def headerRx (type : List Char) : Rx :=
  Rx.concat [.text type, .plus isSpace, .plus Char.isDigit, .plus isSpace, .one zeroOne,
    .plus isSpace, .one zeroOne, .plus isSpace, .group (.plus codeChar), .plus isSpace,
    .group (.plus anyChar), .star isSpace, .atEnd]

/-- `^type\s+(-?\d+\.\d+)\s+(-?\d+\.\d+)`. -/
def coordinateRx (type : List Char) : Rx :=
  Rx.concat [.text type, .plus isSpace, .group decimalRx, .plus isSpace, .group decimalRx]

/-- `^5[0-6]\s+(\d{5})\d*\s+(.+)\s*$`. -/
def comRx : Rx :=
  Rx.concat [.text ['5'], .one zeroToSix, .plus isSpace, .group (.times Char.isDigit 5),
    .star Char.isDigit, .plus isSpace, .group (.plus anyChar), .star isSpace, .atEnd]

/-- `^3\s+(-?\d+\.\d+)\s+(-?\d+\.\d+)\s+\d+\s+(\d+)\s+\d+\s+-?\d+\.\d+\s+([A-Z]+)\s+(.*)\s*$`. -/
def vorRx : Rx :=
  Rx.concat [.text ['3'], .plus isSpace, .group decimalRx, .plus isSpace, .group decimalRx,
    .plus isSpace, .plus Char.isDigit, .plus isSpace, .group (.plus Char.isDigit), .plus isSpace,
    .plus Char.isDigit, .plus isSpace, decimalRx, .plus isSpace, .group (.plus Char.isUpper),
    .plus isSpace, .group (.star anyChar), .star isSpace, .atEnd]

/-! ## Lines of apt.dat -/

/-- The option `$add_seaports`, which lets in heliports and seaports. -/
def addSeaports : Bool := true

/-- What a line of apt.dat is to the script. -/
inductive Line
  | blank
  | header (icao text : List Char)
  | tower (lat lon : List Char)
  | windsock (lat lon : List Char)
  | com (frq type : List Char)
  | other
  deriving DecidableEq

/-- The key of `%frq` for the five digits of a COM line: the frequency in MHz with three decimals,
the last one a 5 behind a 2 or a 7. -/
def comFrq (freq : List Char) : List Char :=
  let n : ℚ := (Nat.ofDigitChars 10 freq 0 : ℕ)
  if freq.getLast? = some '2' ∨ freq.getLast? = some '7' then fixedText 3 2 (n / 100) ++ ['5']
  else fixedText 3 3 (n / 100)

/-- A header line of one of the three types. -/
def headerLine (z : List Char) : Option Line :=
  match (headerRx ['1']).first z with
  | some [icao, text] => some (.header icao (trimAll text))
  | _ =>
      match (headerRx ['1', '6']).first z with
      | some [icao, text] => some (if addSeaports then .header icao (trimAll text) else .other)
      | _ =>
          match (headerRx ['1', '7']).first z with
          | some [icao, text] => some (if addSeaports then .header icao (trimAll text) else .other)
          | _ => none

/-- A tower or windsock line. -/
def coordinateLine (z : List Char) : Option Line :=
  match (coordinateRx ['1', '4']).first z with
  | some [lat, lon] => some (.tower lat lon)
  | _ =>
      match (coordinateRx ['1', '9']).first z with
      | some [lat, lon] => some (.windsock lat lon)
      | _ => none

/-- A COM line. -/
def comLine (z : List Char) : Option Line :=
  match comRx.first z with
  | some [freq, type] => some (.com (comFrq freq) (trimAll type))
  | _ => none

/-- The chain of patterns of the loop. -/
def classify (z : List Char) : Line :=
  if z.all isSpace then .blank
  -- the patterns in the order of the script
  else (((headerLine z).or (coordinateLine z)).or (comLine z)).getD .other

/-! ## The scan of apt.dat -/

/-- A hash from texts to values. -/
abbrev Hash (α : Type) : Type := AList fun _ : List Char => α

/-- One entry of `%APT`. -/
structure AptEntry where
  text : List Char
  lat : List Char
  lon : List Char
  com : Hash (List Char)
  deriving DecidableEq

/-- The variables carried from line to line. -/
structure Scan where
  icao : Option (List Char)
  text : Option (List Char)
  lat : Option (List Char)
  lon : Option (List Char)
  latW : Option (List Char)
  lonW : Option (List Char)
  frq : Hash (List Char)
  apt : Hash AptEntry

/-- The state before the first line. -/
def Scan.start : Scan := ⟨none, none, none, none, none, none, ∅, ∅⟩

/-- The type a frequency is stored with: at most one character is taken for none. -/
def storedType (type : List Char) : List Char := if type.length ≤ 1 then "TWR".toList else type

/-- `$APT{$icao}` with the values of the variables stored into it. -/
def AptEntry.store (e : Option AptEntry) (text lat lon : List Char) (frq : Hash (List Char)) :
    AptEntry where
  text := text
  lat := lat
  lon := lon
  com := frq.entries.foldl (fun com f => com.insert f.1 (storedType f.2))
    ((e.map AptEntry.com).getD ∅)

/-- The coordinates a block is stored with: the tower's, or the windsock's where there is
no tower. -/
def Scan.position (s : Scan) : Option (List Char) × Option (List Char) :=
  if !truthy s.lat && !truthy s.lon then
    if truthy s.latW && truthy s.lonW then (s.latW, s.lonW) else (s.lat, s.lon)
  else (s.lat, s.lon)

/-- `%APT` after a blank line. -/
def Scan.stored (s : Scan) : Hash AptEntry :=
  if truthy s.icao then
    if s.frq.entries.length > 0 then
      let (lat, lon) := s.position
      -- a block without coordinates is dropped
      if truthy lat && truthy lon then
        let icao := s.icao.getD []
        s.apt.insert icao
          (AptEntry.store (s.apt.lookup icao) (s.text.getD []) (lat.getD []) (lon.getD []) s.frq)
      else s.apt
    else s.apt
  else s.apt

/-- The blank-line branch: store the block and clear the variables, `$latW` and `$lonW` excepted. -/
def Scan.flush (s : Scan) : Scan :=
  { s with apt := s.stored, icao := none, text := none, lon := none, lat := none, frq := ∅ }

/-- One round of the loop. -/
def Scan.line (s : Scan) : Line → Scan
  | .blank => s.flush
  | .header icao text => { s with icao := some icao, text := some text }
  | .tower lat lon => { s with lat := some lat, lon := some lon }
  | .windsock lat lon => { s with latW := some lat, lonW := some lon }
  | .com frq type => { s with frq := s.frq.insert frq type }
  | .other => s

/-- The loop over the lines of apt.dat. -/
def scanApt (lines : List (List Char)) : Scan :=
  lines.foldl (fun s z => s.line (classify z)) Scan.start

/-! ## The scan of nav.dat -/

/-- One entry of `%NAV`. -/
structure NavEntry where
  lat : List Char
  lon : List Char
  frq : List Char
  text : List Char
  deriving DecidableEq

/-- A VOR/DME line: its code and the entry it makes. -/
def vorLine (z : List Char) : Option (List Char × NavEntry) :=
  match vorRx.first z with
  | some [lat, lon, frq, code, text] =>
      some (code,
        ⟨lat, lon, fixedText 3 3 (((Nat.ofDigitChars 10 frq 0 : ℕ) : ℚ) / 100), trimAll text⟩)
  | _ => none

/-- The loop over the lines of nav.dat, which ends at a line that starts with `99`. -/
def scanNav (lines : List (List Char)) : Hash NavEntry :=
  (lines.takeWhile fun z => !(['9', '9'].isPrefixOf z)).foldl
    (fun nav z =>
      match vorLine z with
      | some (code, e) => nav.insert code e
      | none => nav)
    ∅

end Fgcom.Phonebook
