import Fgcom.Phonebook.AptDat
import Mathlib.Data.Char
import Mathlib.Data.List.Lex
import Mathlib.Data.List.Sort

/-! # Writing positions.txt and fgcom.conf

The two output loops of `gen_phonebook.pl`. For each frequency of an airport the script writes the
line of the frequency itself and, when it ends in 00, 25, 50 or 75 kHz, the lines of its aliases: in
positions.txt a line with the alias frequency, in fgcom.conf an extension that dials the one of the
frequency. For each VOR it writes one line and one extension.

A line of fgcom.conf is kept as its parts; of the file only the context `[fgcom]` is modelled. -/

namespace Fgcom.Phonebook

open DecimalText

/-! ## Numbers as texts -/

/-- A number `q ≥ 0` in a string, for numbers of at most three decimals: no zeros at the end of the
fraction, and no point before an empty one. -/
def perlNumber (q : ℚ) : List Char :=
  let m := ⌊q * 1000⌋.toNat
  let frac := (padded 3 (m % 1000)).rdropWhile (· = '0')
  Nat.toDigits 10 (m / 1000) ++ if frac = [] then [] else '.' :: frac

/-- `icao2number`: the code is padded with blanks to four characters, and each character stands for
its two-digit number. -/
def icao2number (icao : List Char) : List Char :=
  (icao.leftpad 4 ' ').flatMap fun c => padded 2 c.toNat

/-- `"01$icao_number".(q)`. -/
def radioNumber (icao : List Char) (q : ℚ) : List Char :=
  "01".toList ++ icao2number icao ++ perlNumber q

/-- `"99$icao_number".(q)`. -/
def atisNumber (icao : List Char) (q : ℚ) : List Char :=
  "99".toList ++ icao2number icao ++ perlNumber q

/-- `substr($f, -2)` as a number. -/
def ssf (f : List Char) : ℕ := Nat.ofDigitChars 10 (f.drop (f.length - 2)) 0

/-! ## Lines -/

/-- A line of positions.txt. -/
structure PosLine where
  code : List Char
  frq : List Char
  lat : List Char
  lon : List Char
  type : List Char
  text : List Char
  deriving DecidableEq

/-- The priority of an `exten` line. -/
inductive Priority
  | first
  | next
  deriving DecidableEq

/-- What an `exten` line runs. -/
inductive App
  /-- `Dial(Local/number)`. -/
  | dialLocal (number : List Char)
  /-- Any other application with its argument text. -/
  | run (name args : List Char)
  deriving DecidableEq

/-- A line `exten => number,priority,app`. -/
structure ConfLine where
  exten : List Char
  priority : Priority
  app : App
  deriving DecidableEq

/-- The `exten` lines of the context `[fgcom]` in `$extensions_pre`. -/
def extensionsPre : List ConfLine :=
  [⟨"0190909090910000".toList, .first,
      .run "SendText".toList "Echo Box - For testing FGCOM".toList⟩,
    ⟨"0190909090910000".toList, .next, .run "Macro".toList "echo".toList⟩,
    ⟨"0190909090911000".toList, .first, .run "Answer".toList []⟩,
    ⟨"0190909090911000".toList, .next,
      .run "SendText".toList "Music On Hold Box - For testing FGCOM".toList⟩,
    ⟨"0190909090911000".toList, .next, .run "MusicOnHold".toList "default".toList⟩,
    ⟨"0190909090700000".toList, .first,
      .run "SendText".toList "Radio Station - For testing FGCOM".toList⟩,
    ⟨"0190909090700000".toList, .next, .run "Macro".toList "radio".toList⟩,
    ⟨"0190909090121500".toList, .first,
      .run "SendText".toList "121.500 Auto-information frequency".toList⟩,
    ⟨"0190909090121500".toList, .next, .run "Macro".toList "com".toList⟩,
    ⟨"0190909090123450".toList, .first,
      .run "SendText".toList "123.450 Auto-information frequency".toList⟩,
    ⟨"0190909090123450".toList, .next, .run "Macro".toList "com".toList⟩,
    ⟨"0190909090123500".toList, .first,
      .run "SendText".toList "123.500 Auto-information frequency".toList⟩,
    ⟨"0190909090123500".toList, .next, .run "Macro".toList "com".toList⟩,
    ⟨"0190909090122750".toList, .first,
      .run "SendText".toList "122.750 Auto-information frequency".toList⟩,
    ⟨"0190909090122750".toList, .next, .run "Macro".toList "com".toList⟩,
    ⟨"0190909090121000".toList, .first,
      .run "SendText".toList "121.000 Emergency frequency".toList⟩,
    ⟨"0190909090121000".toList, .next, .run "Macro".toList "com".toList⟩,
    ⟨"0190909090723340".toList, .first,
      .run "SendText".toList "723.340 French Air Patrol frequency".toList⟩,
    ⟨"0190909090723340".toList, .next, .run "Macro".toList "com".toList⟩]

/-! ## One frequency of an airport -/

/-- The alias frequencies written to positions.txt: 5 kHz above a frequency ending in 00 or 50, and
both 5 kHz above and below one ending in 25 or 75, with a zero added. -/
def aliasFrqs (f : List Char) : List (List Char) :=
  if ssf f = 0 then [perlNumber (atof f + 5 / 1000)]
  else if ssf f = 25 then
    [perlNumber (atof f + 5 / 1000) ++ ['0'], perlNumber (atof f - 5 / 1000) ++ ['0']]
  else if ssf f = 50 then [perlNumber (atof f + 5 / 1000)]
  else if ssf f = 75 then
    [perlNumber (atof f + 5 / 1000) ++ ['0'], perlNumber (atof f - 5 / 1000) ++ ['0']]
  else []

/-- The alias extensions written to fgcom.conf: each dials the extension of the frequency. -/
def aliasExtensions (airport f : List Char) : List ConfLine :=
  let dial (q : ℚ) : ConfLine :=
    ⟨radioNumber airport q, .first, .dialLocal (radioNumber airport (atof f * 1000))⟩
  if ssf f = 0 then [dial (atof f * 1000 + 5)]
  else if ssf f = 25 then [dial (atof f * 1000 - 5), dial (atof f * 1000 + 5)]
  else if ssf f = 50 then [dial (atof f * 1000 + 5)]
  else if ssf f = 75 then [dial (atof f * 1000 - 5), dial (atof f * 1000 + 5)]
  else []

/-- The lines of positions.txt for one frequency of an airport. -/
def airportPositions (airport : List Char) (e : AptEntry) (f type : List Char) : List PosLine :=
  (f :: aliasFrqs f).map fun f => ⟨airport, f, e.lat, e.lon, type, e.text⟩

/-- The address of an airport's web page. -/
def searchUrl (airport : List Char) : List Char :=
  "http://www.the-airport-guide.com/search.php?by=icao&search=".toList ++ airport

/-- The lines of fgcom.conf for one frequency of an airport. A type that ends in `ATIS` plays the
recorded message, and gets a second extension that records it. -/
def airportExtensions (airport : List Char) (e : AptEntry) (f type : List Char) : List ConfLine :=
  let number := radioNumber airport (atof f * 1000)
  let text (type : List Char) : List Char :=
    airport ++ ' ' :: e.text ++ ' ' :: f ++ ' ' :: type
  if "ATIS".toList.isSuffixOf type then
    [⟨number, .first, .run "SendText".toList (text type)⟩,
      ⟨number, .next, .run "SendURL".toList (searchUrl airport)⟩,
      ⟨number, .next, .run "Macro".toList "atis".toList⟩]
    ++ aliasExtensions airport f ++
    [⟨atisNumber airport (atof f * 1000), .first,
        .run "SendText".toList (text ("Record-".toList ++ type))⟩,
      ⟨atisNumber airport (atof f * 1000), .next, .run "Macro".toList "record-atis".toList⟩]
  else
    [⟨number, .first, .run "SendText".toList (text type)⟩,
      ⟨number, .next, .run "SendURL".toList (searchUrl airport)⟩,
      ⟨number, .next, .run "Macro".toList "com".toList⟩]
    ++ aliasExtensions airport f

/-! ## The files -/

/-- The line of positions.txt for a VOR. -/
def vorPosition (vor : List Char) (e : NavEntry) : PosLine :=
  ⟨vor, e.frq, e.lat, e.lon, "VOR".toList, e.text⟩

/-- The lines of fgcom.conf for a VOR. -/
def vorExtensions (vor : List Char) (e : NavEntry) : List ConfLine :=
  let number := radioNumber vor (atof e.frq * 1000)
  [⟨number, .first, .run "SendText".toList (vor ++ ' ' :: e.text ++ ' ' :: e.frq)⟩,
    ⟨number, .next, .run "Macro".toList ("vor,".toList ++ vor)⟩]

/-- The order in which Perl returns the keys of a hash `%{$APT{$airport}{'com'}}`: some
rearrangement of them, which may differ from hash to hash. -/
abbrev KeyOrder : Type :=
  {keys : List Char → List (List Char) → List (List Char) // ∀ airport l, (keys airport l).Perm l}

/-- `sort(keys(%h))`. -/
def sortedKeys {α : Type} (h : Hash α) : List (List Char) := h.keys.insertionSort (· ≤ ·)

section Files

variable (order : KeyOrder) (apt : Hash AptEntry) (nav : Hash NavEntry)

/-- The frequencies of all airports in the order of output, with the data the loop body reads. -/
def frequencies : List (List Char × AptEntry × List Char × List Char) :=
  (sortedKeys apt).flatMap fun airport =>
    match apt.lookup airport with
    | none => []
    | some e =>
        (order.val airport e.com.keys).flatMap fun f =>
          match e.com.lookup f with
          | none => []
          | some type => [(airport, e, f, type)]

/-- The VORs in the order of output. -/
def vors : List (List Char × NavEntry) :=
  (sortedKeys nav).flatMap fun vor =>
    match nav.lookup vor with
    | none => []
    | some e => [(vor, e)]

/-- positions.txt. -/
def positions : List PosLine :=
  ((frequencies order apt).flatMap fun x => airportPositions x.1 x.2.1 x.2.2.1 x.2.2.2)
    ++ (vors nav).map fun x => vorPosition x.1 x.2

/-- The `exten` lines of fgcom.conf in the context `[fgcom]`. -/
def extensions : List ConfLine :=
  extensionsPre
    ++ ((frequencies order apt).flatMap fun x => airportExtensions x.1 x.2.1 x.2.2.1 x.2.2.2)
    ++ (vors nav).flatMap fun x => vorExtensions x.1 x.2

end Files

end Fgcom.Phonebook
