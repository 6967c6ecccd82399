import Fgcom.Lib.Scanf
import Fgcom.Phonebook.KnownNumbers

/-! # The client reads positions.txt

The script writes the lines of positions.txt in UTF-8, without a bound on the length of any field.
The client reads them back with `fscanf`, into buffers of fixed size, with `,` between the fields.

* **`positionsText`** — the bytes of the file; **`readAirports`** — the list the client makes of
  it.
* **`FitsReader`** — the codes, types and names that the buffers hold;
  **`readAirports_positions_iff`** — the file is read back exactly when all that the script has
  written fits. -/

namespace Fgcom

open DecimalText Phonebook Scanf

/-! ## The bytes of the file -/

namespace Phonebook

/-- `Encode::encode("utf8", s)`. -/
def encodeUtf8 (s : List Char) : List Char :=
  s.flatMap fun c => (String.utf8EncodeChar c).map fun b => Char.ofNat b.toNat

/-- A line of positions.txt as it is written. -/
def PosLine.written (p : PosLine) : List Char :=
  encodeUtf8 (p.code ++ ',' :: p.frq ++ ',' :: p.lat ++ ',' :: p.lon ++ ',' :: p.type
    ++ ',' :: p.text ++ ['\n'])

/-- The file made of lines. -/
def positionsText (lines : List PosLine) : List Char := lines.flatMap PosLine.written

end Phonebook

/-! ## Reading it -/

/-- The string in a buffer that a conversion has filled. -/
def fieldText {w : ℕ} (v : {v : List Char // v.length ≤ w}) : CStr w :=
  ⟨cString v.val, (length_cString_le v.val).trans v.property⟩

/-- One `fscanf` with the format `%4[^,],%f,%lf,%lf,%32[^,],%128[^\r\n]`. -/
def scanEntry (s : List Char) : Option (Airport ℚ × List Char) := do
  let (icao, s) ← readSet (· ≠ ',') 4 s
  let s ← readChar ',' s
  let (frequency, s) ← readNumber s
  let s ← readChar ',' s
  let (lat, s) ← readNumber s
  let s ← readChar ',' s
  let (lon, s) ← readNumber s
  let s ← readChar ',' s
  let (type, s) ← readSet (· ≠ ',') 32 s
  let s ← readChar ',' s
  let (text, s) ← readSet (fun c => c ≠ '\r' ∧ c ≠ '\n') 128 s
  some (⟨fieldText icao, frequency, lat, lon, fieldText type, fieldText text⟩, s)

/-- The loop of `read_airports`, with a bound on its rounds: the blank at the front of the format
skips the line break, and only the end of the file there ends the loop well (`none` stands for
`ERROR during reading airports!`). -/
def readAirportsLoop : ℕ → List Char → Option (List (Airport ℚ))
  | 0, _ => none
  | n + 1, s =>
      let s := s.dropWhile isSpace
      if s = [] then some []
      else
        match scanEntry s with
        | none => none
        | some (a, rest) => (readAirportsLoop n rest).map (a :: ·)

/-- `read_airports`. Each round reads something, so the length of the file bounds the rounds. -/
def readAirports (file : List Char) : Option (List (Airport ℚ)) :=
  readAirportsLoop (file.length + 1) file

/-! ## UTF-8 -/

section Utf8

theorem toNat_byte (b : UInt8) : (Char.ofNat b.toNat).toNat = b.toNat := by
  have hvalid : b.toNat.isValidChar := Or.inl (b.toNat_lt.trans (by decide))
  rw [Char.ofNat, dif_pos hvalid]
  rfl

/-- The bytes of a character: one below 128 for a character of one byte, else all from 128 up. -/
theorem utf8EncodeChar_cases (c : Char) :
    (c.toNat < 128 ∧ String.utf8EncodeChar c = [UInt8.ofNat c.toNat]) ∨
      (128 ≤ c.toNat ∧ ∀ b ∈ String.utf8EncodeChar c, 128 ≤ b.toNat) := by
  have hval : c.val.toNat = c.toNat := rfl
  unfold String.utf8EncodeChar
  simp only [hval]
  by_cases h1 : c.toNat ≤ 127
  · exact Or.inl ⟨by omega, if_pos h1⟩
  · rw [if_neg h1]
    refine Or.inr ⟨by omega, fun b hb => ?_⟩
    -- a lead byte or a continuation byte
    split at hb
    · simp only [List.mem_cons, List.not_mem_nil, or_false] at hb
      rcases hb with rfl | rfl <;> rw [UInt8.toNat_ofNat'] <;> omega
    · split at hb
      · simp only [List.mem_cons, List.not_mem_nil, or_false] at hb
        rcases hb with rfl | rfl | rfl <;> rw [UInt8.toNat_ofNat'] <;> omega
      · simp only [List.mem_cons, List.not_mem_nil, or_false] at hb
        rcases hb with rfl | rfl | rfl | rfl <;> rw [UInt8.toNat_ofNat'] <;> omega

/-- A character of one byte is written as itself. -/
theorem utf8Bytes_ascii {c : Char} (hc : c.toNat < 128) :
    (String.utf8EncodeChar c).map (fun b => Char.ofNat b.toNat) = [c] := by
  rcases utf8EncodeChar_cases c with ⟨-, hbytes⟩ | ⟨hge, -⟩
  · have hbyte : (UInt8.ofNat c.toNat).toNat = c.toNat := by
      rw [UInt8.toNat_ofNat']
      omega
    rw [hbytes, List.map_singleton, hbyte, Char.ofNat_toNat]
  · omega

/-- A character of one byte is written for itself only. -/
theorem mem_utf8Bytes {c d : Char} (hd : d.toNat < 128) :
    d ∈ (String.utf8EncodeChar c).map (fun b => Char.ofNat b.toNat) ↔ d = c := by
  rcases utf8EncodeChar_cases c with ⟨hc, -⟩ | ⟨hge, hbytes⟩
  · rw [utf8Bytes_ascii hc, List.mem_singleton]
  · constructor
    · intro h
      obtain ⟨b, hb, rfl⟩ := List.mem_map.mp h
      have hlarge := hbytes b hb
      rw [toNat_byte] at hd
      omega
    · rintro rfl
      omega

@[simp] theorem encodeUtf8_nil : encodeUtf8 [] = [] := rfl

theorem encodeUtf8_append (s t : List Char) : encodeUtf8 (s ++ t) = encodeUtf8 s ++ encodeUtf8 t :=
  List.flatMap_append

theorem encodeUtf8_cons {c : Char} (hc : c.toNat < 128) (s : List Char) :
    encodeUtf8 (c :: s) = c :: encodeUtf8 s := by
  rw [encodeUtf8, List.flatMap_cons, utf8Bytes_ascii hc]
  rfl

/-- A text of one-byte characters is its own encoding. -/
theorem encodeUtf8_ascii {s : List Char} (h : ∀ c ∈ s, c.toNat < 128) : encodeUtf8 s = s := by
  induction s with
  | nil => rfl
  | cons c s ih =>
      rw [encodeUtf8_cons (h c List.mem_cons_self), ih fun c hc => h c (List.mem_cons_of_mem _ hc)]

/-- The encoding has the one-byte characters of the text. -/
theorem mem_encodeUtf8 {s : List Char} {d : Char} (hd : d.toNat < 128) :
    d ∈ encodeUtf8 s ↔ d ∈ s := by
  rw [encodeUtf8, List.mem_flatMap]
  constructor
  · rintro ⟨c, hc, hdc⟩
    rwa [(mem_utf8Bytes hd).mp hdc]
  · intro h
    exact ⟨d, h, (mem_utf8Bytes hd).mpr rfl⟩

/-- Only the empty text is written as nothing. -/
theorem encodeUtf8_eq_nil {s : List Char} : encodeUtf8 s = [] ↔ s = [] := by
  constructor
  · intro h
    cases s with
    | nil => rfl
    | cons c s =>
        rw [encodeUtf8, List.flatMap_cons, List.append_eq_nil_iff, List.map_eq_nil_iff] at h
        exact absurd h.1 String.utf8EncodeChar_ne_nil
  · rintro rfl
    rfl

end Utf8

/-! ## One line -/

namespace Phonebook

/-- A line as the script makes it: a code, three numerals, some type, and a name without a line
break. -/
structure PosLine.Sound (p : PosLine) : Prop where
  code : CodeText p.code
  frq : IsDecimal p.frq
  lat : IsDecimal p.lat
  lon : IsDecimal p.lon
  type : p.type ≠ []
  text : ∀ c ∈ p.text, c ≠ '\n' ∧ c ≠ '\r'

end Phonebook

/-- A code, a type and a name that the reader's buffers hold: at most 4, 32 and 128 bytes, no NUL,
no comma in the type, and a name that is not empty. -/
structure FitsReader (code type text : List Char) : Prop where
  codeLength : code.length ≤ 4
  typeLength : (encodeUtf8 type).length ≤ 32
  typeChars : ',' ∉ type ∧ '\x00' ∉ type
  textNonempty : text ≠ []
  textLength : (encodeUtf8 text).length ≤ 128
  textChars : '\x00' ∉ text

/-- An entry of the list has the values written on a line. -/
structure Airport.Holds (a : Airport ℚ) (p : PosLine) : Prop where
  icao : a.icao.val = encodeUtf8 p.code
  frequency : a.frequency = atof p.frq
  lat : a.lat = atof p.lat
  lon : a.lon = atof p.lon
  type : a.type.val = encodeUtf8 p.type
  text : a.text.val = encodeUtf8 p.text

/-- A code is of one-byte characters, none a blank, a comma or a NUL. -/
theorem codeChar_plain {c : Char} (hc : codeChar c = true) :
    c.toNat < 128 ∧ isSpace c = false ∧ c ≠ ',' ∧ c ≠ '\x00' := by
  have hrange := toNat_of_codeChar hc
  have hspecial : ∀ d : Char, codeChar d = false → c ≠ d := by
    rintro d hd rfl
    exact absurd hc (by rw [hd]; decide)
  refine ⟨by omega, ?_, hspecial _ (by decide), hspecial _ (by decide)⟩
  rw [Bool.eq_false_iff]
  intro hspace
  simp only [isSpace, Bool.or_eq_true, decide_eq_true_eq] at hspace
  rcases hspace with ((((h | h) | h) | h) | h) | h <;> exact hspecial _ (by decide) h

/-- A numeral is of one-byte characters. -/
theorem ascii_of_isDecimal {s : List Char} (hs : IsDecimal s) : ∀ c ∈ s, c.toNat < 128 := by
  obtain ⟨neg, int, frac, -, hint, -, hfrac, rfl⟩ := hs
  have hdigit : ∀ c : Char, c.isDigit = true → c.toNat < 128 := by
    intro c hc
    have hcode : codeChar c = true := by rw [codeChar, hc, Bool.or_true]
    exact (codeChar_plain hcode).1
  intro c hc
  rw [List.mem_append, List.mem_append, List.mem_cons] at hc
  rcases hc with (hc | hc) | rfl | hc
  · cases neg with
    | true =>
        rw [List.mem_singleton.mp hc]
        decide
    | false => exact absurd hc List.not_mem_nil
  · exact hdigit c (hint c hc)
  · decide
  · exact hdigit c (hfrac c hc)

section Entry

variable {p : PosLine} (rest : List Char)

/-- A line field by field. -/
theorem written_append (hp : p.Sound) :
    p.written ++ rest = p.code ++ ',' :: (p.frq ++ ',' :: (p.lat ++ ',' :: (p.lon ++ ',' ::
      (encodeUtf8 p.type ++ ',' :: (encodeUtf8 p.text ++ '\n' :: rest))))) := by
  have hcode : encodeUtf8 p.code = p.code :=
    encodeUtf8_ascii fun c hc => (codeChar_plain (hp.code.2 c hc)).1
  have hcomma : ∀ s, encodeUtf8 (',' :: s) = ',' :: encodeUtf8 s := encodeUtf8_cons (by decide)
  have hbreak : encodeUtf8 ['\n'] = ['\n'] := by decide
  unfold PosLine.written
  simp only [encodeUtf8_append, hcomma, hcode, encodeUtf8_ascii (ascii_of_isDecimal hp.frq),
    encodeUtf8_ascii (ascii_of_isDecimal hp.lat), encodeUtf8_ascii (ascii_of_isDecimal hp.lon),
    hbreak, List.append_assoc, List.cons_append, List.nil_append]

/-- A numeral before a comma is read whole. -/
theorem readNumber_comma {s : List Char} (hs : IsDecimal s) :
    readNumber (s ++ ',' :: rest) = some (atof s, ',' :: rest) :=
  readNumber_append hs (endsNumeral_cons (by decide) (by decide) (by decide))

/-- **The conversions of an entry**, one after the other. -/
theorem scanEntry_eq_some {s rest : List Char} {a : Airport ℚ} :
    scanEntry s = some (a, rest) ↔
      ∃ icao s₁ s₂ frequency s₃ s₄ lat s₅ s₆ lon s₇ s₈ type s₉ s₁₀ text,
        readSet (· ≠ ',') 4 s = some (icao, s₁) ∧ readChar ',' s₁ = some s₂ ∧
          readNumber s₂ = some (frequency, s₃) ∧ readChar ',' s₃ = some s₄ ∧
          readNumber s₄ = some (lat, s₅) ∧ readChar ',' s₅ = some s₆ ∧
          readNumber s₆ = some (lon, s₇) ∧ readChar ',' s₇ = some s₈ ∧
          readSet (· ≠ ',') 32 s₈ = some (type, s₉) ∧ readChar ',' s₉ = some s₁₀ ∧
          readSet (fun c => c ≠ '\r' ∧ c ≠ '\n') 128 s₁₀ = some (text, rest) ∧
          a = ⟨fieldText icao, frequency, lat, lon, fieldText type, fieldText text⟩ := by
  unfold scanEntry
  constructor
  · intro h
    obtain ⟨⟨icao, s₁⟩, hicao, h⟩ := Option.bind_eq_some_iff.mp h
    obtain ⟨s₂, hsep₁, h⟩ := Option.bind_eq_some_iff.mp h
    obtain ⟨⟨frequency, s₃⟩, hfrq, h⟩ := Option.bind_eq_some_iff.mp h
    obtain ⟨s₄, hsep₂, h⟩ := Option.bind_eq_some_iff.mp h
    obtain ⟨⟨lat, s₅⟩, hlat, h⟩ := Option.bind_eq_some_iff.mp h
    obtain ⟨s₆, hsep₃, h⟩ := Option.bind_eq_some_iff.mp h
    obtain ⟨⟨lon, s₇⟩, hlon, h⟩ := Option.bind_eq_some_iff.mp h
    obtain ⟨s₈, hsep₄, h⟩ := Option.bind_eq_some_iff.mp h
    obtain ⟨⟨type, s₉⟩, htype, h⟩ := Option.bind_eq_some_iff.mp h
    obtain ⟨s₁₀, hsep₅, h⟩ := Option.bind_eq_some_iff.mp h
    obtain ⟨⟨text, s₁₁⟩, htext, h⟩ := Option.bind_eq_some_iff.mp h
    obtain ⟨rfl, rfl⟩ := Prod.mk.inj (Option.some.inj h)
    exact ⟨icao, s₁, s₂, frequency, s₃, s₄, lat, s₅, s₆, lon, s₇, s₈, type, s₉, s₁₀, text, hicao,
      hsep₁, hfrq, hsep₂, hlat, hsep₃, hlon, hsep₄, htype, hsep₅, htext, rfl⟩
  · rintro ⟨icao, s₁, s₂, frequency, s₃, s₄, lat, s₅, s₆, lon, s₇, s₈, type, s₉, s₁₀, text, hicao,
      hsep₁, hfrq, hsep₂, hlat, hsep₃, hlon, hsep₄, htype, hsep₅, htext, rfl⟩
    refine Option.bind_eq_some_iff.mpr ⟨_, hicao, Option.bind_eq_some_iff.mpr ⟨_, hsep₁, ?_⟩⟩
    refine Option.bind_eq_some_iff.mpr ⟨_, hfrq, Option.bind_eq_some_iff.mpr ⟨_, hsep₂, ?_⟩⟩
    refine Option.bind_eq_some_iff.mpr ⟨_, hlat, Option.bind_eq_some_iff.mpr ⟨_, hsep₃, ?_⟩⟩
    refine Option.bind_eq_some_iff.mpr ⟨_, hlon, Option.bind_eq_some_iff.mpr ⟨_, hsep₄, ?_⟩⟩
    refine Option.bind_eq_some_iff.mpr ⟨_, htype, Option.bind_eq_some_iff.mpr ⟨_, hsep₅, ?_⟩⟩
    exact Option.bind_eq_some_iff.mpr ⟨_, htext, rfl⟩

/-- **A line that fits is read whole**, up to its line break. -/
theorem scanEntry_written (hp : p.Sound) (hfits : FitsReader p.code p.type p.text) :
    ∃ a, scanEntry (p.written ++ rest) = some (a, '\n' :: rest) ∧ a.Holds p := by
  have hcode : encodeUtf8 p.code = p.code :=
    encodeUtf8_ascii fun c hc => (codeChar_plain (hp.code.2 c hc)).1
  have hcomma : ∀ s : List Char, ',' ∉ s → ∀ c ∈ s, decide (c ≠ ',') = true :=
    fun s hs c hc => decide_eq_true fun h => hs (h ▸ hc)
  have htype : encodeUtf8 p.type ≠ [] := fun h => hp.type (encodeUtf8_eq_nil.mp h)
  have htypeComma : ',' ∉ encodeUtf8 p.type := fun h =>
    hfits.typeChars.1 ((mem_encodeUtf8 (by decide)).mp h)
  have htypeNul : '\x00' ∉ encodeUtf8 p.type := fun h =>
    hfits.typeChars.2 ((mem_encodeUtf8 (by decide)).mp h)
  have htext : encodeUtf8 p.text ≠ [] := fun h => hfits.textNonempty (encodeUtf8_eq_nil.mp h)
  have htextNul : '\x00' ∉ encodeUtf8 p.text := fun h =>
    hfits.textChars ((mem_encodeUtf8 (by decide)).mp h)
  have htextBreak : ∀ c ∈ encodeUtf8 p.text, decide (c ≠ '\r' ∧ c ≠ '\n') = true := by
    intro c hc
    refine decide_eq_true ⟨?_, ?_⟩
    · rintro rfl
      exact (hp.text _ ((mem_encodeUtf8 (by decide)).mp hc)).2 rfl
    · rintro rfl
      exact (hp.text _ ((mem_encodeUtf8 (by decide)).mp hc)).1 rfl
  have hcodeNul : '\x00' ∉ p.code := fun h => (codeChar_plain (hp.code.2 _ h)).2.2.2 rfl
  -- each conversion takes the field in front of it
  have hread₁ := fun rest => readSet_append (c := ',') rest hp.code.1 hfits.codeLength
    (hcomma p.code fun h => (codeChar_plain (hp.code.2 _ h)).2.2.1 rfl) (by decide)
  have hread₅ := fun rest => readSet_append (c := ',') rest htype hfits.typeLength
    (hcomma _ htypeComma) (by decide)
  have hread₆ := readSet_append (c := '\n') rest htext hfits.textLength htextBreak (by decide)
  rw [written_append rest hp]
  refine ⟨_, scanEntry_eq_some.mpr ⟨_, _, _, _, _, _, _, _, _, _, _, _, _, _, _, _, hread₁ _,
    readChar_cons _ _, readNumber_comma _ hp.frq, readChar_cons _ _, readNumber_comma _ hp.lat,
    readChar_cons _ _, readNumber_comma _ hp.lon, readChar_cons _ _, hread₅ _, readChar_cons _ _,
    hread₆, rfl⟩, ?_, rfl, rfl, rfl, ?_, ?_⟩
  · exact (cString_eq_self hcodeNul).trans hcode.symm
  · exact cString_eq_self htypeNul
  · exact cString_eq_self htextNul

/-- Behind a numeral and its comma stands what follows. -/
theorem behind_comma {s rest t u : List Char} {q : ℚ} (hs : IsDecimal s)
    (hnumber : readNumber (s ++ ',' :: rest) = some (q, t)) (hsep : readChar ',' t = some u) :
    u = rest := by
  rw [readNumber_comma rest hs] at hnumber
  obtain ⟨-, rfl⟩ := Prod.mk.inj (Option.some.inj hnumber)
  rw [readChar_cons] at hsep
  exact (Option.some.inj hsep).symm

/-- **What is read as the values of a line fits.** -/
theorem fits_of_scanEntry (hp : p.Sound) {a : Airport ℚ} {s : List Char}
    (h : scanEntry (p.written ++ rest) = some (a, s)) (ha : a.Holds p) :
    FitsReader p.code p.type p.text := by
  have hnotComma : ∀ {s : List Char}, (∀ c ∈ s, decide (c ≠ ',') = true) → ',' ∉ s :=
    fun hs h => of_decide_eq_true (hs _ h) rfl
  rw [written_append rest hp] at h
  obtain ⟨code, s₁, s₂, frequency, s₃, s₄, lat, s₅, s₆, lon, s₇, s₈, type, s₉, s₁₀, text, hcode,
    hsep₁, hfrq, hsep₂, hlat, hsep₃, hlon, hsep₄, htype, hsep₅, htext, rfl⟩ :=
    scanEntry_eq_some.mp h
  have htypeHeld : cString type.val = encodeUtf8 p.type := ha.type
  have htextHeld : cString text.val = encodeUtf8 p.text := ha.text
  -- the code read is all that stands before the first comma
  obtain ⟨hs, -, hcodeComma⟩ := readSet_eq_some hcode
  rw [readChar_eq_some hsep₁] at hs
  obtain ⟨hcodeEq, rfl⟩ := append_cons_inj
    (fun h => (codeChar_plain (hp.code.2 _ h)).2.2.1 rfl) (hnotComma hcodeComma) hs
  obtain rfl := behind_comma hp.frq hfrq hsep₂
  obtain rfl := behind_comma hp.lat hlat hsep₃
  obtain rfl := behind_comma hp.lon hlon hsep₄
  -- so is the type, for the type held has no comma
  obtain ⟨hs, -, htypeComma⟩ := readSet_eq_some htype
  rw [readChar_eq_some hsep₅] at hs
  have hcomma : ',' ∉ encodeUtf8 p.type := by
    rw [← htypeHeld]
    exact fun h => hnotComma htypeComma (mem_of_mem_cString h)
  obtain ⟨htypeEq, rfl⟩ := append_cons_inj hcomma (hnotComma htypeComma) hs
  -- a name has at least one character, and none behind a line break
  obtain ⟨hs, htextNe, htextBreak⟩ := readSet_eq_some htext
  refine ⟨?_, ?_, ⟨?_, ?_⟩, ?_, ?_, ?_⟩
  · rw [hcodeEq]
    exact code.property
  · rw [htypeEq]
    exact type.property
  · exact fun h => hcomma ((mem_encodeUtf8 (by decide)).mpr h)
  · intro h
    refine nul_not_mem_cString type.val ?_
    rw [htypeHeld]
    exact (mem_encodeUtf8 (by decide)).mpr h
  · intro hempty
    obtain ⟨c, v, hv⟩ := List.exists_cons_of_ne_nil htextNe
    rw [hempty, hv] at hs
    have hc : c = '\n' := (List.cons.inj hs).1.symm
    exact (of_decide_eq_true (htextBreak c (hv ▸ List.mem_cons_self))).2 hc
  · rw [← htextHeld]
    exact (length_cString_le text.val).trans text.property
  · intro h
    refine nul_not_mem_cString text.val ?_
    rw [htextHeld]
    exact (mem_encodeUtf8 (by decide)).mpr h

end Entry

/-! ## The whole file -/

/-- A line break in front of the next round is skipped. -/
theorem readAirportsLoop_lineBreak (n : ℕ) (s : List Char) :
    readAirportsLoop n ('\n' :: s) = readAirportsLoop n s := by
  cases n with
  | zero => rfl
  | succ n => rfl

/-- What is left of a file after a round is shorter. -/
theorem length_scanEntry {s rest : List Char} {a : Airport ℚ} (h : scanEntry s = some (a, rest)) :
    rest.length < s.length := by
  obtain ⟨code, s₁, s₂, frequency, s₃, s₄, lat, s₅, s₆, lon, s₇, s₈, type, s₉, s₁₀, text, hcode,
    hsep₁, hfrq, hsep₂, hlat, hsep₃, hlon, hsep₄, htype, hsep₅, htext, -⟩ :=
    scanEntry_eq_some.mp h
  have := length_readSet hcode
  have := length_readChar hsep₁
  have := length_readNumber hfrq
  have := length_readChar hsep₂
  have := length_readNumber hlat
  have := length_readChar hsep₃
  have := length_readNumber hlon
  have := length_readChar hsep₄
  have := length_readSet htype
  have := length_readChar hsep₅
  have := length_readSet htext
  omega

/-- **The bound is never met**: more rounds than the file has characters change nothing. -/
theorem readAirportsLoop_of_length_lt {n m : ℕ} {s : List Char} (hn : s.length < n)
    (hm : s.length < m) : readAirportsLoop n s = readAirportsLoop m s := by
  induction n generalizing m s with
  | zero => exact absurd hn (Nat.not_lt_zero _)
  | succ n ih =>
      obtain ⟨m, rfl⟩ : ∃ k, m = k + 1 := ⟨m - 1, by omega⟩
      have hle := (List.dropWhile_suffix isSpace (l := s)).length_le
      simp only [readAirportsLoop]
      split
      · rfl
      · cases hentry : scanEntry (s.dropWhile isSpace) with
        | none => rfl
        | some x =>
            obtain ⟨a, rest⟩ := x
            have hlt := length_scanEntry hentry
            have hrest : readAirportsLoop n rest = readAirportsLoop m rest :=
              ih (by omega) (by omega)
            simp only [hrest]

/-- A round that starts at a line. -/
theorem readAirportsLoop_written {p : PosLine} (hp : p.Sound) (n : ℕ) (rest : List Char) :
    readAirportsLoop (n + 1) (p.written ++ rest)
      = (scanEntry (p.written ++ rest)).bind fun x => (readAirportsLoop n x.2).map (x.1 :: ·) := by
  have hdrop : (p.written ++ rest).dropWhile isSpace = p.written ++ rest := by
    rw [written_append rest hp]
    obtain ⟨c, t, hcode⟩ := List.exists_cons_of_ne_nil hp.code.1
    have hc : isSpace c = false :=
      (codeChar_plain (hp.code.2 c (hcode ▸ List.mem_cons_self))).2.1
    rw [hcode, List.cons_append, List.dropWhile_cons_of_neg (by simp [hc])]
  have hne : p.written ++ rest ≠ [] := by
    rw [written_append rest hp]
    exact fun h => hp.code.1 (List.append_eq_nil_iff.mp h).1
  simp only [readAirportsLoop, hdrop, if_neg hne]
  cases scanEntry (p.written ++ rest) with
  | none => rfl
  | some x => rfl

/-- **The list holds the lines of the file exactly when every line fits.** -/
theorem readAirportsLoop_iff {lines : List PosLine} (hlines : ∀ p ∈ lines, p.Sound) {n : ℕ}
    (hn : (positionsText lines).length < n) :
    (∃ airports, readAirportsLoop n (positionsText lines) = some airports ∧
        List.Forall₂ Airport.Holds airports lines) ↔
      ∀ p ∈ lines, FitsReader p.code p.type p.text := by
  induction lines generalizing n with
  | nil =>
      obtain ⟨n, rfl⟩ : ∃ k, n = k + 1 := ⟨n - 1, by omega⟩
      exact ⟨fun _ p hp => absurd hp List.not_mem_nil, fun _ => ⟨[], rfl, .nil⟩⟩
  | cons p lines ih =>
      obtain ⟨n, rfl⟩ : ∃ k, n = k + 1 := ⟨n - 1, by omega⟩
      have hp := hlines p List.mem_cons_self
      have hrest := fun q hq => hlines q (List.mem_cons_of_mem p hq)
      have htext : positionsText (p :: lines) = p.written ++ positionsText lines :=
        List.flatMap_cons
      have hlen : (positionsText lines).length < n := by
        have hpos : 0 < p.written.length := by
          have hwritten := written_append [] hp
          rw [List.append_nil] at hwritten
          simp [hwritten]
        rw [htext, List.length_append] at hn
        omega
      rw [htext, readAirportsLoop_written hp, List.forall_mem_cons, ← ih hrest hlen]
      constructor
      · rintro ⟨airports, h, hall⟩
        obtain ⟨⟨a, s⟩, hentry, h⟩ := Option.bind_eq_some_iff.mp h
        obtain ⟨tail, htail, rfl⟩ := Option.map_eq_some_iff.mp h
        obtain ⟨ha, htailHolds⟩ := List.forall₂_cons.mp hall
        have hfits := fits_of_scanEntry (positionsText lines) hp hentry ha
        -- the line fits, so the next round starts behind it
        obtain ⟨a', hentry', -⟩ := scanEntry_written (positionsText lines) hp hfits
        obtain ⟨-, rfl⟩ := Prod.mk.inj (Option.some.inj (hentry.symm.trans hentry'))
        rw [readAirportsLoop_lineBreak] at htail
        exact ⟨hfits, tail, htail, htailHolds⟩
      · rintro ⟨hfits, tail, htail, htailHolds⟩
        obtain ⟨a, hentry, ha⟩ := scanEntry_written (positionsText lines) hp hfits
        refine ⟨a :: tail, ?_, .cons ha htailHolds⟩
        rw [hentry, Option.bind_some, readAirportsLoop_lineBreak, htail]
        rfl

/-- What the script writes for airports and VORs fits the client's buffers. -/
def TablesFit (apt : Hash AptEntry) (nav : Hash NavEntry) : Prop :=
  (∀ a e f type, apt.lookup a = some e → e.com.lookup f = some type → FitsReader a type e.text) ∧
    ∀ v e, nav.lookup v = some e → FitsReader v "VOR".toList e.text

section Tables

variable {order : KeyOrder} {apt : Hash AptEntry} {nav : Hash NavEntry}

/-- The lines written from sound tables are sound. -/
theorem sound_of_mem_positions (hapt : SoundApt apt) (hnav : SoundNav nav) {p : PosLine}
    (h : p ∈ positions order apt nav) : p.Sound := by
  rcases mem_positions.mp h with ⟨a, e, f, type, he, htype, hp⟩ | ⟨v, e, he, rfl⟩
  · obtain ⟨hcode, hsound⟩ := hapt a e he
    obtain ⟨⟨b, rfl, -⟩, t, rfl⟩ := hsound.com f type htype
    obtain ⟨k, -, rfl⟩ := mem_airportPositions.mp hp
    obtain ⟨u, hu⟩ := hsound.text
    refine ⟨hcode, isDecimal_mhzText k, hsound.lat, hsound.lon, ?_, ?_⟩
    · -- a type of at most one character is stored as `TWR`
      show storedType (trimAll t) ≠ []
      unfold storedType
      split
      · decide
      · rename_i hlong
        intro hnil
        rw [hnil] at hlong
        exact hlong (by decide)
    · show ∀ c ∈ e.text, c ≠ '\n' ∧ c ≠ '\r'
      rw [hu]
      exact fun c => ne_lineBreak_of_mem_trimAll
  · obtain ⟨hcode, hsound⟩ := hnav v e he
    obtain ⟨n, hn⟩ := hsound.frq
    obtain ⟨u, hu⟩ := hsound.text
    refine ⟨hcode, ?_, hsound.lat, hsound.lon, List.cons_ne_nil _ _, ?_⟩
    · show IsDecimal e.frq
      rw [hn]
      exact isDecimal_mhzText _
    · show ∀ c ∈ e.text, c ≠ '\n' ∧ c ≠ '\r'
      rw [hu]
      exact fun c => ne_lineBreak_of_mem_trimAll

/-- All lines fit when all entries do. -/
theorem fits_positions_iff :
    (∀ p ∈ positions order apt nav, FitsReader p.code p.type p.text) ↔ TablesFit apt nav := by
  constructor
  · intro h
    refine ⟨fun a e f type he htype => ?_, fun v e he => ?_⟩
    · exact h ⟨a, f, e.lat, e.lon, type, e.text⟩
        (mem_positions.mpr (Or.inl ⟨a, e, f, type, he, htype, List.mem_cons_self⟩))
    · exact h (vorPosition v e) (mem_positions.mpr (Or.inr ⟨v, e, he, rfl⟩))
  · rintro ⟨hairports, hvors⟩ p hp
    rcases mem_positions.mp hp with ⟨a, e, f, type, he, htype, hp⟩ | ⟨v, e, he, rfl⟩
    · obtain ⟨f', -, rfl⟩ := List.mem_map.mp hp
      exact hairports a e f type he htype
    · exact hvors v e he

/-- The list read back holds the lines in the sense of the lookup. -/
theorem listOf_of_holds {lines : List PosLine} (hlines : ∀ p ∈ lines, p.Sound)
    {airports : List (Airport ℚ)} (h : List.Forall₂ Airport.Holds airports lines) :
    ListOf lines airports := by
  induction h with
  | nil => rfl
  | @cons a p airports lines ha _ ih =>
      have hp := hlines p List.mem_cons_self
      have hcode : encodeUtf8 p.code = p.code :=
        encodeUtf8_ascii fun c hc => (codeChar_plain (hp.code.2 c hc)).1
      have htail : ListOf lines airports := ih fun q hq => hlines q (List.mem_cons_of_mem p hq)
      have hhead : (a.icao.val, a.frequency, a.lat, a.lon)
          = (p.code, atof p.frq, atof p.lat, atof p.lon) := by
        rw [ha.icao, hcode, ha.frequency, ha.lat, ha.lon]
      unfold ListOf at htail ⊢
      rw [List.map_cons, List.map_cons, hhead, htail]

/-- **From the files to the list**: when all that is written fits, the client has the list that the
lookup is about. -/
theorem exists_listOf_readAirports (hapt : SoundApt apt) (hnav : SoundNav nav)
    (hfits : TablesFit apt nav) :
    ∃ airports, readAirports (positionsText (positions order apt nav)) = some airports ∧
      ListOf (positions order apt nav) airports := by
  have hlines : ∀ p ∈ positions order apt nav, p.Sound :=
    fun p => sound_of_mem_positions hapt hnav
  obtain ⟨airports, hread, hholds⟩ := (readAirportsLoop_iff hlines (Nat.lt_succ_self _)).mpr
    (fits_positions_iff.mpr hfits)
  exact ⟨airports, hread, listOf_of_holds hlines hholds⟩

end Tables

/-- **positions.txt is read back exactly when all that is written fits.** Whatever apt.dat and
nav.dat are, `read_airports` reads the whole file that the script makes of them, with one entry a
line holding the values of the line, if and only if the codes, types and names fit. -/
theorem readAirports_positions_iff (order : KeyOrder) (aptLines navLines : List (List Char)) :
    (∃ airports,
        readAirports (positionsText (positions order (scanApt aptLines).apt (scanNav navLines)))
          = some airports ∧
        List.Forall₂ Airport.Holds airports
          (positions order (scanApt aptLines).apt (scanNav navLines))) ↔
      TablesFit (scanApt aptLines).apt (scanNav navLines) := by
  have hapt := soundApt_scan aptLines
  have hnav := soundNav_scan navLines
  rw [← @fits_positions_iff order]
  exact readAirportsLoop_iff (fun p => sound_of_mem_positions hapt hnav) (Nat.lt_succ_self _)

/-- An airport with a code of five characters. -/
def longCodeLines : List (List Char) :=
  ["1 364 1 0 EDDFX Frankfurt".toList, "14 50.05 8.57 0".toList, "54 11850 TOWER".toList, []]

/-- **A file the client cannot read**: a code of five characters stops it at the first line. -/
theorem readAirports_long_code :
    readAirports (positionsText
        (positions plainOrder (scanApt longCodeLines).apt (scanNav twoVorLines))) = none ∧
      ¬ ∃ airports,
        readAirports (positionsText
            (positions plainOrder (scanApt longCodeLines).apt (scanNav twoVorLines)))
          = some airports ∧
        List.Forall₂ Airport.Holds airports
          (positions plainOrder (scanApt longCodeLines).apt (scanNav twoVorLines)) := by
  have hnone : readAirports (positionsText
      (positions plainOrder (scanApt longCodeLines).apt (scanNav twoVorLines))) = none := by
    decide +kernel
  refine ⟨hnone, ?_⟩
  rintro ⟨airports, hread, -⟩
  rw [hnone] at hread
  exact absurd hread (by simp)

end Fgcom
