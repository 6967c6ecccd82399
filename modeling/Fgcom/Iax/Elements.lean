import Mathlib.Data.List.TakeWhile
import Fgcom.Lib.CBuffer
import Fgcom.Lib.Tlv

/-! # Information elements

What a command of the IAX protocol carries besides its header: `iax2-parser.c`.

* **`iaxIeAppendRaw`** and the functions that call it — appending an element to a buffer of 1024
  bytes.
* **`iaxParseIes`** — reading them back. The strings are not copied: a field points into the bytes
  received, and the string ends because the type of the next element is overwritten with 0.
* **`append_decode_iff`** — the elements appended are the elements read exactly when each value has
  at most 255 bytes and all of them fit into the buffer.
* **`parse_ies_meaning`** — for every datagram the parser stays within it and its one spare byte, it
  fails exactly if an element is cut off, and else every field has the value of the last element of
  its type.
* **`apparent_addr_iff`** — the one field whose length nobody checks. -/

namespace Fgcom.Iax

open CBuffer Tlv

/-! ## Appending -/

/-- The bytes of a number in network order. -/
def bytesOf : ℕ → ℕ → List UInt8
  | 0, _ => []
  | w + 1, value => bytesOf w (value / 256) ++ [UInt8.ofNat value]

/-- `sizeof(ied->buf)`. -/
def iedSize : ℕ := 1024

/-- `iax_ie_append_raw`: its return value and the bytes in the buffer, `none` when it writes behind
the buffer. The check leaves out the two bytes for type and length. -/
def iaxIeAppendRaw (ied : List UInt8) (ie : UInt8) (data : List UInt8) :
    Option (ℤ × List UInt8) :=
  if (data.length : ℤ) > iedSize - ied.length then some (-1, ied)
  else if ied.length + 2 + data.length > iedSize then none
  else some (0, ied ++ ie :: UInt8.ofNat data.length :: data)

/-- `iax_ie_append_int`. -/
def iaxIeAppendInt (ied : List UInt8) (ie : UInt8) (value : ℕ) : Option (ℤ × List UInt8) :=
  iaxIeAppendRaw ied ie (bytesOf 4 value)

/-- `iax_ie_append_short`. -/
def iaxIeAppendShort (ied : List UInt8) (ie : UInt8) (value : ℕ) : Option (ℤ × List UInt8) :=
  iaxIeAppendRaw ied ie (bytesOf 2 value)

/-- `iax_ie_append_str`, of a string without its terminator. -/
def iaxIeAppendStr (ied : List UInt8) (ie : UInt8) (str : List UInt8) : Option (ℤ × List UInt8) :=
  iaxIeAppendRaw ied ie str

/-- `iax_ie_append_byte`. -/
def iaxIeAppendByte (ied : List UInt8) (ie dat : UInt8) : Option (ℤ × List UInt8) :=
  iaxIeAppendRaw ied ie [dat]

/-- `iax_ie_append`. -/
def iaxIeAppend (ied : List UInt8) (ie : UInt8) : Option (ℤ × List UInt8) :=
  iaxIeAppendRaw ied ie []

/-- Appending one after the other. No caller looks at what is returned. -/
def appendAll : List UInt8 → List Element → Option (List UInt8)
  | ied, [] => some ied
  | ied, (ie, data) :: els =>
      match iaxIeAppendRaw ied ie data with
      | none => none
      | some (_, ied) => appendAll ied els

/-! ## Parsing -/

/-- What the parser does with an element. -/
inductive IeKind
  /-- The field points to the value. -/
  | string
  /-- The field points to the value, as to a `struct sockaddr_in`. -/
  | address
  /-- The field points to the value, and another holds its length. -/
  | raw
  /-- The field is a number of so many bytes. -/
  | number (width : ℕ)
  /-- The field is set. -/
  | flag
  | ignored
deriving DecidableEq

/-- The cases of `iax_parse_ies`. -/
def kindOf (ie : UInt8) : IeKind :=
  match ie.toNat with
  -- called number, calling number, ANI, calling name, called context, user name, password
  | 1 | 2 | 3 | 4 | 5 | 6 | 7 => .string
  -- capability, format
  | 8 | 9 => .number 4
  | 10 => .string
  -- version, ADSI
  | 11 | 12 => .number 2
  | 13 => .string
  | 14 => .number 2
  -- challenge, MD5 result, RSA result
  | 15 | 16 | 17 => .string
  | 18 => .address
  -- refresh, dialplan status, call number
  | 19 | 20 | 21 => .number 2
  | 22 => .string
  | 23 => .number 1
  | 24 => .number 2
  -- auto answer, music on hold
  | 25 | 26 => .flag
  | 27 => .number 4
  | 28 => .string
  | 31 => .number 4
  -- device type, service identifier
  | 32 | 33 => .string
  | 34 => .number 2
  | 35 => .number 4
  | 36 => .raw
  | 37 => .number 4
  -- calling presentation, type of number
  | 38 | 39 => .number 1
  -- transit network, sampling rate
  | 40 | 41 => .number 2
  | 42 => .number 1
  | 45 => .string
  -- jitter, loss, packets
  | 46 | 47 | 48 => .number 4
  | 49 => .number 2
  -- dropped, out of order
  | 50 | 51 => .number 4
  | _ => .ignored

/-- `struct iax_ies`, its fields by the number of their element: `text` is a pointer into the bytes
received, `value` a number. -/
structure Ies where
  text : UInt8 → Option ℕ
  value : UInt8 → ℤ
  fwdatalen : ℕ
  provverpres : ℕ

/-- `IAX_IE_CALLED_NUMBER`. -/
def ieCalledNumber : UInt8 := 1

/-- `IAX_IE_CALLING_NUMBER`. -/
def ieCallingNumber : UInt8 := 2

/-- `IAX_IE_CALLING_NAME`. -/
def ieCallingName : UInt8 := 4

/-- `IAX_IE_CALLED_CONTEXT`. -/
def ieCalledContext : UInt8 := 5

/-- `IAX_IE_USERNAME`. -/
def ieUsername : UInt8 := 6

/-- `IAX_IE_CAPABILITY`. -/
def ieCapability : UInt8 := 8

/-- `IAX_IE_FORMAT`. -/
def ieFormat : UInt8 := 9

/-- `IAX_IE_LANGUAGE`. -/
def ieLanguage : UInt8 := 10

/-- `IAX_IE_VERSION`. -/
def ieVersion : UInt8 := 11

/-- `IAX_IE_DNID`. -/
def ieDnid : UInt8 := 13

/-- `IAX_IE_APPARENT_ADDR`. -/
def ieApparentAddr : UInt8 := 18

/-- `IAX_IE_PROVVER`. -/
def ieProvver : UInt8 := 37

/-- `IAX_IE_CODEC_PREFS`. -/
def ieCodecPrefs : UInt8 := 45

/-- The fields before the first element: `msgcount`, `firmwarever` and the three `calling_` numbers
are -1, and the sampling rate is that for 8 kHz. -/
def Ies.zero : Ies where
  text := fun _ => none
  value := fun ie => if ie ∈ [24, 34, 38, 39, 40] then -1 else if ie = 41 then 1 else 0
  fwdatalen := 0
  provverpres := 0

/-- The field for an element at `data` gets its value. -/
def Ies.store (ies : Ies) (data : ℕ) (ie : UInt8) (value : List UInt8) : Ies :=
  match kindOf ie with
  | .string | .address => { ies with text := Function.update ies.text ie (some (data + 2)) }
  | .raw =>
      { ies with text := Function.update ies.text ie (some (data + 2)), fwdatalen := value.length }
  | .number width =>
      if value.length ≠ width then ies
      else
        { ies with
          value := Function.update ies.value ie (number value)
          provverpres := if ie = ieProvver then 1 else ies.provverpres }
  | .flag => { ies with value := Function.update ies.value ie 1 }
  | .ignored => ies

/-- Some bytes of the memory, `none` outside of it. -/
def readBytes (mem : List UInt8) (p n : ℕ) : Option (List UInt8) :=
  if p + n ≤ mem.length then some ((mem.drop p).take n) else none

/-- The return value of the parser, what it has read, and the memory it leaves. -/
structure Parsed where
  ret : ℤ
  ies : Ies
  mem : List UInt8

/-- The loop of `iax_parse_ies` and what follows it, `none` outside of the memory. A value is read
as a whole here, where the code reads only numbers. -/
def parseLoop : ℕ → List UInt8 → ℕ → ℕ → Ies → Option Parsed
  | 0, mem, data, datalen, ies =>
      (store mem data 0).map fun mem => ⟨if datalen ≠ 0 then -1 else 0, ies, mem⟩
  | fuel + 1, mem, data, datalen, ies =>
      if datalen < 2 then
        (store mem data 0).map fun mem => ⟨if datalen ≠ 0 then -1 else 0, ies, mem⟩
      else
        match mem[data]?, mem[data + 1]? with
        | some ie, some len =>
            if len.toNat > datalen - 2 then some ⟨-1, ies, mem⟩
            else
              match readBytes mem (data + 2) len.toNat, store mem data 0 with
              | some value, some mem =>
                  parseLoop fuel mem (data + (len.toNat + 2)) (datalen - (len.toNat + 2))
                    (ies.store data ie value)
              | _, _ => none
        | _, _ => none

/-- `iax_parse_ies`. -/
def iaxParseIes (mem : List UInt8) (datalen : ℕ) : Option Parsed :=
  parseLoop datalen mem 0 datalen Ies.zero

/-! ## What is appended is read -/

section Append

variable {ied : List UInt8} {els : List Element}

/-- A text that fits into the buffer is built up without a complaint. -/
theorem appendAll_of_le (h : ied.length + (encode els).length ≤ iedSize) :
    appendAll ied els = some (ied ++ encode els) := by
  induction els generalizing ied with
  | nil => simp [appendAll]
  | cons e els ih =>
      obtain ⟨ie, data⟩ := e
      have hlen := length_encode_cons ie data els
      rw [hlen] at h
      have hroom : ¬ (data.length : ℤ) > iedSize - ied.length := by omega
      have hfit : ¬ ied.length + 2 + data.length > iedSize := by omega
      rw [appendAll, iaxIeAppendRaw, if_neg hroom, if_neg hfit]
      dsimp only
      rw [ih (by simp only [List.length_append, List.length_cons]; omega)]
      simp

/-- What stands in the buffer is the text of some of the elements, and the buffer holds it. -/
theorem exists_kept (h : appendAll ied els = some bytes) :
    ∃ kept : List Element, kept.Sublist els ∧ bytes = ied ++ encode kept ∧
      (ied.length ≤ iedSize → bytes.length ≤ iedSize) := by
  induction els generalizing ied with
  | nil =>
      obtain rfl := Option.some.inj h
      exact ⟨[], List.Sublist.slnil, by simp, fun h => h⟩
  | cons e els ih =>
      obtain ⟨ie, data⟩ := e
      rw [appendAll, iaxIeAppendRaw] at h
      split_ifs at h with hroom hfit
      · -- no room: the element is left out
        obtain ⟨kept, hsub, hbytes, hle⟩ := ih h
        exact ⟨kept, hsub.cons _, hbytes, hle⟩
      · obtain ⟨kept, hsub, hbytes, hle⟩ := ih h
        refine ⟨(ie, data) :: kept, hsub.cons_cons _, by simp [hbytes], fun _ => hle ?_⟩
        simp only [List.length_append, List.length_cons]
        omega

/-- **Elements appended are the elements read** if and only if each value has at most 255 bytes and
all of them fit into the buffer. -/
theorem append_decode_iff (els : List Element) :
    (appendAll [] els).bind decode = some els ↔
      Short els ∧ (encode els).length ≤ iedSize := by
  constructor
  · intro h
    obtain ⟨bytes, hbytes, hdecode⟩ := Option.bind_eq_some_iff.mp h
    obtain ⟨hshort, htext⟩ := encode_of_decode hdecode
    obtain ⟨kept, -, hkept, hle⟩ := exists_kept hbytes
    exact ⟨hshort, htext ▸ hle (Nat.zero_le _)⟩
  · rintro ⟨hshort, hle⟩
    have hall : appendAll [] els = some ([] ++ encode els) :=
      appendAll_of_le (by simpa using hle)
    rw [hall, Option.bind_some, List.nil_append]
    exact decode_encode hshort

end Append

/-! ## What the parser leaves behind -/

section Parse

variable {pre bytes junk : List UInt8} {x : UInt8} {els : List Element} {ies : Ies}

/-- The text of some elements with their types overwritten. -/
def laid (els : List Element) : List UInt8 :=
  els.flatMap fun e => 0 :: UInt8.ofNat e.2.length :: e.2

/-- The fields after some elements, the first of them at `data`. -/
def Ies.storeAll (data : ℕ) (ies : Ies) : List Element → Ies
  | [] => ies
  | (ie, value) :: els => (ies.store data ie value).storeAll (data + (value.length + 2)) els

@[simp] theorem laid_nil : laid [] = [] := rfl

@[simp] theorem laid_cons (t : UInt8) (v : List UInt8) (els : List Element) :
    laid ((t, v) :: els) = 0 :: UInt8.ofNat v.length :: (v ++ laid els) := rfl

@[simp] theorem laid_append (els more : List Element) :
    laid (els ++ more) = laid els ++ laid more := List.flatMap_append

/-- Overwriting the types leaves the length. -/
theorem length_laid (els : List Element) : (laid els).length = (encode els).length := by
  induction els with
  | nil => rfl
  | cons e els ih =>
      obtain ⟨t, v⟩ := e
      simp [ih]

/-- Behind the loop the byte after the last element is 0, and cut-off bytes are an error. -/
theorem parseLoop_end (fuel : ℕ) (h : bytes.length < 2) (hfuel : bytes.length ≤ fuel) (ies : Ies) :
    parseLoop fuel (pre ++ (bytes ++ x :: junk)) pre.length bytes.length ies =
      some ⟨if bytes.length ≠ 0 then -1 else 0, ies,
        (pre ++ (bytes ++ x :: junk)).set pre.length 0⟩ := by
  have hstore : store (pre ++ (bytes ++ x :: junk)) pre.length (0 : UInt8) =
      some ((pre ++ (bytes ++ x :: junk)).set pre.length 0) := by
    have hin : (0 : ℤ) ≤ (pre.length : ℤ) ∧
        (pre.length : ℤ) < (pre ++ (bytes ++ x :: junk)).length := by
      simp only [List.length_append, List.length_cons]
      omega
    rw [store, if_pos hin, Int.toNat_natCast]
  cases fuel with
  | zero => rw [parseLoop, hstore, Option.map_some]
  | succ fuel => rw [parseLoop, if_pos h, hstore, Option.map_some]

/-- One turn of the loop, at the front of an element. -/
theorem parseLoop_element (pre rest junk : List UInt8) (t n x : UInt8) (fuel : ℕ) (ies : Ies) :
    parseLoop (fuel + 1) (pre ++ (t :: n :: rest ++ x :: junk)) pre.length (t :: n :: rest).length
        ies =
      if rest.length < n.toNat then
        some ⟨-1, ies, pre ++ (t :: n :: rest ++ x :: junk)⟩
      else
        parseLoop fuel ((pre ++ 0 :: n :: rest.take n.toNat) ++ (rest.drop n.toNat ++ x :: junk))
          (pre ++ 0 :: n :: rest.take n.toNat).length (rest.drop n.toNat).length
          (ies.store pre.length t (rest.take n.toNat)) := by
  have htwo : ¬ (t :: n :: rest).length < 2 := by simp
  have hie : (pre ++ (t :: n :: rest ++ x :: junk))[pre.length]? = some t := by simp
  have hlen : (pre ++ (t :: n :: rest ++ x :: junk))[pre.length + 1]? = some n := by simp
  rw [parseLoop, if_neg htwo, hie, hlen]
  dsimp only
  by_cases hcut : rest.length < n.toNat
  · rw [if_pos hcut, if_pos (by simpa using hcut)]
  rw [if_neg hcut, if_neg (by simpa using hcut)]
  -- the value lies within the bytes, and the type is overwritten in place
  have hvalue : readBytes (pre ++ (t :: n :: rest ++ x :: junk)) (pre.length + 2) n.toNat =
      some (rest.take n.toNat) := by
    have hin : pre.length + 2 + n.toNat ≤ (pre ++ (t :: n :: rest ++ x :: junk)).length := by
      simp only [List.length_append, List.length_cons]
      omega
    have hdrop : (pre ++ (t :: n :: rest ++ x :: junk)).drop (pre.length + 2) =
        rest ++ x :: junk := by
      rw [← List.drop_drop, List.drop_left]
      rfl
    rw [readBytes, if_pos hin, hdrop, List.take_append_of_le_length (not_lt.mp hcut)]
  have hstore := store_append pre (n :: rest ++ x :: junk) t 0
  rw [hvalue, List.cons_append, hstore]
  dsimp only
  have htake : (rest.take n.toNat).length = n.toNat := by
    rw [List.length_take]
    omega
  have hmem : pre ++ 0 :: (n :: rest ++ x :: junk) =
      (pre ++ 0 :: n :: rest.take n.toNat) ++ (rest.drop n.toNat ++ x :: junk) := by
    simp only [List.append_assoc, List.cons_append]
    rw [← List.append_assoc (rest.take n.toNat), List.take_append_drop]
  have hpos : pre.length + (n.toNat + 2) = (pre ++ 0 :: n :: rest.take n.toNat).length := by
    simp only [List.length_append, List.length_cons, htake]
  have hleft : (t :: n :: rest).length - (n.toNat + 2) = (rest.drop n.toNat).length := by
    simp only [List.length_cons, List.length_drop]
    omega
  rw [hmem, hpos, hleft]

/-- **The parser reads what is there**: it stays within the bytes and the spare one behind them,
fails if an element is cut off, and else stores every element and leaves the types overwritten. -/
theorem parseLoop_decode (pre bytes : List UInt8) (x : UInt8) (junk : List UInt8) (fuel : ℕ)
    (hfuel : bytes.length ≤ fuel) (ies : Ies) :
    ∃ r, parseLoop fuel (pre ++ (bytes ++ x :: junk)) pre.length bytes.length ies = some r ∧
      (decode bytes = none → r.ret = -1) ∧
      ∀ els, decode bytes = some els →
        r = ⟨0, ies.storeAll pre.length els, pre ++ (laid els ++ 0 :: junk)⟩ := by
  fun_induction decode bytes generalizing pre fuel ies with
  | case1 =>
      refine ⟨_, parseLoop_end fuel (by simp) hfuel ies, by simp, fun els hels => ?_⟩
      obtain rfl := Option.some.inj hels
      simp [Ies.storeAll]
  | case2 b =>
      exact ⟨_, parseLoop_end fuel (by simp) hfuel ies, by simp, fun els hels => by simp at hels⟩
  | case3 t n rest hlen =>
      obtain ⟨fuel, rfl⟩ : ∃ f, fuel = f + 1 := ⟨fuel - 1, by simp at hfuel; omega⟩
      rw [parseLoop_element, if_pos hlen]
      exact ⟨_, rfl, fun _ => rfl, fun els hels => absurd hels (by simp)⟩
  | case4 t n rest hlen ih =>
      obtain ⟨fuel, rfl⟩ : ∃ f, fuel = f + 1 := ⟨fuel - 1, by simp at hfuel; omega⟩
      rw [parseLoop_element, if_neg hlen]
      have hdrop : (rest.drop n.toNat).length ≤ fuel := by
        simp only [List.length_cons, List.length_drop] at hfuel ⊢
        omega
      obtain ⟨r, hr, hnone, hsome⟩ := ih (pre ++ 0 :: n :: rest.take n.toNat) fuel hdrop
        (ies.store pre.length t (rest.take n.toNat))
      refine ⟨r, hr, fun hdec => hnone (by simpa using hdec), fun els hels => ?_⟩
      obtain ⟨els', hels', rfl⟩ := Option.map_eq_some_iff.mp hels
      have htake : (rest.take n.toNat).length = n.toNat := by
        rw [List.length_take]
        omega
      rw [hsome els' hels']
      simp [Ies.storeAll, htake]

end Parse

/-! ## What the fields hold -/

section Fields

variable {els : List Element} {ies : Ies} {t ie : UInt8} {value : List UInt8}

/-- The kinds whose field is a pointer. -/
def IeKind.Points (k : IeKind) : Prop := k = .string ∨ k = .address ∨ k = .raw

theorem text_store (ht : (kindOf t).Points) (ies : Ies) (data : ℕ) (ie : UInt8)
    (value : List UInt8) :
    (ies.store data ie value).text t = if ie = t then some (data + 2) else ies.text t := by
  unfold Ies.store
  by_cases hie : ie = t
  · subst hie
    rcases ht with h | h | h <;> simp [h]
  · rw [if_neg hie]
    split <;> simp [Function.update_of_ne (Ne.symm hie)]
    split_ifs <;> rfl

theorem value_store {width : ℕ} (ht : kindOf t = .number width) (ies : Ies) (data : ℕ) (ie : UInt8)
    (value : List UInt8) :
    (ies.store data ie value).value t =
      if ie = t ∧ value.length = width then (number value : ℤ) else ies.value t := by
  unfold Ies.store
  by_cases hie : ie = t
  · subst hie
    by_cases hw : value.length = width <;> simp [ht, hw]
  · have hno : ¬ (ie = t ∧ value.length = width) := fun h => hie h.1
    rw [if_neg hno]
    split <;> simp [Function.update_of_ne (Ne.symm hie)]
    split_ifs <;> simp [Function.update_of_ne (Ne.symm hie)]

theorem flag_store (ht : kindOf t = .flag) (ies : Ies) (data : ℕ) (ie : UInt8)
    (value : List UInt8) :
    (ies.store data ie value).value t = if ie = t then 1 else ies.value t := by
  unfold Ies.store
  by_cases hie : ie = t
  · subst hie
    simp [ht]
  · rw [if_neg hie]
    split <;> simp [Function.update_of_ne (Ne.symm hie)]
    split_ifs <;> simp [Function.update_of_ne (Ne.symm hie)]

/-- One element more at the end. -/
theorem storeAll_concat (data : ℕ) (ies : Ies) (els : List Element) (e : Element) :
    ies.storeAll data (els ++ [e]) =
      (ies.storeAll data els).store (data + (laid els).length) e.1 e.2 := by
  induction els generalizing data ies with
  | nil => simp [Ies.storeAll]
  | cons f els ih =>
      obtain ⟨ie, value⟩ := f
      rw [List.cons_append, Ies.storeAll, Ies.storeAll, ih]
      congr 1
      simp only [laid_cons, List.length_cons, List.length_append]
      omega

/-- Only elements of its type move a pointer. -/
theorem text_storeAll_append (ht : (kindOf t).Points) (ies : Ies) (els : List Element)
    {back : List Element} (hback : ∀ e ∈ back, e.1 ≠ t) :
    (ies.storeAll 0 (els ++ back)).text t = (ies.storeAll 0 els).text t := by
  induction back using List.reverseRecOn with
  | nil => rw [List.append_nil]
  | append_singleton back e ih =>
      have he : e.1 ≠ t := hback e (by simp)
      rw [← List.append_assoc, storeAll_concat, text_store ht, if_neg he]
      exact ih fun f hf => hback f (by simp [hf])

/-- **A pointer** leads to the value of the last element of its type. -/
theorem text_storeAll (ht : (kindOf t).Points) (ies : Ies) (front back : List Element)
    (value : List UInt8) (hback : ∀ e ∈ back, e.1 ≠ t) :
    (ies.storeAll 0 (front ++ (t, value) :: back)).text t = some ((laid front).length + 2) := by
  rw [List.append_cons, text_storeAll_append ht ies _ hback, storeAll_concat, text_store ht,
    if_pos rfl, Nat.zero_add]

/-- A number is that of the last element of its type with the right length. -/
theorem value_storeAll {width : ℕ} (ht : kindOf t = .number width) (ies : Ies)
    (els : List Element) :
    (ies.storeAll 0 els).value t =
      ((lastOf t (els.filter fun e => e.2.length = width)).map fun v => (number v : ℤ)).getD
        (ies.value t) := by
  induction els using List.reverseRecOn with
  | nil => rfl
  | append_singleton els e ih =>
      rw [storeAll_concat, value_store ht, List.filter_append]
      by_cases hw : e.2.length = width
      · have hlast : [e].filter (fun e => e.2.length = width) = [e] := by simp [hw]
        rw [hlast, lastOf_concat, ih]
        by_cases he : e.1 = t <;> simp [he, hw]
      · have hlast : [e].filter (fun e => e.2.length = width) = [] := by simp [hw]
        have hno : ¬ (e.1 = t ∧ e.2.length = width) := fun h => hw h.2
        rw [hlast, List.append_nil, if_neg hno, ih]

/-- A flag is set by any element of its type. -/
theorem flag_storeAll (ht : kindOf t = .flag) (ies : Ies) (els : List Element) :
    (ies.storeAll 0 els).value t = if ∃ e ∈ els, e.1 = t then 1 else ies.value t := by
  induction els using List.reverseRecOn with
  | nil => simp [Ies.storeAll]
  | append_singleton els e ih =>
      rw [storeAll_concat, flag_store ht, ih]
      by_cases he : e.1 = t
      · rw [if_pos he, if_pos ⟨e, by simp, he⟩]
      · rw [if_neg he]
        refine if_congr ?_ rfl rfl
        simp [he]

/-- Behind the text of some elements, and what follows it, stands a 0. -/
theorem laid_ends (els : List Element) (junk : List UInt8) :
    ∃ rest, laid els ++ 0 :: junk = 0 :: rest := by
  cases els with
  | nil => exact ⟨junk, rfl⟩
  | cons e els => exact ⟨_, rfl⟩

/-- **A string ends with its value**, or at a 0 within it. -/
theorem readString_value (front back : List Element) (t : UInt8) (value junk : List UInt8) :
    readString 0 (laid (front ++ (t, value) :: back) ++ 0 :: junk) ((laid front).length + 2) =
      some (value.takeWhile (· ≠ 0)) := by
  obtain ⟨rest, hrest⟩ := laid_ends back junk
  have hmem : laid (front ++ (t, value) :: back) ++ 0 :: junk =
      (laid front ++ [0, UInt8.ofNat value.length]) ++ (value ++ 0 :: rest) := by
    rw [laid_append, laid_cons, ← hrest]
    simp
  have hlen : (laid front).length + 2 = (laid front ++ [0, UInt8.ofNat value.length]).length := by
    simp
  have hnot : (0 : UInt8) ∉ value.takeWhile (· ≠ 0) := fun h => by
    simpa using List.mem_takeWhile_imp h
  -- up to its first 0, or else up to the one behind it
  obtain ⟨more, hmore⟩ : ∃ more, value ++ 0 :: rest = value.takeWhile (· ≠ 0) ++ 0 :: more := by
    have hsplit := List.takeWhile_append_dropWhile (p := (· ≠ (0 : UInt8))) (l := value)
    cases hdrop : value.dropWhile (· ≠ 0) with
    | nil =>
        rw [hdrop, List.append_nil] at hsplit
        exact ⟨rest, by rw [hsplit]⟩
    | cons b more =>
        have hb : b = 0 := by
          have hfirst := List.head?_dropWhile_not (fun b : UInt8 => decide (b ≠ 0)) value
          rw [hdrop] at hfirst
          simpa using hfirst
        refine ⟨more ++ 0 :: rest, ?_⟩
        conv_lhs => rw [← hsplit, hdrop, hb]
        simp
  rw [hmem, hlen, hmore, readString_string _ _ hnot]

/-- **A string** is read as the value of the last element of its type, up to its first 0. -/
theorem readString_storeAll (ht : kindOf t = .string) (els : List Element) (junk : List UInt8) :
    ((Ies.zero.storeAll 0 els).text t).map (readString 0 (laid els ++ 0 :: junk)) =
      (lastOf t els).map fun v => some (v.takeWhile (· ≠ 0)) := by
  rcases exists_last t els with ⟨hlast, hnone⟩ | ⟨front, value, back, rfl, hlast, hback⟩
  · have htext := text_storeAll_append (Or.inl ht) Ies.zero [] hnone
    rw [List.nil_append] at htext
    rw [htext, hlast]
    rfl
  · rw [text_storeAll (Or.inl ht) Ies.zero front back value hback, hlast, Option.map_some,
      Option.map_some, readString_value]

/-- What the parser makes of a datagram. -/
theorem iaxParseIes_decode (bytes : List UInt8) (x : UInt8) (junk : List UInt8) :
    ∃ r, iaxParseIes (bytes ++ x :: junk) bytes.length = some r ∧
      (decode bytes = none → r.ret = -1) ∧
      ∀ els, decode bytes = some els →
        r = ⟨0, Ies.zero.storeAll 0 els, laid els ++ 0 :: junk⟩ :=
  parseLoop_decode [] bytes x junk bytes.length le_rfl Ies.zero

/-- **What a datagram means to the parser.** Whatever the bytes, it stays within them and the spare
byte behind them, and fails exactly if they end within an element. Else a string is the value of the
last element of its type up to its first 0, a number that of the last element of its type with the
right length, or the default, and a flag is set if there is an element of its type. -/
theorem parse_ies_meaning (bytes : List UInt8) (x : UInt8) (junk : List UInt8) :
    ∃ r, iaxParseIes (bytes ++ x :: junk) bytes.length = some r ∧
      (decode bytes = none → r.ret = -1) ∧
      ∀ els, decode bytes = some els → r.ret = 0 ∧
        (∀ t, kindOf t = .string → (r.ies.text t).map (readString 0 r.mem) =
          (lastOf t els).map fun v => some (v.takeWhile (· ≠ 0))) ∧
        (∀ t width, kindOf t = .number width → r.ies.value t =
          ((lastOf t (els.filter fun e => e.2.length = width)).map fun v => (number v : ℤ)).getD
            (Ies.zero.value t)) ∧
        ∀ t, kindOf t = .flag → r.ies.value t = if ∃ e ∈ els, e.1 = t then 1 else 0 := by
  obtain ⟨r, hr, hnone, hsome⟩ := iaxParseIes_decode bytes x junk
  refine ⟨r, hr, hnone, fun els hels => ?_⟩
  rw [hsome els hels]
  refine ⟨rfl, fun t ht => readString_storeAll ht els junk,
    fun t width ht => value_storeAll ht Ies.zero els, fun t ht => ?_⟩
  rw [flag_storeAll ht]
  refine if_congr Iff.rfl rfl ?_
  -- neither flag has a default
  unfold Ies.zero
  dsimp only
  split_ifs with hminus hrate
  · rcases (by simpa using hminus : t = 24 ∨ t = 34 ∨ t = 38 ∨ t = 39 ∨ t = 40) with
      rfl | rfl | rfl | rfl | rfl <;> exact absurd ht (by decide)
  · rw [hrate] at ht
    exact absurd ht (by decide)
  · rfl

/-- **The length of an address is not checked.** The address read through the pointer is that of the
element if its value has 16 bytes at least, and what is read lies outside of the datagram and its
spare byte if fewer than 15 bytes are left from the value on. -/
theorem apparent_addr_iff (front back : List Element) (value : List UInt8) (x : UInt8)
    (hback : ∀ e ∈ back, e.1 ≠ ieApparentAddr)
    (hshort : Short (front ++ (ieApparentAddr, value) :: back)) :
    ∃ r p, iaxParseIes (encode (front ++ (ieApparentAddr, value) :: back) ++ [x])
        (encode (front ++ (ieApparentAddr, value) :: back)).length = some r ∧
      r.ret = 0 ∧ r.ies.text ieApparentAddr = some p ∧
      (readBytes r.mem p 16 = some (value.take 16) ↔ 16 ≤ value.length) ∧
      (readBytes r.mem p 16 = none ↔ value.length + (encode back).length < 15) := by
  obtain ⟨r, hr, -, hsome⟩ :=
    iaxParseIes_decode (encode (front ++ (ieApparentAddr, value) :: back)) x []
  obtain rfl := hsome _ (decode_encode hshort)
  have hpoints : (kindOf ieApparentAddr).Points := Or.inr (Or.inl (by decide))
  refine ⟨_, _, hr, rfl, text_storeAll hpoints Ies.zero front back value hback, ?_⟩
  dsimp only
  -- the value, what follows it, and the 0 behind all
  have hdrop : (laid (front ++ (ieApparentAddr, value) :: back) ++ [0]).drop
      ((laid front).length + 2) = value ++ (laid back ++ [0]) := by
    rw [laid_append, laid_cons, List.append_assoc, ← List.drop_drop, List.drop_left]
    simp
  have hlen : (laid (front ++ (ieApparentAddr, value) :: back) ++ [0]).length =
      (laid front).length + 2 + value.length + (encode back).length + 1 := by
    rw [← length_laid back, laid_append, laid_cons]
    simp only [List.length_append, List.length_cons, List.length_nil]
    omega
  unfold readBytes
  rw [hdrop, hlen]
  constructor
  · constructor
    · intro h
      split_ifs at h with hin
      have hlength := congrArg List.length (Option.some.inj h)
      rw [← length_laid back] at hin
      simp only [List.length_take, List.length_append, List.length_cons, List.length_nil] at hlength
      omega
    · intro h
      rw [if_pos (by omega), List.take_append_of_le_length h]
  · split_ifs with hin
    · exact iff_of_false (by simp) (by omega)
    · exact iff_of_true rfl (by omega)

theorem apparent_addr_iff_four :
    ∃ r p, iaxParseIes ([18, 4, 127, 0, 0, 1] ++ [0]) 6 = some r ∧ r.ret = 0 ∧
      r.ies.text ieApparentAddr = some p ∧ readBytes r.mem p 16 = none := by
  obtain ⟨r, p, hr, hret, htext, -, hnone⟩ :=
    apparent_addr_iff [] [] [127, 0, 0, 1] 0 (by simp) (by decide)
  exact ⟨r, p, hr, hret, htext, hnone.mpr (by decide)⟩

end Fields

end Fgcom.Iax
