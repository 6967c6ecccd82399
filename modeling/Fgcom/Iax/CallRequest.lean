import Fgcom.DialString
import Fgcom.Iax.Elements

/-! # The request for a call

What `iax_call` tells the server of a call: the parts of the dial string and the caller as
information elements.

* **`newElements`**, **`iaxCallMessage`** — the elements of the command `NEW`, in the order in which
  `iax_call` appends them, and their text; **`appendNew`** — the calls that append them.
* **`call_request_read`** — a server with the same parser reads back every one of them, as long as
  each has at most 255 bytes and they fit into the buffer.
* **`dialled_number_arrives`** — the number `do_iaxc_call` dials is the number called at the
  server. -/

namespace Fgcom.Iax

open CBuffer Tlv

/-! ## The elements -/

/-- The bytes of a text. -/
def bytesOfText (s : List Char) : List UInt8 := s.map fun c => UInt8.ofNat c.toNat

/-- An element that is left out when its pointer is null. -/
def element (ie : UInt8) (value : Option (List UInt8)) : List Element :=
  match value with
  | none => []
  | some value => [(ie, value)]

/-- `if (p && strlen(p))`. -/
def nonempty (value : Option (List UInt8)) : Option (List UInt8) := value.filter fun v => v ≠ []

/-- `IAX_PROTO_VERSION`. -/
def iaxProtoVersion : ℕ := 2

/-- Who calls, and what `iax_call` is told besides the dial string. -/
structure Caller where
  cidnum : Option (List UInt8)
  cidname : Option (List UInt8)
  codecOrder : List UInt8
  lang : Option (List UInt8)
  formats : ℕ
  capabilities : ℕ

/-- The elements of `NEW`. `dnid` is the same text as `exten`. -/
def newElements (caller : Caller) (parts : CallParts) : List Element :=
  element ieVersion (some (bytesOf 2 iaxProtoVersion)) ++
  element ieCallingNumber caller.cidnum ++
  element ieCallingName caller.cidname ++
  element ieCodecPrefs (nonempty (some caller.codecOrder)) ++
  element ieFormat (some (bytesOf 4 caller.formats)) ++
  element ieCapability (some (bytesOf 4 caller.capabilities)) ++
  element ieLanguage caller.lang ++
  element ieUsername (parts.username.map bytesOfText) ++
  element ieCalledNumber (nonempty (parts.exten.map bytesOfText)) ++
  element ieDnid (nonempty (parts.exten.map bytesOfText)) ++
  element ieCalledContext (nonempty (parts.context.map bytesOfText))

/-- `iax_call`, up to `send_command`: the text of the elements. `none` when it reads through a null
pointer or writes behind its buffer. -/
def iaxCallMessage (caller : Caller) (ich : List Char) : Option (List UInt8) :=
  (iaxCall ich).bind fun parts => appendAll [] (newElements caller parts)

/-! ## One element after the other -/

/-- `if (p) iax_ie_append_str(&ied, ie, p);`. -/
def appendIf (ie : UInt8) (value : Option (List UInt8)) (ied : List UInt8) : Option (List UInt8) :=
  match value with
  | none => some ied
  | some value => (iaxIeAppendStr ied ie value).map Prod.snd

/-- The calls of `iax_call` that append an element, in their order. -/
def appendNew (caller : Caller) (parts : CallParts) : Option (List UInt8) := do
  let (_, ied) ← iaxIeAppendShort [] ieVersion iaxProtoVersion
  let ied ← appendIf ieCallingNumber caller.cidnum ied
  let ied ← appendIf ieCallingName caller.cidname ied
  let ied ← appendIf ieCodecPrefs (nonempty (some caller.codecOrder)) ied
  let (_, ied) ← iaxIeAppendInt ied ieFormat caller.formats
  let (_, ied) ← iaxIeAppendInt ied ieCapability caller.capabilities
  let ied ← appendIf ieLanguage caller.lang ied
  let ied ← appendIf ieUsername (parts.username.map bytesOfText) ied
  let ied ← appendIf ieCalledNumber (nonempty (parts.exten.map bytesOfText)) ied
  let ied ← appendIf ieDnid (nonempty (parts.exten.map bytesOfText)) ied
  appendIf ieCalledContext (nonempty (parts.context.map bytesOfText)) ied

/-- Appending one list and then another. -/
theorem appendAll_append (ied : List UInt8) (els more : List Element) :
    appendAll ied (els ++ more) = (appendAll ied els).bind fun ied => appendAll ied more := by
  induction els generalizing ied with
  | nil => rfl
  | cons e els ih =>
      obtain ⟨ie, data⟩ := e
      rw [List.cons_append, appendAll, appendAll]
      cases iaxIeAppendRaw ied ie data with
      | none => rfl
      | some r => exact ih r.2

/-- An element that may be missing. -/
theorem appendAll_element (ied : List UInt8) (ie : UInt8) (value : Option (List UInt8)) :
    appendAll ied (element ie value) = appendIf ie value ied := by
  cases value with
  | none => rfl
  | some value =>
      rw [element, appendAll, appendIf, iaxIeAppendStr]
      cases iaxIeAppendRaw ied ie value with
      | none => rfl
      | some r => rfl

/-- An element there is. -/
theorem appendIf_some (ied : List UInt8) (ie : UInt8) (value : List UInt8) :
    appendIf ie (some value) ied = (iaxIeAppendRaw ied ie value).map Prod.snd := rfl

/-- **The elements of `NEW` are those `iax_call` appends.** -/
theorem appendNew_eq (caller : Caller) (parts : CallParts) :
    appendNew caller parts = appendAll [] (newElements caller parts) := by
  unfold appendNew newElements iaxIeAppendShort iaxIeAppendInt
  simp only [appendAll_append, appendAll_element, Option.bind_eq_bind, Option.bind_assoc,
    appendIf_some, Option.bind_map, Function.comp_def]

/-- The text of the request is what these calls leave in the buffer. -/
theorem iaxCallMessage_eq (caller : Caller) (ich : List Char) :
    iaxCallMessage caller ich = (iaxCall ich).bind (appendNew caller) := by
  unfold iaxCallMessage
  simp only [appendNew_eq]

/-! ## What the server reads -/

/-- The string a field points to. -/
def Parsed.string (r : Parsed) (ie : UInt8) : Option (List UInt8) :=
  (r.ies.text ie).bind (readString 0 r.mem)

section Read

variable {caller : Caller} {parts : CallParts}

/-- The value of the only element there can be of a type. -/
theorem lastOf_element (t ie : UInt8) (value : Option (List UInt8)) :
    lastOf t (element ie value) = if ie = t then value else none := by
  cases value with
  | none => simp [element]
  | some value => simp [element]

/-- The bytes of a number. -/
theorem number_bytesOf (w n : ℕ) : number (bytesOf w n) = n % 256 ^ w := by
  induction w generalizing n with
  | zero => simp [bytesOf, number, Nat.mod_one]
  | succ w ih =>
      have hlast : number (bytesOf (w + 1) n) = 256 * number (bytesOf w (n / 256)) + n % 256 := by
        simp [bytesOf, number, List.foldl_append]
      rw [hlast, ih, pow_succ', Nat.mod_mul]
      omega

@[simp] theorem length_bytesOf (w n : ℕ) : (bytesOf w n).length = w := by
  induction w generalizing n with
  | zero => rfl
  | succ w ih => simp [bytesOf, ih]

/-- A text without a 0 is read as it stands. -/
theorem takeWhile_nonzero {v : List UInt8} (h : (0 : UInt8) ∉ v) : v.takeWhile (· ≠ 0) = v :=
  List.takeWhile_eq_self_iff.mpr fun b hb => by
    simpa using fun h0 : b = 0 => h (h0 ▸ hb)

/-- Of an element with a property nothing else counts. -/
theorem lastOf_filter_element (t ie : UInt8) (value : Option (List UInt8)) (p : Element → Bool) :
    lastOf t ((element ie value).filter p) =
      if ie = t then value.filter fun v => p (ie, v) else none := by
  cases value with
  | none => simp [element]
  | some value =>
      by_cases hp : p (ie, value)
      · simp [element, hp, Option.filter]
      · simp [element, hp, Option.filter]

/-- A string the server reads is the last value of its type. -/
theorem string_read {r : Parsed} {els : List Element} {t : UInt8}
    (hr : r = ⟨0, Ies.zero.storeAll 0 els, laid els ++ [0]⟩) (ht : kindOf t = .string)
    (hnul : ∀ e ∈ els, kindOf e.1 = .string → (0 : UInt8) ∉ e.2) : r.string t = lastOf t els := by
  have hread := readString_storeAll ht els []
  subst hr
  unfold Parsed.string
  dsimp only
  cases hlast : lastOf t els with
  | none =>
      rw [hlast, Option.map_none, Option.map_eq_none_iff] at hread
      rw [hread, Option.bind_none]
  | some v =>
      obtain ⟨front, back, rfl⟩ := exists_of_lastOf hlast
      have hv : (0 : UInt8) ∉ v := hnul (t, v) (by simp) ht
      rw [hlast, Option.map_some, takeWhile_nonzero hv] at hread
      obtain ⟨p, hp, hstring⟩ := Option.map_eq_some_iff.mp hread
      rw [hp, Option.bind_some, hstring]

/-- **What the server reads of a call** is what was put into the request: every string as it stands,
an empty or a missing one as missing, and the formats as they are. -/
theorem call_request_read (caller : Caller) (ich : List Char) (parts : CallParts)
    (hparts : iaxCall ich = some parts) (hshort : Short (newElements caller parts))
    (hroom : (encode (newElements caller parts)).length ≤ iedSize)
    (hnul : ∀ e ∈ newElements caller parts, kindOf e.1 = .string → (0 : UInt8) ∉ e.2) :
    ∃ bytes r, iaxCallMessage caller ich = some bytes ∧
      iaxParseIes (bytes ++ [0]) bytes.length = some r ∧ r.ret = 0 ∧
      r.string ieCallingNumber = caller.cidnum ∧ r.string ieCallingName = caller.cidname ∧
      r.string ieCodecPrefs = nonempty (some caller.codecOrder) ∧
      r.string ieLanguage = caller.lang ∧
      r.string ieUsername = parts.username.map bytesOfText ∧
      r.string ieCalledNumber = nonempty (parts.exten.map bytesOfText) ∧
      r.string ieDnid = nonempty (parts.exten.map bytesOfText) ∧
      r.string ieCalledContext = nonempty (parts.context.map bytesOfText) ∧
      r.ies.value ieVersion = 2 ∧ r.ies.value ieFormat = caller.formats % 2 ^ 32 ∧
      r.ies.value ieCapability = caller.capabilities % 2 ^ 32 := by
  have hdecode := decode_encode hshort
  obtain ⟨r, hr, -, hsome⟩ := iaxParseIes_decode (encode (newElements caller parts)) 0 []
  have hr' := hsome _ hdecode
  have hstring : ∀ t, kindOf t = .string → r.string t = lastOf t (newElements caller parts) :=
    fun t ht => string_read hr' ht hnul
  have hvalue : ∀ t width, kindOf t = .number width → r.ies.value t =
      ((lastOf t ((newElements caller parts).filter fun e => e.2.length = width)).map
        fun v => (number v : ℤ)).getD (Ies.zero.value t) := fun t width ht => by
    rw [hr']
    exact value_storeAll ht Ies.zero _
  have hmessage : iaxCallMessage caller ich = some (encode (newElements caller parts)) := by
    rw [iaxCallMessage, hparts, Option.bind_some, appendAll_of_le (by simpa using hroom)]
    simp
  refine ⟨_, r, hmessage, hr, by rw [hr'], ?_, ?_, ?_, ?_, ?_, ?_, ?_, ?_, ?_, ?_, ?_⟩
  -- no two elements have the same type
  case refine_9 =>
    rw [hvalue ieVersion 2 rfl]
    simp [newElements, lastOf_append, lastOf_filter_element, ieVersion, ieCallingNumber,
      ieCallingName, ieCodecPrefs, ieFormat, ieCapability, ieLanguage, ieUsername, ieCalledNumber,
      ieDnid, ieCalledContext, Option.filter, number_bytesOf, iaxProtoVersion]
  case refine_10 =>
    rw [hvalue ieFormat 4 rfl]
    simp [newElements, lastOf_append, lastOf_filter_element, ieVersion, ieCallingNumber,
      ieCallingName, ieCodecPrefs, ieFormat, ieCapability, ieLanguage, ieUsername, ieCalledNumber,
      ieDnid, ieCalledContext, Option.filter, number_bytesOf]
  case refine_11 =>
    rw [hvalue ieCapability 4 rfl]
    simp [newElements, lastOf_append, lastOf_filter_element, ieVersion, ieCallingNumber,
      ieCallingName, ieCodecPrefs, ieFormat, ieCapability, ieLanguage, ieUsername, ieCalledNumber,
      ieDnid, ieCalledContext, Option.filter, number_bytesOf]
  all_goals
    rw [hstring _ rfl]
    simp [newElements, lastOf_append, lastOf_element, ieVersion, ieCallingNumber, ieCallingName,
      ieCodecPrefs, ieFormat, ieCapability, ieLanguage, ieUsername, ieCalledNumber, ieDnid,
      ieCalledContext]

end Read

/-! ## The number that was dialled -/

section Dialled

/-- The caller as `main` sets it up: `iaxc_set_callerid` and `iaxc_set_formats`. -/
def fgcomCaller (username : List Char) (codec : ℕ) : Caller where
  cidnum := some (bytesOfText "0125252525122750".toList)
  cidname := some (bytesOfText username)
  codecOrder := []
  lang := none
  formats := codec
  -- u-law, GSM and Speex
  capabilities := 4 + 2 + 512

/-- The context `iax_call` finds is the second token of the second part. -/
theorem context_eq {ich : List Char} {parts : CallParts} (h : iaxCall ich = some parts) :
    parts.context =
      (strtokAll '/' (ich.take 255))[1]?.bind fun part2 => (strtokAll '@' part2)[1]? := by
  unfold iaxCall at h
  dsimp only at h
  split at h
  · exact absurd h (by simp)
  · split at h
    · exact absurd h (by simp)
    · split at h
      · exact absurd h (by simp)
      · rw [← Option.some.inj h]

/-- In a dial string of plain texts the number has no context. -/
theorem context_callDest {u p h : List Char} {number : Number} {parts : CallParts}
    (hu : Plain u) (hp : Plain p) (hh : Plain h)
    (hlen : u.length + p.length + h.length ≤ 236)
    (hparts : iaxCall (callDest u p h number.val) = some parts) : parts.context = none := by
  obtain ⟨hrlen, hrdigits⟩ := rewriteNumber_digits h number
  have hrplain := plain_of_digits hrdigits
  have hrne : rewriteNumber h number.val ≠ [] := by
    intro hnil
    simp [hnil] at hrlen
  have hdest : (callDest u p h number.val).take 255 =
      (u ++ ':' :: p ++ '@' :: h) ++ '/' :: rewriteNumber h number.val := by
    rw [callDest, List.take_take]
    apply List.take_of_length_le
    simp only [List.length_append, List.length_cons, hrlen]
    omega
  have hslash : '/' ∉ u ++ ':' :: p ++ '@' :: h := by simp [hu.1, hp.1, hh.1]
  rw [context_eq hparts, hdest, strtokAll_pair hslash hrplain.1 (by simp) hrne]
  have hone : strtokAll '@' (rewriteNumber h number.val) = [rewriteNumber h number.val] := by
    rw [strtokAll_of_notMem hrplain.2.1, if_neg hrne]
  simp [hone]

/-- No byte of a text is 0 when none of its characters is, and all are bytes. -/
theorem zero_notMem_bytesOfText {s : List Char} (hnul : '\x00' ∉ s)
    (hbytes : ∀ c ∈ s, c.toNat < 256) : (0 : UInt8) ∉ bytesOfText s := by
  intro h0
  obtain ⟨c, hc, hzero⟩ := List.mem_map.mp h0
  have hmod : c.toNat % 256 = 0 := by simpa using congrArg UInt8.toNat hzero
  have hlt := hbytes c hc
  have hc0 : c = '\x00' := Char.toNat_inj.mp (by simp; omega)
  exact hnul (hc0 ▸ hc)

/-- No byte of a number is 0. -/
theorem zero_notMem_of_isDigit {digits : List Char} (hdigits : ∀ c ∈ digits, c.isDigit = true) :
    (0 : UInt8) ∉ bytesOfText digits := by
  refine zero_notMem_bytesOfText (fun h0 => absurd (hdigits _ h0) (by decide)) fun c hc => ?_
  have hdigit := hdigits c hc
  simp only [Char.isDigit, Bool.and_eq_true, decide_eq_true_eq] at hdigit
  have hle : c.toNat ≤ 57 := hdigit.2
  omega

/-- The elements of a request for a call to a number: eight, and nothing is left out. -/
def requestElements (username : List Char) (codec : ℕ) (digits : List Char) : List Element :=
  [(ieVersion, bytesOf 2 iaxProtoVersion),
    (ieCallingNumber, bytesOfText "0125252525122750".toList),
    (ieCallingName, bytesOfText username), (ieFormat, bytesOf 4 codec),
    (ieCapability, bytesOf 4 518), (ieUsername, bytesOfText username),
    (ieCalledNumber, bytesOfText digits), (ieDnid, bytesOfText digits)]

section Request

variable {username digits : List Char} {parts : CallParts}

/-- A number that is not empty is not left out. -/
theorem nonempty_bytesOfText (hne : digits ≠ []) :
    nonempty ((some digits).map bytesOfText) = some (bytesOfText digits) := by
  have hbytes : bytesOfText digits ≠ [] := by simpa [bytesOfText] using hne
  simp [nonempty, Option.filter, hbytes]

theorem newElements_fgcomCaller (codec : ℕ) (huser : parts.username = some username)
    (hexten : parts.exten = some digits) (hcontext : parts.context = none) (hne : digits ≠ []) :
    newElements (fgcomCaller username codec) parts = requestElements username codec digits := by
  rw [newElements, huser, hexten, hcontext, nonempty_bytesOfText hne]
  simp [element, fgcomCaller, nonempty, Option.filter, requestElements]

/-- Each value has at most 255 bytes. -/
theorem short_requestElements (codec : ℕ) (hu : username.length ≤ 236)
    (hdigits : digits.length = 16) : Short (requestElements username codec digits) := by
  have hlengths : (bytesOfText username).length ≤ 236 ∧ (bytesOfText digits).length = 16 := by
    simp [bytesOfText, hu, hdigits]
  unfold requestElements
  simp only [short_cons, length_bytesOf, hlengths.2]
  refine ⟨by decide, by decide, by omega, by decide, by decide, by omega, by decide, by decide, ?_⟩
  simp [Short]

/-- Together they fit into the buffer. -/
theorem length_requestElements (codec : ℕ) (hu : username.length ≤ 236)
    (hdigits : digits.length = 16) :
    (encode (requestElements username codec digits)).length ≤ iedSize := by
  have hlengths : (bytesOfText username).length ≤ 236 ∧ (bytesOfText digits).length = 16 := by
    simp [bytesOfText, hu, hdigits]
  have hcallerid : (bytesOfText "0125252525122750".toList).length = 16 := by decide
  unfold requestElements iedSize
  simp only [length_encode_cons, length_bytesOf, hlengths.2, encode_nil, List.length_nil]
  omega

/-- No string among them has a 0 in it. -/
theorem zero_notMem_requestElements (codec : ℕ) (huser : (0 : UInt8) ∉ bytesOfText username)
    (hdigits : (0 : UInt8) ∉ bytesOfText digits) :
    ∀ e ∈ requestElements username codec digits, kindOf e.1 = .string → (0 : UInt8) ∉ e.2 := by
  intro e he hkind
  simp only [requestElements, List.mem_cons, List.not_mem_nil, or_false] at he
  rcases he with rfl | rfl | rfl | rfl | rfl | rfl | rfl | rfl
  · exact absurd hkind (by decide)
  · decide
  · exact huser
  · exact absurd hkind (by dsimp only; decide)
  · exact absurd hkind (by decide)
  · exact huser
  · exact hdigits
  · exact hdigits

end Request

/-- **The number dialled arrives.** When user, password and host have none of the separators and
together at most 236 characters, a server with the same parser reads the number that was dialled as
the number called, and the user name as it stands. -/
theorem dialled_number_arrives (username password voipserver : OptionText) (number : Number)
    (codec : ℕ)
    (hplain : Plain username.val ∧ Plain password.val ∧ Plain voipserver.val)
    (hlen : username.val.length + password.val.length + voipserver.val.length ≤ 236)
    (hbytes : ∀ c ∈ username.val, c.toNat < 256) :
    ∃ bytes r,
      iaxCallMessage (fgcomCaller username.val codec)
        (callDest username.val password.val voipserver.val number.val) = some bytes ∧
      iaxParseIes (bytes ++ [0]) bytes.length = some r ∧ r.ret = 0 ∧
      r.string ieCalledNumber = some (bytesOfText (rewriteNumber voipserver.val number.val)) ∧
      r.string ieDnid = some (bytesOfText (rewriteNumber voipserver.val number.val)) ∧
      r.string ieUsername = some (bytesOfText username.val) ∧
      r.string ieCallingName = some (bytesOfText username.val) ∧
      r.string ieCalledContext = none ∧
      r.ies.value ieFormat = codec % 2 ^ 32 ∧ r.ies.value ieCapability = 518 := by
  obtain ⟨hu, hp, hh⟩ := hplain
  have hcomes : ComesOut username.val password.val voipserver.val number.val :=
    comesOut_of_plain username.property.1 password.property.1 voipserver.property.1 hu hp hh hlen
  obtain ⟨parts, hparts, huser, -, -, hexten⟩ := hcomes
  have hcontext := context_callDest hu hp hh hlen hparts
  obtain ⟨hrlen, hrdigits⟩ := rewriteNumber_digits voipserver.val number
  generalize rewriteNumber voipserver.val number.val = digits at hexten hrlen hrdigits ⊢
  have hne : digits ≠ [] := List.ne_nil_of_length_eq_add_one hrlen
  have hulen : username.val.length ≤ 236 := by omega
  have hels := newElements_fgcomCaller codec huser hexten hcontext hne
  -- the request is short enough to be read back
  obtain ⟨bytes, r, hmessage, hparse, hret, -, hname, -, -, hreadUser, hcalled, hdnid, hread,
    -, hformat, hcapability⟩ := call_request_read (fgcomCaller username.val codec) _ parts hparts
      (hels ▸ short_requestElements codec hulen hrlen)
      (hels ▸ length_requestElements codec hulen hrlen)
      (hels ▸ zero_notMem_requestElements codec
        (zero_notMem_bytesOfText username.property.2 hbytes) (zero_notMem_of_isDigit hrdigits))
  rw [huser] at hreadUser
  rw [hexten, nonempty_bytesOfText hne] at hcalled hdnid
  rw [hcontext] at hread
  exact ⟨bytes, r, hmessage, hparse, hret, hcalled, hdnid, hreadUser, hname, hread, hformat,
    hcapability⟩

theorem dialled_number_arrives_pilot :
    ∃ bytes r,
      iaxCallMessage (fgcomCaller "pilot".toList 512)
        (callDest "pilot".toList "secret".toList "fgcom.flightgear.org".toList
          "0190909090118500".toList) = some bytes ∧
      iaxParseIes (bytes ++ [0]) bytes.length = some r ∧
      r.string ieCalledNumber = some (bytesOfText (rewriteNumber "fgcom.flightgear.org".toList
        "0190909090118500".toList)) := by
  obtain ⟨bytes, r, hmessage, hparse, -, hcalled, -⟩ := dialled_number_arrives
    ⟨"pilot".toList, by simp⟩ ⟨"secret".toList, by simp⟩
    ⟨"fgcom.flightgear.org".toList, by simp⟩ ⟨"0190909090118500".toList, by simp⟩ 512
    (by simp [Plain]) (by simp) (by simp)
  exact ⟨bytes, r, hmessage, hparse, hcalled⟩

end Dialled

end Fgcom.Iax
