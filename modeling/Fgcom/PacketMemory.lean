import Fgcom.Lib.CBuffer
import Fgcom.PacketMeaning

/-! # The packet buffer

`main` receives a datagram into `pkt_buf`, and `process_packet`, `parse_fgdata`, `strtok` and
`split` cut it up in place. Here every byte they read or write is checked against the buffer, and
every string pointer against null: `none` is an access with no defined effect.

* **`handlePacket`** — the receive loop of `main` and the parser, on the buffer.
* **`handlePacket_eq`** — it computes what `parsePacket` computes on the text, whatever stood in the
  buffer before.
* **`packet_stays_inside_iff`** — the datagrams for which nothing outside is touched. -/

namespace Fgcom

open CBuffer

/-! ## The code, on the buffer -/

/-- `MAXBUFLEN`. -/
def maxbuflen : ℕ := 1024

/-- `pkt_buf`. -/
abbrev PktBuf : Type := {b : List Char // b.length = maxbuflen + 2}

/-- What `recvfrom` can store: at most `MAXBUFLEN - 1` bytes. -/
abbrev Payload : Type := {s : List Char // s.length ≤ maxbuflen - 1}

/-- The pointers `fields[0]` and `fields[1]`, into the buffer or null. -/
structure Pointers where
  name : Option ℕ
  value : Option ℕ
  deriving DecidableEq

/-- `split (data_pair, fields, 2, "=")`. -/
def splitBuf (b : List Char) (p : ℕ) (fields : Pointers) : Option (List Char × Pointers) :=
  b[p]?.bind fun c =>
    if c = '\x00' then some (b, fields)
    else
      let fields := { fields with name := some p }
      (scan (fun c => c = '=' || c = '\x00') b p).bind fun q =>
        b[q]?.bind fun c =>
          if c = '\x00' then some (b, fields)
          else
            (store b q '\x00').bind fun b =>
              -- the vector is full, and the rest is only counted, up to its end
              (scan (· = '\x00') b (q + 1)).map fun _ => (b, { fields with value := some (q + 1) })

section Code

variable {R : Type} [CFloat R]

/-- The chain of `strcmp` on `fields[0]`, with `atof` or `atoi` on `fields[1]`. -/
def assignField (d : FgData R) (fields : Pointers) (b : List Char) : Option (FgData R) :=
  (fields.name.bind (readString '\x00' b)).bind fun name =>
    match Key.ofName name with
    | none => some d
    | some k => (fields.value.bind (readString '\x00' b)).map (d.assign k)

/-- A round of `split` keeps the size of the buffer. -/
theorem length_of_splitBuf {b b' : List Char} {p : ℕ} {fields fields' : Pointers}
    (h : splitBuf b p fields = some (b', fields')) : b'.length = b.length := by
  obtain ⟨c, -, h⟩ := Option.bind_eq_some_iff.mp h
  split at h
  · obtain ⟨rfl, -⟩ := Prod.mk.inj (Option.some.inj h)
    rfl
  · obtain ⟨q, -, h⟩ := Option.bind_eq_some_iff.mp h
    obtain ⟨d, -, h⟩ := Option.bind_eq_some_iff.mp h
    split at h
    · obtain ⟨rfl, -⟩ := Prod.mk.inj (Option.some.inj h)
      rfl
    · obtain ⟨b'', hstore, h⟩ := Option.bind_eq_some_iff.mp h
      obtain ⟨q', -, h⟩ := Option.map_eq_some_iff.mp h
      obtain ⟨rfl, -⟩ := Prod.mk.inj h
      exact length_of_store hstore

/-- The loop of `parse_fgdata`, from the pointer `strtok` goes on at. -/
def parseFgdataLoop (d : FgData R) (fields : Pointers) (b : List Char) (s : ℕ) :
    Option (FgData R) :=
  match _hstrtok : strtok '\x00' ',' b s with
  | none => none
  | some (_, none) => some d
  | some (b', some (p, save)) =>
      match _hsplit : splitBuf b' p fields with
      | none => none
      | some (b'', fields') =>
          (assignField d fields' b'').bind fun d => parseFgdataLoop d fields' b'' save
termination_by b.length - s
decreasing_by
  have hsave := lt_of_strtok _hstrtok
  have hsize := length_of_splitBuf _hsplit
  omega

/-- `parse_fgdata`: the pointers start as null. -/
def parseFgdataBuf (d : FgData R) (b : List Char) : Option (FgData R) :=
  parseFgdataLoop d ⟨none, none⟩ b 0

/-- The first two statements of `process_packet`. -/
def processPacketBuf (d : FgData R) (b : List Char) : Option (FgData R) :=
  (scan (· = '\x00') b 0).bind fun len =>
    (store b ((len : ℤ) - 1) '\x00').bind (parseFgdataBuf d)

/-- `recvfrom`, the terminator, and `process_packet`. -/
def handlePacket (d : FgData R) (pktBuf : PktBuf) (payload : Payload) : Option (FgData R) :=
  (store (payload.val ++ pktBuf.val.drop payload.val.length) payload.val.length '\x00').bind
    (processPacketBuf d)

/-- **Nothing outside the buffer is touched**, in any state. -/
def StaysInside (R : Type) [CFloat R] (payload : Payload) : Prop :=
  ∀ (d : FgData R) (pktBuf : PktBuf), (handlePacket d pktBuf payload).isSome = true

end Code

/-- The tokens of a datagram, once its last character is cut off. -/
def payloadTokens (payload : List Char) : List (List Char) :=
  strtokAll ',' (cstr payload).dropLast

/-- **The datagrams that are handled inside the buffer**: they do not start with a NUL, and of the
tokens before the first one with an `=` none is a key. -/
def ValuesInPlace (payload : List Char) : Prop :=
  cstr payload ≠ [] ∧
    ∀ t ∈ (payloadTokens payload).takeWhile (fun t => '=' ∉ t), ¬ BareKey t

/-! ## One round -/

section Round

variable {R : Type} [CFloat R]

/-- The value pointer points at the value text, in the front part of the buffer. -/
def ValueIn (front : List Char) (fields : Pointers) (f : Fields) : Prop :=
  (fields.value = none ∧ f.value = none) ∨
    ∃ p v, fields.value = some p ∧ f.value = some v ∧ StringIn '\x00' front p v

/-- Both pointers point at their texts. -/
def FieldsIn (front : List Char) (fields : Pointers) (f : Fields) : Prop :=
  (∃ p t, fields.name = some p ∧ f.name = some t ∧ StringIn '\x00' front p t) ∧
    ValueIn front fields f

theorem ValueIn.append {front : List Char} {fields : Pointers} {f : Fields}
    (h : ValueIn front fields f) (more : List Char) : ValueIn (front ++ more) fields f := by
  rcases h with hnull | ⟨p, v, hp, hv, hin⟩
  · exact Or.inl hnull
  · exact Or.inr ⟨p, v, hp, hv, hin.append more⟩

variable {front token : List Char} {fields : Pointers} {f : Fields}

/-- **`split` in place does what it does to the text**: the token is cut at its first `=`, and the
pointers follow. -/
theorem splitBuf_eq (rest : List Char) (hne : token ≠ []) (hnul : '\x00' ∉ token)
    (hvalue : ValueIn front fields f) :
    ∃ token' fields', token'.length = token.length ∧
      splitBuf (front ++ (token ++ '\x00' :: rest)) front.length fields
        = some (front ++ (token' ++ '\x00' :: rest), fields') ∧
      FieldsIn (front ++ (token' ++ ['\x00'])) fields' (f.store (splitFields 2 '=' token)) := by
  have hfirst : ∃ c, (front ++ (token ++ '\x00' :: rest))[front.length]? = some c ∧
      c ≠ '\x00' := by
    obtain ⟨c, t, rfl⟩ := List.exists_cons_of_ne_nil hne
    refine ⟨c, ?_, fun h => hnul (h ▸ List.mem_cons_self)⟩
    exact getElem?_middle front [] c (t ++ '\x00' :: rest)
  obtain ⟨c, hc, hc0⟩ := hfirst
  rcases token_cases token with hno | ⟨a, v, ha, rfl⟩
  · -- no `=`: the name pointer moves, and the value pointer stays
    have hend := scan_token front rest hno hnul (Or.inr rfl)
    refine ⟨token, { fields with name := some front.length }, rfl, ?_, ?_, ?_⟩
    · rw [splitBuf, hc, Option.bind_some, if_neg hc0, hend, Option.bind_some, getElem?_middle,
        Option.bind_some, if_pos rfl]
    · rw [store_of_notMem hne hno]
      exact ⟨_, _, rfl, rfl, front, [], rfl, rfl, hnul⟩
    · rw [store_of_notMem hne hno]
      exact hvalue.append _
  · rw [List.mem_append, not_or, List.mem_cons, not_or] at hnul
    have hassoc : front ++ (a ++ '=' :: v ++ '\x00' :: rest)
        = front ++ (a ++ '=' :: (v ++ '\x00' :: rest)) := by simp
    have hend := scan_token front (v ++ '\x00' :: rest) ha hnul.1 (Or.inl rfl)
    have hstore := store_append (front ++ a) (v ++ '\x00' :: rest) '=' '\x00'
    rw [List.length_append, List.append_assoc, List.append_assoc] at hstore
    have hcount := scan_nul (front ++ a ++ ['\x00']) rest hnul.2.2
    have hbuf : front ++ a ++ ['\x00'] ++ (v ++ '\x00' :: rest)
        = front ++ (a ++ '\x00' :: (v ++ '\x00' :: rest)) := by simp
    rw [hbuf, List.length_append, List.length_append, List.length_singleton] at hcount
    refine ⟨a ++ '\x00' :: v, ⟨some front.length, some (front.length + a.length + 1)⟩, by simp,
      ?_, ?_, ?_⟩
    · rw [hassoc] at hc ⊢
      rw [splitBuf, hc, Option.bind_some, if_neg hc0, hend, Option.bind_some, getElem?_middle,
        Option.bind_some, if_neg (by decide), hstore, Option.bind_some, hcount, Option.map_some]
      simp
    · rw [store_of_mem ha]
      exact ⟨_, _, rfl, rfl, front, v ++ ['\x00'], by simp, rfl, hnul.1⟩
    · rw [store_of_mem ha]
      refine Or.inr ⟨_, _, rfl, rfl, front ++ a ++ ['\x00'], [], by simp,
        by simp [Nat.add_assoc], hnul.2.2⟩

/-- The branches of the loop read the texts the pointers point at. -/
theorem assignField_eq (h : FieldsIn front fields f) (d : FgData R) (behind : List Char) :
    (assignField d fields (front ++ behind)).map (fun d => (d, f))
      = match f.name with
        | none => none
        | some name =>
            match Key.ofName name with
            | none => some (d, f)
            | some k =>
                match f.value with
                | none => none
                | some v => some (d.assign k v, f) := by
  obtain ⟨⟨p, t, hp, ht, hin⟩, hvalue⟩ := h
  rw [assignField, hp, ht, Option.bind_some, readString_append hin, Option.bind_some]
  dsimp only
  cases Key.ofName t with
  | none => rfl
  | some k =>
      rcases hvalue with ⟨hnull, hnone⟩ | ⟨q, v, hq, hv, hinv⟩
      · rw [hnull, hnone]
        rfl
      · rw [hq, hv, Option.bind_some, readString_append hinv]
        rfl

/-- **A round on the buffer is a round on the text.** -/
theorem parseToken_eq_assignField {token : List Char} {fields : Pointers}
    (h : FieldsIn front fields (f.store (splitFields 2 '=' token))) (d : FgData R)
    (behind : List Char) :
    parseToken (d, f) token = (assignField d fields (front ++ behind)).map
      fun d => (d, f.store (splitFields 2 '=' token)) := by
  rw [assignField_eq h]
  rfl

end Round

/-! ## The loop -/

section Loop

variable {R : Type} [CFloat R]

/-- The loop ends where `strtok` finds no token. -/
theorem parseFgdataLoop_of_end {d : FgData R} {fields : Pointers} {b b' : List Char} {s : ℕ}
    (h : strtok '\x00' ',' b s = some (b', none)) :
    parseFgdataLoop d fields b s = some d := by
  rw [parseFgdataLoop]
  split
  · rename_i hnone
    exact absurd (h.symm.trans hnone) (by simp)
  · rfl
  · rename_i hsome
    exact absurd (h.symm.trans hsome) (by simp)

/-- A round of the loop. -/
theorem parseFgdataLoop_of_token {d : FgData R} {fields fields' : Pointers}
    {b b' b'' : List Char} {s p save : ℕ}
    (h : strtok '\x00' ',' b s = some (b', some (p, save)))
    (h' : splitBuf b' p fields = some (b'', fields')) :
    parseFgdataLoop d fields b s
      = (assignField d fields' b'').bind fun d => parseFgdataLoop d fields' b'' save := by
  rw [parseFgdataLoop]
  split
  · rename_i hnone
    exact absurd (h.symm.trans hnone) (by simp)
  · rename_i hend
    exact absurd (h.symm.trans hend) (by simp)
  · rename_i b₁ p₁ save₁ hsome
    obtain ⟨rfl, htoken⟩ := Prod.mk.inj (Option.some.inj (h.symm.trans hsome))
    obtain ⟨rfl, rfl⟩ := Prod.mk.inj (Option.some.inj htoken)
    split
    · rename_i hnone
      exact absurd (h'.symm.trans hnone) (by simp)
    · rename_i hsplit
      obtain ⟨rfl, rfl⟩ := Prod.mk.inj (Option.some.inj (h'.symm.trans hsplit))
      rfl

/-- What a text is made of: separators, a first token if there is one, and a rest behind the
separator after it. -/
theorem text_cases (sep : Char) (text : List Char) :
    ∃ seps : List Char, (∀ c ∈ seps, c = sep) ∧ (text = seps ∨
      ∃ token, token ≠ [] ∧ sep ∉ token ∧
        (text = seps ++ token ∨ ∃ text', text = seps ++ (token ++ sep :: text'))) := by
  induction text with
  | nil => exact ⟨[], by simp, Or.inl rfl⟩
  | cons c text ih =>
      by_cases hc : c = sep
      · -- one more separator
        obtain ⟨seps, hseps, hcase⟩ := ih
        refine ⟨c :: seps, List.forall_mem_cons.mpr ⟨hc, hseps⟩, ?_⟩
        rcases hcase with rfl | ⟨token, hne, hsep, rfl | ⟨text', rfl⟩⟩
        · exact Or.inl rfl
        · exact Or.inr ⟨token, hne, hsep, Or.inl rfl⟩
        · exact Or.inr ⟨token, hne, hsep, Or.inr ⟨text', rfl⟩⟩
      · -- the first token starts here
        refine ⟨[], by simp, Or.inr ?_⟩
        by_cases hmem : sep ∈ c :: text
        · obtain ⟨token, text', heq, hsep⟩ := List.eq_append_cons_of_mem hmem
          refine ⟨token, ?_, hsep, Or.inr ⟨text', heq⟩⟩
          rintro rfl
          exact hc (List.cons.inj heq).1
        · exact ⟨c :: text, List.cons_ne_nil c text, hmem, Or.inl rfl⟩

/-- **A round of the loop**: the token is cut up in place, and read as the text is. -/
theorem exists_round {d : FgData R} {fields : Pointers} {f : Fields}
    {front token behind b : List Char} {s save : ℕ} (hne : token ≠ []) (hnul : '\x00' ∉ token)
    (hvalue : ValueIn front fields f)
    (h : strtok '\x00' ',' b s
      = some (front ++ (token ++ '\x00' :: behind), some (front.length, save))) :
    ∃ (cut : List Char) (fields' : Pointers) (r : Option (FgData R)),
      cut.length = front.length + token.length ∧
      ValueIn (cut ++ ['\x00']) fields' (f.store (splitFields 2 '=' token)) ∧
      parseToken (d, f) token = r.map (fun d => (d, f.store (splitFields 2 '=' token))) ∧
      parseFgdataLoop d fields b s
        = r.bind fun d => parseFgdataLoop d fields' (cut ++ '\x00' :: behind) save := by
  obtain ⟨token', fields', hlen, hsplit, hfields⟩ := splitBuf_eq behind hne hnul hvalue
  have hround := parseToken_eq_assignField hfields d behind
  have hbuf : front ++ (token' ++ ['\x00']) ++ behind = front ++ token' ++ '\x00' :: behind := by
    simp
  rw [← List.append_assoc front token'] at hsplit hfields
  rw [hbuf] at hround
  refine ⟨front ++ token', fields', _, ?_, hfields.2, hround, ?_⟩
  · rw [List.length_append, hlen]
  · exact parseFgdataLoop_of_token h hsplit

/-- **The loop on the buffer is the loop on the text.** -/
theorem parseFgdataLoop_eq {text : List Char} (d : FgData R) {fields : Pointers} {f : Fields}
    {front : List Char} (rest : List Char) (hnul : '\x00' ∉ text)
    (hvalue : ValueIn front fields f) :
    parseFgdataLoop d fields (front ++ (text ++ '\x00' :: rest)) front.length
      = ((strtokAll ',' text).foldlM parseToken (d, f)).map Prod.fst := by
  have hcomma : '\x00' ≠ ',' := by decide
  induction hlen : text.length using Nat.strongRecOn generalizing text d fields f front with
  | ind k ih =>
      obtain ⟨seps, hseps, rfl | ⟨token, hne, hsep, rfl | ⟨text', rfl⟩⟩⟩ := text_cases ',' text
      · -- no token
        have htokens : strtokAll ',' text = [] := by
          have h := strtokAll_append_seps hseps []
          rw [List.append_nil] at h
          exact h
        rw [htokens, parseFgdataLoop_of_end (strtok_end front rest hseps hcomma)]
        rfl
      · -- the last token
        rw [List.mem_append, not_or] at hnul
        have htokens : strtokAll ',' (seps ++ token) = [token] := by
          rw [strtokAll_append_seps hseps, strtokAll_of_notMem hsep, if_neg hne]
        have hstrtok := strtok_last front rest hseps hne hsep hnul.2
        rw [← List.append_assoc front seps] at hstrtok
        obtain ⟨cut, fields', r, hcut, -, hround, hloop⟩ :=
          exists_round (d := d) hne hnul.2 (hvalue.append seps) hstrtok
        have hnil : ∀ c ∈ ([] : List Char), c = ',' := by simp
        have hend := strtok_end cut rest hnil hcomma
        rw [List.append_assoc, ← List.append_assoc front, hloop, htokens, List.foldlM_cons,
          hround, ← hcut]
        cases r with
        | none => rfl
        | some d' => exact parseFgdataLoop_of_end hend
      · -- a token and what stands behind its separator
        rw [List.mem_append, List.mem_append, not_or, not_or, List.mem_cons, not_or] at hnul
        obtain ⟨-, hnul', -, hrest⟩ := hnul
        have htokens : strtokAll ',' (seps ++ (token ++ ',' :: text'))
            = token :: strtokAll ',' text' := by
          rw [strtokAll_append_seps hseps, strtokAll_append_cons, strtokAll_of_notMem hsep,
            if_neg hne]
          rfl
        have hstrtok := strtok_next front (text' ++ '\x00' :: rest) hseps hne hsep hnul' hcomma
        rw [← List.append_assoc front seps, ← List.append_assoc front seps] at hstrtok
        obtain ⟨cut, fields', r, hcut, hvalue', hround, hloop⟩ :=
          exists_round (d := d) hne hnul' (hvalue.append seps) hstrtok
        have hshorter : text'.length < k := by
          rw [← hlen]
          simp only [List.length_append, List.length_cons]
          omega
        have htext : front ++ (seps ++ (token ++ ',' :: text') ++ '\x00' :: rest)
            = front ++ seps ++ (token ++ ',' :: (text' ++ '\x00' :: rest)) := by simp
        have hbuf : cut ++ '\x00' :: (text' ++ '\x00' :: rest)
            = cut ++ ['\x00'] ++ (text' ++ '\x00' :: rest) := by simp
        have hsave : (front ++ seps).length + token.length + 1 = (cut ++ ['\x00']).length := by
          rw [← hcut]
          simp
        rw [htext, hloop, htokens, List.foldlM_cons, hround, hbuf, hsave]
        cases r with
        | none => rfl
        | some d' => exact ih text'.length hshorter d' hrest hvalue' rfl

/-! ## The datagram -/

/-- The C string holds no NUL. -/
theorem notMem_cstr (s : List Char) : '\x00' ∉ cstr s :=
  fun h => absurd (List.mem_takeWhile_imp h) (by simp)

/-- The C string ends at its first NUL, in the datagram or right behind it. -/
theorem exists_eq_cstr_append (s behind : List Char) :
    ∃ rest, s ++ '\x00' :: behind = cstr s ++ '\x00' :: rest := by
  by_cases hmem : '\x00' ∈ s
  · obtain ⟨u, v, rfl, hu⟩ := List.eq_append_cons_of_mem hmem
    have hall : ∀ c ∈ u, decide (c ≠ '\x00') = true :=
      fun c hc => decide_eq_true fun h => hu (h ▸ hc)
    have hcstr : cstr (u ++ '\x00' :: v) = u := by
      rw [cstr, List.takeWhile_append_of_pos hall, List.takeWhile_cons_of_neg (by simp),
        List.append_nil]
    exact ⟨v ++ '\x00' :: behind, by rw [hcstr]; simp⟩
  · exact ⟨behind, by rw [cstr_of_notMem hmem]⟩

/-- `process_packet` on a string in the buffer. -/
theorem processPacketBuf_eq (d : FgData R) {text : List Char} (rest : List Char)
    (hnul : '\x00' ∉ text) :
    processPacketBuf d (text ++ '\x00' :: rest) = (cutLast text).bind (parseFgdata d) := by
  have hlen : scan (· = '\x00') (text ++ '\x00' :: rest) 0 = some text.length := by
    have h := scan_nul [] rest hnul
    rw [List.nil_append, List.length_nil, Nat.zero_add] at h
    exact h
  rw [processPacketBuf, hlen, Option.bind_some]
  rcases List.eq_nil_or_concat' text with rfl | ⟨front, c, rfl⟩
  · -- an empty string: the store hits the byte before the buffer
    rw [store_of_neg _ (by simp)]
    rfl
  · have hcut := store_append front ('\x00' :: rest) c '\x00'
    have hpos : ((front ++ [c]).length : ℤ) - 1 = (front.length : ℕ) := by simp
    have hbuf : front ++ [c] ++ '\x00' :: rest = front ++ c :: '\x00' :: rest := by simp
    have hnull : ValueIn [] ⟨none, none⟩ ⟨none, none⟩ := Or.inl ⟨rfl, rfl⟩
    have hloop := parseFgdataLoop_eq d ('\x00' :: rest)
      (fun h => hnul (List.mem_append_left _ h)) hnull
    rw [hpos, hbuf, hcut, Option.bind_some, cutLast, if_neg (by simp), List.dropLast_concat,
      Option.bind_some, parseFgdata, ← hloop]
    rfl

/-- **The buffer computes what the text computes**, whatever the datagram and whatever stood in
the buffer before. -/
theorem handlePacket_eq (d : FgData R) (pktBuf : PktBuf) (payload : Payload) :
    handlePacket d pktBuf payload = parsePacket d payload.val := by
  obtain ⟨b, hb⟩ := pktBuf
  obtain ⟨s, hs⟩ := payload
  -- there is a byte for the terminator
  have hroom : 0 < (b.drop s.length).length := by
    have hlt : s.length < maxbuflen + 2 := lt_of_le_of_lt hs (by decide)
    rw [List.length_drop]
    omega
  obtain ⟨x, behind, hdrop⟩ := List.exists_cons_of_length_pos hroom
  obtain ⟨rest, hrest⟩ := exists_eq_cstr_append s behind
  have hstore := store_append s behind x '\x00'
  rw [← hdrop] at hstore
  rw [handlePacket, hstore, Option.bind_some, hrest, processPacketBuf_eq d rest (notMem_cstr s),
    parsePacket]

end Loop

/-! ## When nothing outside is touched -/

/-- A key name holds no `=`. -/
theorem eq_notMem_of_bareKey {token : List Char} (h : BareKey token) : '=' ∉ token := by
  obtain ⟨k, hk⟩ := Option.isSome_iff_exists.mp h
  rw [← Key.name_of_ofName hk]
  exact k.eq_notMem_name

/-- A token leaves a value behind when it has an `=`. -/
theorem tokenValue_isSome_iff {token : List Char} :
    (tokenValue token).isSome = true ↔ '=' ∈ token := by
  rcases token_cases token with hno | ⟨a, v, ha, rfl⟩
  · rw [tokenValue, dropWhile_eq_nil hno]
    exact iff_of_false Bool.false_ne_true hno
  · rw [tokenValue, (cut_at_eq ha).2]
    exact iff_of_true rfl (by simp)

/-- **No null pointer is read** when no key stands in front of the first token with an `=`, or the
value pointer is set before. -/
theorem parseWrites_isSome_iff {ts : List (List Char)} (hne : ∀ t ∈ ts, t ≠ []) (f : Fields) :
    (parseWrites f ts).isSome = true ↔
      f.value.isSome = true ∨ ∀ t ∈ ts.takeWhile (fun t => '=' ∉ t), ¬ BareKey t := by
  induction ts generalizing f with
  | nil => exact iff_of_true rfl (Or.inr (by simp))
  | cons t ts ih =>
      have hne' : ∀ u ∈ ts, u ≠ [] := fun u hu => hne u (List.mem_cons_of_mem t hu)
      by_cases hbare : BareKey t
      · -- the pointer must be set already
        obtain ⟨k, hk⟩ := Option.isSome_iff_exists.mp hbare
        have hno := eq_notMem_of_bareKey hbare
        rw [parseWrites, tokenWrite_bareKey hk, List.takeWhile_cons_of_pos (by simpa using hno),
          List.forall_mem_cons]
        cases hvalue : f.value with
        | none => exact iff_of_false Bool.false_ne_true (by simp [hbare])
        | some v =>
            rw [Option.map_some, Option.bind_some, Option.isSome_map, ih hne']
            exact iff_of_true (Or.inl rfl) (Or.inl rfl)
      · obtain ⟨g, hwrite, hg⟩ := tokenWrite_of_not_bareKey (hne t List.mem_cons_self) hbare f
        rw [parseWrites, hwrite, Option.bind_some, Option.isSome_map, ih hne', hg,
          Option.isSome_or, Bool.or_eq_true, tokenValue_isSome_iff]
        by_cases heq : '=' ∈ t
        · rw [List.takeWhile_cons_of_neg (by simpa using heq)]
          exact iff_of_true (Or.inl (Or.inl heq)) (Or.inr (by simp))
        · rw [List.takeWhile_cons_of_pos (by simpa using heq), List.forall_mem_cons,
            or_iff_right heq, and_iff_right hbare]

/-- **The datagrams that are handled inside the buffer**, for every payload, in every state. -/
theorem packet_stays_inside_iff (R : Type) [CFloat R] (payload : Payload) :
    StaysInside R payload ↔ ValuesInPlace payload.val := by
  have hne : ∀ t ∈ payloadTokens payload.val, t ≠ [] := fun t ht => ne_nil_of_mem_strtokAll ht
  have hsome : ∀ (d : FgData R) (pktBuf : PktBuf),
      (handlePacket d pktBuf payload).isSome = true ↔ ValuesInPlace payload.val := by
    intro d pktBuf
    unfold ValuesInPlace
    rw [handlePacket_eq, parsePacket_eq_writes, Option.isSome_map, packetWrites, cutLast]
    by_cases hempty : cstr payload.val = []
    · rw [if_pos hempty]
      exact iff_of_false Bool.false_ne_true fun h => h.1 hempty
    · rw [if_neg hempty, Option.bind_some, Option.isSome_map, and_iff_right hempty,
        ← payloadTokens, parseWrites_isSome_iff hne]
      exact or_iff_right Bool.false_ne_true
  exact ⟨fun h => (hsome FgData.zero ⟨List.replicate (maxbuflen + 2) '\x00', by simp⟩).mp (h _ _),
    fun h d pktBuf => (hsome d pktBuf).mpr h⟩

/-- The empty datagram, and `PTT` without a value in front of it. -/
theorem short_packets_step_outside :
    ¬ StaysInside ℚ ⟨[], by decide⟩ ∧ ¬ StaysInside ℚ ⟨"PTT\n".toList, by decide⟩ := by
  refine ⟨fun h => ?_, fun h => ?_⟩
  · have hsome := h FgData.zero ⟨List.replicate (maxbuflen + 2) '\x00', by simp⟩
    rw [handlePacket_eq] at hsome
    exact absurd hsome (by decide)
  · have hsome := h FgData.zero ⟨List.replicate (maxbuflen + 2) '\x00', by simp⟩
    rw [handlePacket_eq] at hsome
    exact absurd hsome (by decide)

end Fgcom
