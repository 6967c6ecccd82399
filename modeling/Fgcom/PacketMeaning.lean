import Fgcom.Packet
import Mathlib.Data.List.Induction
import Mathlib.Data.List.TakeWhile
import Mathlib.Data.List.Perm.Basic

/-! # What a packet means

The reading of a packet that `parse_fgdata` is after, and how far it gets there.

* **`tokenPair`** — the key and value text of a token `KEY=value`; **`lastValue`** — the last value
  a list of tokens gives a key.
* **`parseWrites`** — the assignments the parser makes, in order. A token that is a bare key name
  has no value of its own: it is given whatever value the tokens before it left behind, or a null
  pointer (`tokenWrite_bareKey`).
* **`Faithful`** — the assignments made are those of the `KEY=value` tokens of the packet, the
  final newline taken off. `faithful_iff` says exactly for which packets this holds.
* **`MeansWhatItSays`** — what it gives for the flight data: the law of a packet. -/

namespace Fgcom

/-! ## Keys and tokens -/

/-- A key is found by its own name. -/
@[simp] theorem Key.ofName_name (k : Key) : Key.ofName k.name = some k := by
  cases k <;> decide

/-- Only a key's own name finds it. -/
theorem Key.name_of_ofName {s : List Char} {k : Key} (h : Key.ofName s = some k) : k.name = s := by
  simpa using List.find?_some h

/-- No key name contains an equals sign. -/
theorem Key.eq_notMem_name (k : Key) : '=' ∉ k.name := by
  cases k <;> decide

/-- No key name is empty. -/
theorem Key.name_ne_nil (k : Key) : k.name ≠ [] := by
  cases k <;> decide

/-- A token that is one of the sixteen key names with no `=` behind it. -/
def BareKey (token : List Char) : Prop := (Key.ofName token).isSome = true

instance (token : List Char) : Decidable (BareKey token) :=
  inferInstanceAs (Decidable (_ = true))

/-- The key and the value text of a token `KEY=value` with one of the sixteen keys. -/
def tokenPair (token : List Char) : Option (Key × List Char) :=
  match token.dropWhile (· ≠ '=') with
  | [] => none
  | _ :: v => (Key.ofName (token.takeWhile (· ≠ '='))).map fun k => (k, v)

/-- The value text of a token with an `=`. -/
def tokenValue (token : List Char) : Option (List Char) :=
  match token.dropWhile (· ≠ '=') with
  | [] => none
  | _ :: v => some v

/-- The text the last assignment to a key has. -/
def lastWritten (ws : List (Key × List Char)) (k : Key) : Option (List Char) :=
  (ws.filter fun w => w.1 = k).getLast?.map Prod.snd

/-- The last value a list of tokens gives a key. -/
def lastValue (tokens : List (List Char)) (k : Key) : Option (List Char) :=
  ((tokens.filterMap tokenPair).filter fun w => w.1 = k).getLast?.map Prod.snd

/-- A token is cut at its first `=`. -/
theorem cut_at_eq {a v : List Char} (ha : '=' ∉ a) :
    (a ++ '=' :: v).takeWhile (· ≠ '=') = a ∧ (a ++ '=' :: v).dropWhile (· ≠ '=') = '=' :: v := by
  have hall : ∀ c ∈ a, decide (c ≠ '=') = true := by
    intro c hc
    simpa using fun h : c = '=' => ha (h ▸ hc)
  rw [List.takeWhile_append_of_pos hall, List.dropWhile_append_of_pos hall]
  simp

/-- A token without `=` has nothing behind its first `=`. -/
theorem dropWhile_eq_nil {token : List Char} (h : '=' ∉ token) :
    token.dropWhile (· ≠ '=') = [] := by
  rw [List.dropWhile_eq_nil_iff]
  intro c hc
  simpa using fun h' : c = '=' => h (h' ▸ hc)

/-- A token either has a first `=` or none. -/
theorem token_cases (token : List Char) :
    '=' ∉ token ∨ ∃ a v, '=' ∉ a ∧ token = a ++ '=' :: v := by
  by_cases h : '=' ∈ token
  · exact Or.inr ((List.eq_append_cons_of_mem h).imp fun a ⟨v, htok, ha⟩ => ⟨v, ha, htok⟩)
  · exact Or.inl h

/-- `tokenPair` recognises exactly the tokens `KEY=value`. -/
theorem tokenPair_eq_some_iff {token : List Char} {k : Key} {v : List Char} :
    tokenPair token = some (k, v) ↔ token = k.name ++ '=' :: v := by
  constructor
  · intro h
    rcases token_cases token with hno | ⟨a, w, ha, rfl⟩
    · rw [tokenPair, dropWhile_eq_nil hno] at h
      exact absurd h (by simp)
    · simp only [tokenPair, (cut_at_eq ha).1, (cut_at_eq ha).2, Option.map_eq_some_iff,
        Prod.mk.injEq] at h
      obtain ⟨k', hk', rfl, rfl⟩ := h
      rw [Key.name_of_ofName hk']
  · rintro rfl
    rw [tokenPair, (cut_at_eq k.eq_notMem_name).1, (cut_at_eq k.eq_notMem_name).2]
    simp

/-- A bare key is no `KEY=value`. -/
theorem tokenPair_of_bareKey {token : List Char} (h : BareKey token) : tokenPair token = none := by
  obtain ⟨k, hk⟩ := Option.isSome_iff_exists.mp h
  rw [← Key.name_of_ofName hk, tokenPair, dropWhile_eq_nil k.eq_notMem_name]

/-- A `KEY=value` token keeps its key when characters are put behind it. -/
theorem tokenPair_append {u s : List Char} {k : Key} {v : List Char}
    (h : tokenPair u = some (k, v)) : tokenPair (u ++ s) = some (k, v ++ s) := by
  rw [tokenPair_eq_some_iff] at h ⊢
  rw [h, List.append_assoc, List.cons_append]

/-! ## The tokens of a text -/

/-- Behind the last separator of a text stands its unfinished token: further characters lengthen
that token and leave the others alone. -/
theorem strtokAll_open (sep : Char) (s : List Char) :
    ∃ ts u, sep ∉ u ∧ ∀ t, sep ∉ t →
      strtokAll sep (s ++ t) = ts ++ if u ++ t = [] then [] else [u ++ t] := by
  induction s using List.reverseRecOn with
  | nil => exact ⟨[], [], by simp, fun t ht => by simpa using strtokAll_of_notMem ht⟩
  | append_singleton s c ih =>
      by_cases hc : c = sep
      · -- a separator closes the token
        subst hc
        refine ⟨strtokAll c s, [], by simp, fun t ht => ?_⟩
        rw [List.append_assoc, List.singleton_append, strtokAll_append_cons,
          strtokAll_of_notMem ht, List.nil_append]
      · -- any other character lengthens it
        obtain ⟨ts, u, hu, h⟩ := ih
        refine ⟨ts, u ++ [c], by simpa [hu] using fun h => hc h.symm, fun t ht => ?_⟩
        rw [List.append_assoc, h ([c] ++ t) (by simpa [ht] using fun h => hc h.symm),
          List.append_assoc]

/-! ## The assignments the parser makes -/

/-- The assignment one round of the loop makes, if any, and the field pointers after it. -/
def tokenWrite (f : Fields) (token : List Char) : Option (Option (Key × List Char) × Fields) :=
  let f := f.store (splitFields 2 '=' token)
  match f.name with
  | none => none
  | some name =>
      match Key.ofName name with
      | none => some (none, f)
      | some k =>
          match f.value with
          | none => none
          | some v => some (some (k, v), f)

/-- The assignments a list of tokens makes, in order, and the field pointers after them. -/
def parseWrites : Fields → List (List Char) → Option (List (Key × List Char) × Fields)
  | f, [] => some ([], f)
  | f, token :: tokens =>
      (tokenWrite f token).bind fun w =>
        (parseWrites w.2 tokens).map fun ws => (w.1.toList ++ ws.1, ws.2)

/-- The assignments of a packet. -/
def packetWrites (buf : List Char) : Option (List (Key × List Char)) :=
  (cutLast (cstr buf)).bind fun s => (parseWrites ⟨none, none⟩ (strtokAll ',' s)).map Prod.fst

section Writes

variable {R : Type} [CFloat R]

/-- Assignments applied in order. -/
def applyWrites (d : FgData R) (ws : List (Key × List Char)) : FgData R :=
  ws.foldl (fun d w => d.assign w.1 w.2) d

/-- One round of the loop is the assignment it makes. -/
theorem parseToken_eq_write (st : FgData R × Fields) (token : List Char) :
    parseToken st token
      = (tokenWrite st.2 token).map fun w => (applyWrites st.1 w.1.toList, w.2) := by
  rw [parseToken, tokenWrite]
  cases (st.2.store (splitFields 2 '=' token)).name with
  | none => rfl
  | some name =>
      cases hk : Key.ofName name with
      | none => simp [hk, applyWrites]
      | some k =>
          cases hv : (st.2.store (splitFields 2 '=' token)).value with
          | none => simp [hk]
          | some v => simp [hk, applyWrites]

/-- The loop is the assignments it makes, applied in order. -/
theorem foldlM_parseToken_eq_writes (d : FgData R) (f : Fields) (tokens : List (List Char)) :
    tokens.foldlM parseToken (d, f)
      = (parseWrites f tokens).map fun ws => (applyWrites d ws.1, ws.2) := by
  induction tokens generalizing d f with
  | nil => rfl
  | cons token tokens ih =>
      rw [List.foldlM_cons, parseToken_eq_write, parseWrites]
      cases tokenWrite f token with
      | none => rfl
      | some w =>
          simp only [Option.map_some, Option.bind_eq_bind, Option.bind_some, ih, Option.map_map]
          congr 1
          funext ws
          simp [applyWrites, List.foldl_append]

/-- **The parser is the assignments of the packet, applied in order.** -/
theorem parsePacket_eq_writes (d : FgData R) (buf : List Char) :
    parsePacket d buf = (packetWrites buf).map (applyWrites d) := by
  rw [parsePacket, packetWrites]
  cases cutLast (cstr buf) with
  | none => rfl
  | some s =>
      simp only [Option.bind_some, parseFgdata, foldlM_parseToken_eq_writes, Option.map_map]
      rfl

/-- An assignment sets its own field to the converted value. -/
@[simp] theorem get_assign_self (d : FgData R) (k : Key) (v : List Char) :
    (d.assign k v).get k = k.convert v := by
  cases k <;> rfl

/-- An assignment leaves the other fields alone. -/
theorem get_assign_of_ne (d : FgData R) {k j : Key} (v : List Char) (h : k ≠ j) :
    (d.assign k v).get j = d.get j := by
  cases k <;> cases j <;> first | rfl | exact absurd rfl h

/-- After a list of assignments a field holds the conversion of the last value written to it, or
what it held before. -/
theorem get_applyWrites (d : FgData R) (ws : List (Key × List Char)) (k : Key) :
    (applyWrites d ws).get k = ((lastWritten ws k).map k.convert).getD (d.get k) := by
  induction ws using List.reverseRecOn with
  | nil => rfl
  | append_singleton ws w ih =>
      rw [applyWrites, List.foldl_append, List.foldl_cons, List.foldl_nil, lastWritten,
        List.filter_append]
      by_cases hk : w.1 = k
      · subst hk
        simp
      · rw [get_assign_of_ne _ _ hk, List.filter_singleton, decide_eq_false hk, cond_false,
          List.append_nil]
        exact ih

end Writes

/-! ## Rounds of the loop -/

/-- A token without `=` only moves the name pointer. -/
theorem store_of_notMem {token : List Char} (hne : token ≠ []) (h : '=' ∉ token) (f : Fields) :
    f.store (splitFields 2 '=' token) = { f with name := some token } := by
  rw [splitFields, if_neg hne, splitFields.fieldsFrom, dropWhile_eq_nil h]
  rfl

/-- A token with an `=` moves both pointers. -/
theorem store_of_mem {a v : List Char} (ha : '=' ∉ a) (f : Fields) :
    f.store (splitFields 2 '=' (a ++ '=' :: v)) = ⟨some a, some v⟩ := by
  rw [splitFields, if_neg (by simp), splitFields.fieldsFrom, (cut_at_eq ha).2, (cut_at_eq ha).1]
  rfl

/-- **A bare key takes the value left behind**, or reads a null pointer when there is none. -/
theorem tokenWrite_bareKey {token : List Char} {k : Key} (h : Key.ofName token = some k)
    (f : Fields) :
    tokenWrite f token = f.value.map fun v => (some (k, v), { f with name := some token }) := by
  obtain rfl := Key.name_of_ofName h
  rw [tokenWrite, store_of_notMem k.name_ne_nil k.eq_notMem_name]
  simp only [Key.ofName_name]
  cases f.value <;> rfl

/-- Any other token makes exactly the assignment it says, and leaves its value text behind. -/
theorem tokenWrite_of_not_bareKey {token : List Char} (hne : token ≠ []) (h : ¬ BareKey token)
    (f : Fields) :
    ∃ g, tokenWrite f token = some (tokenPair token, g) ∧
      g.value = (tokenValue token).or f.value := by
  rcases token_cases token with hno | ⟨a, v, ha, rfl⟩
  · have hk : Key.ofName token = none := by simpa [BareKey] using h
    refine ⟨{ f with name := some token }, ?_, ?_⟩
    · rw [tokenWrite, store_of_notMem hne hno, tokenPair, dropWhile_eq_nil hno]
      simp [hk]
    · rw [tokenValue, dropWhile_eq_nil hno]
      rfl
  · refine ⟨⟨some a, some v⟩, ?_, ?_⟩
    · rw [tokenWrite, store_of_mem ha, tokenPair, (cut_at_eq ha).2, (cut_at_eq ha).1]
      cases hk : Key.ofName a <;> simp [hk]
    · rw [tokenValue, (cut_at_eq ha).2]
      rfl

/-- The assignments of two token lists in a row. -/
theorem parseWrites_append (f : Fields) (ts us : List (List Char)) :
    parseWrites f (ts ++ us)
      = (parseWrites f ts).bind fun w =>
          (parseWrites w.2 us).map fun x => (w.1 ++ x.1, x.2) := by
  induction ts generalizing f with
  | nil => simp [parseWrites]
  | cons token ts ih =>
      rw [List.cons_append, parseWrites, parseWrites]
      cases tokenWrite f token with
      | none => rfl
      | some w =>
          simp only [Option.bind_some, ih]
          cases parseWrites w.2 ts with
          | none => rfl
          | some x =>
              simp only [Option.bind_some, Option.map_some, Option.map_map]
              congr 1
              funext y
              simp

/-- A token list without bare keys makes exactly the assignments it says. -/
theorem parseWrites_of_noBareKey {ts : List (List Char)} (hne : ∀ t ∈ ts, t ≠ [])
    (hbare : ∀ t ∈ ts, ¬ BareKey t) (f : Fields) :
    ∃ g, parseWrites f ts = some (ts.filterMap tokenPair, g) ∧
      g.value = ((ts.filterMap tokenValue).getLast?).or f.value := by
  induction ts generalizing f with
  | nil => exact ⟨f, rfl, by simp⟩
  | cons t ts ih =>
      obtain ⟨g, hg, hgv⟩ := tokenWrite_of_not_bareKey (hne t (by simp)) (hbare t (by simp)) f
      obtain ⟨g', hg', hgv'⟩ := ih (fun t ht => hne t (by simp [ht]))
        (fun t ht => hbare t (by simp [ht])) g
      refine ⟨g', ?_, ?_⟩
      · rw [parseWrites, hg, Option.bind_some, hg', Option.map_some, List.filterMap_cons]
        cases tokenPair t <;> rfl
      · rw [hgv', hgv, List.filterMap_cons]
        cases htv : tokenValue t with
        | none => rfl
        | some v => cases hl : (ts.filterMap tokenValue).getLast? <;> simp [hl, List.getLast?_cons]

/-- Every bare key makes one assignment too many. -/
theorem length_parseWrites {ts : List (List Char)} (hne : ∀ t ∈ ts, t ≠ []) {f : Fields}
    {w : List (Key × List Char) × Fields} (h : parseWrites f ts = some w) :
    w.1.length = (ts.filterMap tokenPair).length + ts.countP BareKey := by
  induction ts generalizing f w with
  | nil =>
      obtain rfl := Option.some.inj h
      rfl
  | cons t ts ih =>
      rw [parseWrites, Option.bind_eq_some_iff] at h
      obtain ⟨x, hx, h⟩ := h
      obtain ⟨y, hy, rfl⟩ := Option.map_eq_some_iff.mp h
      have hrest := ih (fun t ht => hne t (by simp [ht])) hy
      rw [List.length_append, hrest, List.filterMap_cons]
      by_cases hb : BareKey t
      · -- an assignment without a `KEY=value`
        obtain ⟨k, hk⟩ := Option.isSome_iff_exists.mp hb
        rw [tokenWrite_bareKey hk] at hx
        obtain ⟨v, -, rfl⟩ := Option.map_eq_some_iff.mp hx
        rw [tokenPair_of_bareKey hb, List.countP_cons_of_pos (by simpa using hb)]
        simp only [Option.toList_some, List.length_singleton]
        omega
      · obtain ⟨g, hg, -⟩ := tokenWrite_of_not_bareKey (hne t (by simp)) hb f
        obtain rfl := Option.some.inj (hg.symm.trans hx)
        rw [List.countP_cons_of_neg (by simpa using hb)]
        cases tokenPair t with
        | none => simp
        | some p => simp only [Option.toList_some, List.length_cons, List.length_nil]; omega

/-- A token list makes exactly the assignments it says if and only if it has no bare key. -/
theorem parseWrites_eq_iff {ts : List (List Char)} (hne : ∀ t ∈ ts, t ≠ []) (f : Fields) :
    (parseWrites f ts).map Prod.fst = some (ts.filterMap tokenPair) ↔ ∀ t ∈ ts, ¬ BareKey t := by
  constructor
  · intro h
    obtain ⟨w, hw, hfst⟩ := Option.map_eq_some_iff.mp h
    -- each bare key would make one assignment more
    have hlen := length_parseWrites hne hw
    rw [hfst] at hlen
    have hzero : ts.countP BareKey = 0 := by omega
    simpa using List.countP_eq_zero.mp hzero
  · intro h
    obtain ⟨g, hg, -⟩ := parseWrites_of_noBareKey hne h f
    rw [hg]
    rfl

/-! ## The packets that are read faithfully -/

/-- `filterMap` on one element. -/
theorem filterMap_one {α β : Type} (f : α → Option β) (a : α) : [a].filterMap f = (f a).toList := by
  cases h : f a <;> simp [h]

/-- The text a packet carries: its final newline, if it has one, is no part of it. -/
def packetText (buf : List Char) : List Char :=
  if (cstr buf).getLast? = some '\n' then (cstr buf).dropLast else cstr buf

/-- The tokens of a packet. -/
def packetTokens (buf : List Char) : List (List Char) := strtokAll ',' (packetText buf)

/-- The parser makes exactly the assignments of the packet's `KEY=value` tokens, in order. -/
def Faithful (buf : List Char) : Prop :=
  packetWrites buf = some ((packetTokens buf).filterMap tokenPair)

/-- No token left after the last character is cut off is a bare key, and the character cut off is
the newline, a comma, or a character of no `KEY=value` token. -/
def CleanCut (buf : List Char) : Prop :=
  (∀ t ∈ strtokAll ',' (cstr buf).dropLast, ¬ BareKey t) ∧
    ((cstr buf).getLast? = some '\n' ∨ (cstr buf).getLast? = some ',' ∨
      ∀ t ∈ (packetTokens buf).getLast?, tokenPair t = none)

/-- The coincidence: the packet ends in `KEY=` with nothing behind it, the cut makes a bare key of
this token, and the value left behind by the tokens before it is empty as well. -/
def EmptyTwice (buf : List Char) : Prop :=
  ∃ (ts : List (List Char)) (k : Key),
    (cstr buf).getLast? = some '=' ∧ packetTokens buf = ts ++ [k.name ++ ['=']] ∧
    (∀ t ∈ ts, ¬ BareKey t) ∧ (ts.filterMap tokenValue).getLast? = some []

/-- The packets whose reading is faithful. -/
def CleanPacket (buf : List Char) : Prop := cstr buf ≠ [] ∧ (CleanCut buf ∨ EmptyTwice buf)

section Cut

variable {buf pre : List Char} {c : Char}

/-- A packet that ends in a character is parsed without it. -/
theorem packetWrites_of_cstr (hp : cstr buf = pre ++ [c]) :
    packetWrites buf = (parseWrites ⟨none, none⟩ (strtokAll ',' pre)).map Prod.fst := by
  rw [packetWrites, hp, cutLast, if_neg (by simp), List.dropLast_concat, Option.bind_some]

/-- Cutting off a newline or a comma takes nothing from the tokens. -/
theorem packetTokens_of_separator (hp : cstr buf = pre ++ [c]) (hc : c = '\n' ∨ c = ',') :
    packetTokens buf = strtokAll ',' pre := by
  rcases hc with rfl | rfl
  · simp [packetTokens, packetText, hp]
  · have h : strtokAll ',' ([] : List Char) = [] := strtokAll_of_notMem (by simp)
    rw [packetTokens, packetText, hp, if_neg (by simp), strtokAll_append_cons, h, List.append_nil]

/-- Any other last character belongs to the last token. -/
theorem packetTokens_of_ne (hp : cstr buf = pre ++ [c]) (hn : c ≠ '\n') (hc : c ≠ ',') :
    ∃ ts u, packetTokens buf = ts ++ [u ++ [c]] ∧
      strtokAll ',' pre = ts ++ if u = [] then [] else [u] := by
  obtain ⟨ts, u, -, h⟩ := strtokAll_open ',' pre
  refine ⟨ts, u, ?_, by simpa using h [] (by simp)⟩
  rw [packetTokens, packetText, hp, if_neg (by simpa using hn), h [c] (by simpa using Ne.symm hc),
    if_neg (by simp)]

/-- Where the cut takes nothing from the tokens, only bare keys stand in the way. -/
theorem faithful_iff_of_separator (hp : cstr buf = pre ++ [c]) (hc : c = '\n' ∨ c = ',') :
    Faithful buf ↔ CleanPacket buf := by
  have hne : ∀ t ∈ strtokAll ',' pre, t ≠ [] := fun t ht => ne_nil_of_mem_strtokAll ht
  have hlast : (cstr buf).getLast? = some c := by rw [hp, List.getLast?_concat]
  rw [Faithful, packetWrites_of_cstr hp, packetTokens_of_separator hp hc, parseWrites_eq_iff hne]
  constructor
  · intro h
    refine ⟨by rw [hp]; simp, Or.inl ⟨by rwa [hp, List.dropLast_concat], ?_⟩⟩
    rw [hlast]
    rcases hc with rfl | rfl
    · exact Or.inl rfl
    · exact Or.inr (Or.inl rfl)
  · rintro ⟨-, ⟨h, -⟩ | ⟨ts, k, heq, -⟩⟩
    · rwa [hp, List.dropLast_concat] at h
    · rw [hlast] at heq
      rcases hc with rfl | rfl <;> exact absurd heq (by decide)

/-- Where the cut shortens a token that says nothing, again only bare keys stand in the way. -/
theorem faithful_iff_of_silent (hp : cstr buf = pre ++ [c]) {ts : List (List Char)} {u : List Char}
    (htok : packetTokens buf = ts ++ [u ++ [c]])
    (hpre : strtokAll ',' pre = ts ++ if u = [] then [] else [u])
    (hsilent : tokenPair (u ++ [c]) = none) : Faithful buf ↔ CleanPacket buf := by
  have hne : ∀ t ∈ strtokAll ',' pre, t ≠ [] := fun t ht => ne_nil_of_mem_strtokAll ht
  have hu : tokenPair u = none := by
    rw [Option.eq_none_iff_forall_ne_some]
    rintro ⟨k, v⟩ h
    rw [tokenPair_append h] at hsilent
    exact absurd hsilent (by simp)
  have hsame : (packetTokens buf).filterMap tokenPair
      = (strtokAll ',' pre).filterMap tokenPair := by
    rw [htok, hpre, List.filterMap_append, List.filterMap_append, filterMap_one, hsilent]
    split <;> simp [hu]
  rw [Faithful, packetWrites_of_cstr hp, hsame, parseWrites_eq_iff hne]
  constructor
  · intro h
    refine ⟨by rw [hp]; simp, Or.inl ⟨by rwa [hp, List.dropLast_concat], Or.inr (Or.inr ?_)⟩⟩
    rw [htok, List.getLast?_concat]
    simpa using hsilent
  · rintro ⟨-, ⟨h, -⟩ | ⟨ts', k, -, htok', -⟩⟩
    · rwa [hp, List.dropLast_concat] at h
    · rw [htok, List.append_singleton_inj] at htok'
      rw [htok'.2, tokenPair_eq_some_iff.mpr (show k.name ++ ['='] = k.name ++ '=' :: [] from rfl)]
        at hsilent
      exact absurd hsilent (by simp)

/-- Where the cut shortens the value of a `KEY=value` token, another value is read. -/
theorem not_faithful_of_value (hp : cstr buf = pre ++ [c]) {ts : List (List Char)} {u v : List Char}
    {k : Key} (htok : packetTokens buf = ts ++ [u ++ [c]])
    (hpre : strtokAll ',' pre = ts ++ if u = [] then [] else [u])
    (hu : tokenPair u = some (k, v)) : ¬ Faithful buf := by
  have hune : u ≠ [] := by
    rintro rfl
    simp [tokenPair] at hu
  have hnb : ¬ BareKey u := by
    intro hb
    rw [tokenPair_of_bareKey hb] at hu
    exact absurd hu (by simp)
  rw [Faithful, packetWrites_of_cstr hp, htok, hpre, if_neg hune, parseWrites_append,
    List.filterMap_append, filterMap_one, tokenPair_append hu]
  intro h
  obtain ⟨w, hw, hfst⟩ := Option.map_eq_some_iff.mp h
  obtain ⟨x, hx, hy⟩ := Option.bind_eq_some_iff.mp hw
  obtain ⟨g, hg, -⟩ := tokenWrite_of_not_bareKey hune hnb x.2
  rw [parseWrites, hg, hu] at hy
  obtain rfl := Option.some.inj hy
  -- the last assignment has the shortened value
  have hlast := congrArg List.getLast? hfst
  simp at hlast

/-- Such a packet is not clean either: its last token says something, and more than `KEY=`. -/
theorem not_cleanPacket_of_value (hp : cstr buf = pre ++ [c]) (hn : c ≠ '\n') (hc : c ≠ ',')
    {ts : List (List Char)} {u v : List Char} {k : Key}
    (htok : packetTokens buf = ts ++ [u ++ [c]]) (hu : tokenPair u = some (k, v)) :
    ¬ CleanPacket buf := by
  have hlast : (cstr buf).getLast? = some c := by rw [hp, List.getLast?_concat]
  rintro ⟨-, ⟨-, h | h | h⟩ | ⟨ts', k', -, htok', -⟩⟩
  · exact hn (Option.some.inj (hlast.symm.trans h))
  · exact hc (Option.some.inj (hlast.symm.trans h))
  · rw [htok, List.getLast?_concat] at h
    have hnone := h (u ++ [c]) rfl
    rw [tokenPair_append hu] at hnone
    exact absurd hnone (by simp)
  · rw [htok, List.append_singleton_inj] at htok'
    obtain ⟨rfl, -⟩ := List.append_singleton_inj.mp htok'.2
    rw [tokenPair_of_bareKey (by rw [BareKey, Key.ofName_name]; rfl)] at hu
    exact absurd hu (by simp)

/-- Where the cut makes a bare key of `KEY=`, the value left behind has to be empty too. -/
theorem faithful_iff_of_bareKey (hp : cstr buf = pre ++ ['=']) {ts : List (List Char)} {k : Key}
    (htok : packetTokens buf = ts ++ [k.name ++ ['=']])
    (hpre : strtokAll ',' pre = ts ++ [k.name]) : Faithful buf ↔ CleanPacket buf := by
  have hpair : tokenPair (k.name ++ ['=']) = some (k, []) := tokenPair_eq_some_iff.mpr rfl
  have hne : ∀ t ∈ strtokAll ',' pre, t ≠ [] := fun t ht => ne_nil_of_mem_strtokAll ht
  have hnets : ∀ t ∈ ts, t ≠ [] := fun t ht => hne t (by rw [hpre]; simp [ht])
  have hbare : BareKey k.name := by rw [BareKey, Key.ofName_name]; rfl
  have hlast : (cstr buf).getLast? = some '=' := by rw [hp, List.getLast?_concat]
  rw [Faithful, packetWrites_of_cstr hp, htok, hpre, List.filterMap_append,
    filterMap_one, hpair]
  constructor
  · intro h
    obtain ⟨w, hw, hfst⟩ := Option.map_eq_some_iff.mp h
    -- the cut token makes its one assignment, so no other bare key has room
    have hlen := length_parseWrites (by rw [← hpre]; exact hne) hw
    rw [hfst, List.filterMap_append, filterMap_one, tokenPair_of_bareKey hbare,
      List.countP_append, List.countP_singleton, if_pos (by simpa using hbare)] at hlen
    have hnb : ∀ t ∈ ts, ¬ BareKey t := by
      have hzero : ts.countP BareKey = 0 := by
        simp only [Option.toList_some, Option.toList_none, List.length_append, List.length_cons,
          List.length_nil] at hlen
        omega
      simpa using List.countP_eq_zero.mp hzero
    obtain ⟨g, hg, hgv⟩ := parseWrites_of_noBareKey hnets hnb ⟨none, none⟩
    rw [Option.or_none] at hgv
    rw [parseWrites_append, hg, Option.bind_some, parseWrites,
      tokenWrite_bareKey (Key.ofName_name k), hgv] at hw
    refine ⟨by rw [hp]; simp, Or.inr ⟨ts, k, hlast, htok, hnb, ?_⟩⟩
    cases hv : (ts.filterMap tokenValue).getLast? with
    | none => simp [hv] at hw
    | some v =>
        rw [hv] at hw
        obtain rfl := Option.some.inj hw
        simpa using hfst
  · rintro ⟨-, ⟨h, -⟩ | ⟨ts', k', -, htok', hnb, hv⟩⟩
    · rw [hp, List.dropLast_concat, hpre] at h
      exact absurd hbare (h k.name (by simp))
    · rw [htok, List.append_singleton_inj] at htok'
      obtain ⟨rfl, -⟩ := htok'
      obtain ⟨g, hg, hgv⟩ := parseWrites_of_noBareKey hnets hnb ⟨none, none⟩
      rw [Option.or_none, hv] at hgv
      rw [parseWrites_append, hg, Option.bind_some, parseWrites,
        tokenWrite_bareKey (Key.ofName_name k), hgv]
      rfl

/-- **The packets that are read faithfully.** -/
theorem faithful_iff (buf : List Char) : Faithful buf ↔ CleanPacket buf := by
  rcases List.eq_nil_or_concat (cstr buf) with hnil | ⟨pre, c, hp⟩
  · simp [Faithful, CleanPacket, packetWrites, cutLast, hnil]
  · rw [List.concat_eq_append] at hp
    by_cases hsep : c = '\n' ∨ c = ','
    · exact faithful_iff_of_separator hp hsep
    · obtain ⟨hn, hc⟩ := not_or.mp hsep
      obtain ⟨ts, u, htok, hpre⟩ := packetTokens_of_ne hp hn hc
      cases hpair : tokenPair (u ++ [c]) with
      | none => exact faithful_iff_of_silent hp htok hpre hpair
      | some w =>
          obtain ⟨k, v⟩ := w
          have htoken := tokenPair_eq_some_iff.mp hpair
          -- what the cut takes is the `=` itself or the end of the value
          rcases List.eq_nil_or_concat v with rfl | ⟨v, e, rfl⟩
          · obtain ⟨rfl, rfl⟩ := List.append_singleton_inj.mp htoken
            rw [if_neg k.name_ne_nil] at hpre
            exact faithful_iff_of_bareKey hp htok hpre
          · rw [List.concat_eq_append, ← List.cons_append, ← List.append_assoc,
              List.append_singleton_inj] at htoken
            obtain ⟨rfl, rfl⟩ := htoken
            have hu : tokenPair (k.name ++ '=' :: v) = some (k, v) := tokenPair_eq_some_iff.mpr rfl
            exact iff_of_false (not_faithful_of_value hp htok hpre hu)
              (not_cleanPacket_of_value hp hn hc htok hu)

end Cut

/-! ## What the flight data holds afterwards -/

section Result

variable {R : Type}

/-- Flight data is determined by its fields. -/
theorem FgData.ext_get {d e : FgData R} (h : ∀ k, d.get k = e.get k) : d = e := by
  have h1 := h .com1Frq
  have h2 := h .com2Frq
  have h3 := h .nav1Frq
  have h4 := h .nav2Frq
  have h5 := h .ptt
  have h6 := h .transponder
  have h7 := h .ias
  have h8 := h .gs
  have h9 := h .lon
  have h10 := h .lat
  have h11 := h .alt
  have h12 := h .head
  have h13 := h .com1Srv
  have h14 := h .com2Srv
  have h15 := h .nav1Srv
  have h16 := h .nav2Srv
  cases d
  cases e
  simp_all [FgData.get]

variable [CFloat R]

/-- **The law of a packet**: whatever the struct held before, each field holds the conversion of the
last value the packet gives its key, and is unchanged when the packet gives it none. -/
def MeansWhatItSays (R : Type) [CFloat R] (buf : List Char) : Prop :=
  ∀ d : FgData R, ∃ e, parsePacket d buf = some e ∧
    ∀ k, e.get k
      = match lastValue (packetTokens buf) k with
        | some v => k.convert v
        | none => d.get k

/-- When the last assignment to each key converts like the last value the packet gives the key, the
packet means what it says. -/
theorem meansWhatItSays_of_writes {buf : List Char} {ws : List (Key × List Char)}
    (hws : packetWrites buf = some ws)
    (hsame : ∀ k : Key, (lastWritten ws k).map (k.convert : _ → Value R)
      = (lastValue (packetTokens buf) k).map k.convert) : MeansWhatItSays R buf := by
  intro d
  refine ⟨applyWrites d ws, by rw [parsePacket_eq_writes, hws, Option.map_some], fun k => ?_⟩
  rw [get_applyWrites, hsame]
  cases lastValue (packetTokens buf) k <;> rfl

/-- **A faithful packet means what it says.** -/
theorem meansWhatItSays_of_faithful {buf : List Char} (h : Faithful buf) : MeansWhatItSays R buf :=
  meansWhatItSays_of_writes h fun _ => rfl

/-- Two optional values are the same when they are the same with every default of a family that
avoids any given value. -/
theorem eq_of_getD_eq {α ι : Type} {o o' : Option α} {g : ι → α} (hg : ∀ x, ∃ i, g i ≠ x)
    (h : ∀ i, o.getD (g i) = o'.getD (g i)) : o = o' := by
  cases o with
  | none =>
      cases o' with
      | none => rfl
      | some x =>
          obtain ⟨i, hi⟩ := hg x
          exact absurd (h i) hi
  | some y =>
      obtain ⟨i, hi⟩ := hg y
      cases o' with
      | none => exact absurd (h i).symm hi
      | some x => exact congrArg some (h i)

/-- A field can hold something else than a given value. -/
theorem FgData.exists_get_ne [Nontrivial R] (k : Key) (x : Value R) :
    ∃ d : FgData R, d.get k ≠ x := by
  obtain ⟨r, hr⟩ : ∃ r : R, Value.real r ≠ x := by
    cases x with
    | real y => exact (exists_ne y).imp fun r hr h => hr (Value.real.inj h)
    | int n => exact ⟨CFloat.lit 0, nofun⟩
  obtain ⟨n, hn⟩ : ∃ n : ℤ, (Value.int n : Value R) ≠ x := by
    cases x with
    | real y => exact ⟨0, nofun⟩
    | int m => exact (exists_ne m).imp fun n hn h => hn (Value.int.inj h)
  refine ⟨⟨r, r, r, r, n, n, n, n, n, n, r, r, r, r, n, r⟩, ?_⟩
  cases k <;> assumption

/-- **What the law asks of the assignments**: it holds exactly when the parser comes to the end of
the packet and the last assignment to each key converts like the last value the packet gives the
key. A packet that is not faithful can meet it only by coincidence, as `PTT=1x` without its last
character does. -/
theorem meansWhatItSays_iff [Nontrivial R] (buf : List Char) :
    MeansWhatItSays R buf ↔
      ∃ ws, packetWrites buf = some ws ∧
        ∀ k : Key, (lastWritten ws k).map (k.convert : _ → Value R)
          = (lastValue (packetTokens buf) k).map k.convert := by
  constructor
  · intro hlaw
    have hend : (packetWrites buf).isSome := by
      obtain ⟨e, he, -⟩ := hlaw FgData.zero
      rw [parsePacket_eq_writes] at he
      exact Option.isSome_map.symm.trans (Option.isSome_iff_exists.mpr ⟨e, he⟩)
    obtain ⟨ws, hws⟩ := Option.isSome_iff_exists.mp hend
    have hget : ∀ (d : FgData R) (k : Key),
        ((lastWritten ws k).map k.convert).getD (d.get k)
          = ((lastValue (packetTokens buf) k).map k.convert).getD (d.get k) := by
      intro d k
      obtain ⟨e, he, hek⟩ := hlaw d
      rw [parsePacket_eq_writes, hws, Option.map_some] at he
      rw [← get_applyWrites, Option.some.inj he, hek]
      cases lastValue (packetTokens buf) k <;> rfl
    -- a field that only one side assigns can have held another value
    exact ⟨ws, hws, fun k => eq_of_getD_eq (FgData.exists_get_ne k) fun d => hget d k⟩
  · rintro ⟨ws, hws, hsame⟩
    exact meansWhatItSays_of_writes hws hsame

/-- Of two packets that give every key the same last value, one of which means what it says, the
other has the same effect if and only if it means what it says as well. -/
theorem parsePacket_congr_iff {buf buf' : List Char} (h : MeansWhatItSays R buf)
    (hlast : ∀ k, lastValue (packetTokens buf') k = lastValue (packetTokens buf) k) :
    (∀ d : FgData R, parsePacket d buf' = parsePacket d buf) ↔ MeansWhatItSays R buf' := by
  constructor
  · intro heq d
    obtain ⟨e, he, hek⟩ := h d
    exact ⟨e, (heq d).trans he, fun k => by rw [hek, hlast]⟩
  · intro h' d
    obtain ⟨e, he, hek⟩ := h d
    obtain ⟨e', he', hek'⟩ := h' d
    rw [he, he']
    congr 1
    exact FgData.ext_get fun k => by rw [hek, hek', hlast]

/-- Where no key is given twice, the order of the tokens does not matter. -/
theorem lastValue_perm {ts us : List (List Char)} (hperm : us.Perm ts)
    (hkeys : ((ts.filterMap tokenPair).map Prod.fst).Nodup) (k : Key) :
    lastValue us k = lastValue ts k := by
  have hfilter := (hperm.filterMap tokenPair).filter fun w => decide (w.1 = k)
  have hcount : ((ts.filterMap tokenPair).filter fun w => w.1 = k).length ≤ 1 := by
    have h := List.nodup_iff_count.mp hkeys k
    rw [List.count_eq_countP, List.countP_map, List.countP_eq_length_filter] at h
    exact h
  rw [lastValue, lastValue]
  cases hw : (ts.filterMap tokenPair).filter fun w => w.1 = k with
  | nil => rw [hw, List.perm_nil] at hfilter; rw [hfilter]
  | cons w ws =>
      rw [hw, List.length_cons] at hcount
      obtain rfl : ws = [] := List.length_eq_zero_iff.mp (by omega)
      rw [hw, List.perm_singleton] at hfilter
      rw [hfilter]

/-- Two packets that should have the same effect: they have the same tokens, as with and without a
final newline, or the same in another order, and no key twice. -/
def SaysTheSame (buf buf' : List Char) : Prop :=
  packetTokens buf' = packetTokens buf ∨
    (packetTokens buf').Perm (packetTokens buf) ∧
      (((packetTokens buf).filterMap tokenPair).map Prod.fst).Nodup

/-- They give every key the same last value. -/
theorem SaysTheSame.lastValue_eq {buf buf' : List Char} (h : SaysTheSame buf buf') (k : Key) :
    lastValue (packetTokens buf') k = lastValue (packetTokens buf) k := by
  rcases h with htok | ⟨hperm, hkeys⟩
  · rw [htok]
  · exact lastValue_perm hperm hkeys k

/-- A text says the same with and without a newline behind it. -/
theorem saysTheSame_newline {text : List Char} (hnul : '\x00' ∉ text)
    (hlast : text.getLast? ≠ some '\n') : SaysTheSame (text ++ ['\n']) text := by
  have hcstr : ∀ s : List Char, '\x00' ∉ s → cstr s = s := by
    intro s hs
    rw [cstr, List.takeWhile_eq_self_iff]
    exact fun c hc => by simpa using fun h : c = '\x00' => hs (h ▸ hc)
  have hnul' : '\x00' ∉ text ++ ['\n'] := by simpa using hnul
  left
  rw [packetTokens, packetTokens, packetText, packetText, hcstr text hnul, hcstr _ hnul',
    if_neg hlast, List.getLast?_concat, if_pos rfl, List.dropLast_concat]

/-! ## What `parse_fgdata` makes of a packet -/

/-- **`parse_fgdata` means what the packet says, for the packets of `CleanPacket` and no others.**
The assignments made are those of the `KEY=value` tokens exactly when the packet is clean. Then each
field named by a key holds the conversion of the last value given for it and is unchanged when there
is none. Another packet that says the same, with the tokens of distinct keys in another order or
with or without a final newline, has the same effect exactly when it means what it says, too, which
it does if it is clean. -/
theorem parseFgdata_meaning (R : Type) [CFloat R] (buf : List Char) :
    (Faithful buf ↔ CleanPacket buf) ∧
      (CleanPacket buf → MeansWhatItSays R buf ∧
        ∀ buf', SaysTheSame buf buf' →
          (CleanPacket buf' → MeansWhatItSays R buf') ∧
            ((∀ d : FgData R, parsePacket d buf' = parsePacket d buf) ↔ MeansWhatItSays R buf')) ∧
      ∀ text, '\x00' ∉ text → text.getLast? ≠ some '\n' → SaysTheSame (text ++ ['\n']) text := by
  have hmeans : ∀ buf, CleanPacket buf → MeansWhatItSays R buf := fun buf hclean =>
    meansWhatItSays_of_faithful ((faithful_iff buf).mpr hclean)
  refine ⟨faithful_iff buf, fun hclean => ⟨hmeans buf hclean, fun buf' hsame => ?_⟩,
    fun text => saysTheSame_newline⟩
  exact ⟨hmeans buf', parsePacket_congr_iff (hmeans buf hclean) hsame.lastValue_eq⟩

/-- **The law fails as stated**: in `COM1_FRQ=118.5,PTT` the bare key sets the push-to-talk field
from the frequency's text, and `PTT=1` without a final newline loses its value. -/
theorem parseFgdata_bare_key_and_missing_newline :
    lastValue (packetTokens "COM1_FRQ=118.5,PTT\n".toList) .ptt = none ∧
      (parsePacket (FgData.zero : FgData ℚ) "COM1_FRQ=118.5,PTT\n".toList).map FgData.ptt
        = some 118 ∧
      lastValue (packetTokens "PTT=1".toList) .ptt = some ['1'] ∧
      (parsePacket (FgData.zero : FgData ℚ) "PTT=1".toList).map FgData.ptt = some 0 := by
  decide +kernel

end Result

end Fgcom
