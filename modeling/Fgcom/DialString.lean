import Fgcom.Client
import Mathlib.Data.List.TakeWhile

/-! # The dial string and back

`do_iaxc_call` writes `user:password@host/number` into a buffer, and `iax_call` takes the string
apart again with `strtok`. Nothing is escaped on the way.

* **`iaxCall`** — the parts `iax_call` finds in a string.
* **`ComesOut`** — what went into the dial string comes out of it.
* **`dial_string_comes_out_iff`** — it does exactly for texts without separators that leave the
  number its place in the buffer. -/

namespace Fgcom

/-! ## Taking a dial string apart -/

/-- What `iax_call` reads off its string: `none` is a null pointer. The number stands for `exten`
and `dnid`, which are the same. -/
structure CallParts where
  username : Option (List Char)
  secret : Option (List Char)
  hostname : List Char
  portno : ℤ
  exten : Option (List Char)
  context : Option (List Char)
  deriving DecidableEq

/-- `IAX_DEFAULT_PORTNO`. -/
def iaxDefaultPortno : ℤ := 4569

/-- The first part at its `@`: user and host. Without a second token the host is a null pointer,
which goes to `strchr`. -/
def splitUser (part1 : List Char) : Option (Option (List Char) × List Char) :=
  if '@' ∈ part1 then
    (strtokAll '@' part1)[1]?.map fun hostname => ((strtokAll '@' part1)[0]?, hostname)
  else some (none, part1)

/-- The user at its `:`, with the password behind. -/
def splitSecret (username : Option (List Char)) : Option (List Char) × Option (List Char) :=
  match username with
  | none => (none, none)
  | some username =>
      if ':' ∈ username then ((strtokAll ':' username)[0]?, (strtokAll ':' username)[1]?)
      else (some username, none)

/-- The host at its `:`. `strtok` cuts it in place, behind the first token; the pointer still stands
at the front, in front of any leading `:`. A missing port goes to `atoi` as a null pointer. -/
def splitPort (hostname : List Char) : Option (List Char × ℤ) :=
  if ':' ∈ hostname then
    (strtokAll ':' hostname)[1]?.map fun port =>
      (hostname.takeWhile (· = ':') ++ (hostname.dropWhile (· = ':')).takeWhile (· ≠ ':'),
        atoi port)
  else some (hostname, iaxDefaultPortno)

/-- The parsing in `iax_call`, of the first 255 characters of the string. -/
def iaxCall (ich : List Char) : Option CallParts :=
  let parts := strtokAll '/' (ich.take 255)
  -- an empty first part goes to `strchr` as a null pointer
  match parts[0]? with
  | none => none
  | some part1 =>
      match splitUser part1 with
      | none => none
      | some (username, hostname) =>
          match splitPort hostname with
          | none => none
          | some (hostname, portno) =>
              some
                { username := (splitSecret username).1
                  secret := (splitSecret username).2
                  hostname
                  portno
                  exten := parts[1]?.bind fun part2 => (strtokAll '@' part2)[0]?
                  context := parts[1]?.bind fun part2 => (strtokAll '@' part2)[1]? }

/-! ## What is read is part of the string -/

/-- The stages of the parsing. -/
theorem iaxCall_eq_some {ich : List Char} {parts : CallParts} (h : iaxCall ich = some parts) :
    ∃ part1 username hostname,
      (strtokAll '/' (ich.take 255))[0]? = some part1 ∧
      splitUser part1 = some (username, hostname) ∧
      splitSecret username = (parts.username, parts.secret) ∧
      splitPort hostname = some (parts.hostname, parts.portno) ∧
      parts.exten
        = (strtokAll '/' (ich.take 255))[1]?.bind fun part2 => (strtokAll '@' part2)[0]? := by
  unfold iaxCall at h
  simp only at h
  split at h
  · simp at h
  · rename_i part1 hpart1
    split at h
    · simp at h
    · rename_i username hostname huser
      split at h
      · simp at h
      · rename_i hostname' portno hport
        obtain rfl := Option.some.inj h
        exact ⟨part1, username, hostname, hpart1, huser, rfl, hport, rfl⟩

/-- A user and a host are tokens between `@`. -/
theorem mem_of_splitUser {part1 hostname user : List Char}
    (h : splitUser part1 = some (some user, hostname)) :
    user ∈ strtokAll '@' part1 ∧ hostname ∈ strtokAll '@' part1 := by
  unfold splitUser at h
  split at h
  · obtain ⟨host, hhost, heq⟩ := Option.map_eq_some_iff.mp h
    obtain ⟨huser, rfl⟩ := Prod.mk.inj heq
    exact ⟨List.mem_of_getElem? huser, List.mem_of_getElem? hhost⟩
  · simp at h

/-- A user with a password: both are tokens between `:`. -/
theorem mem_of_splitSecret {username : Option (List Char)} {user secret : List Char}
    (h : splitSecret username = (some user, some secret)) :
    ∃ text, username = some text ∧ user ∈ strtokAll ':' text ∧ secret ∈ strtokAll ':' text := by
  unfold splitSecret at h
  split at h
  · simp at h
  · rename_i text
    split at h
    · obtain ⟨huser, hsecret⟩ := Prod.mk.inj h
      exact ⟨text, rfl, List.mem_of_getElem? huser, List.mem_of_getElem? hsecret⟩
    · simp at h

/-- The host without its port is made of characters of the host. -/
theorem subset_of_splitPort {hostname host : List Char} {portno : ℤ}
    (h : splitPort hostname = some (host, portno)) : ∀ c ∈ host, c ∈ hostname := by
  intro c hc
  unfold splitPort at h
  split at h
  · obtain ⟨port, -, heq⟩ := Option.map_eq_some_iff.mp h
    obtain ⟨rfl, -⟩ := Prod.mk.inj heq
    rcases List.mem_append.mp hc with hc | hc
    · exact List.takeWhile_subset _ hc
    · exact List.dropWhile_subset _ (List.takeWhile_subset _ hc)
  · obtain ⟨rfl, -⟩ := Prod.mk.inj (Option.some.inj h)
    exact hc

/-- A host that keeps its text has no `:`: with one, a port is cut off. -/
theorem colon_notMem_of_splitPort {hostname : List Char} {portno : ℤ}
    (h : splitPort hostname = some (hostname, portno)) : ':' ∉ hostname := by
  intro hcolon
  unfold splitPort at h
  rw [if_pos hcolon] at h
  obtain ⟨port, hport, heq⟩ := Option.map_eq_some_iff.mp h
  obtain ⟨hsame, -⟩ := Prod.mk.inj heq
  have hsplit : hostname.takeWhile (· = ':') ++ hostname.dropWhile (· = ':') = hostname :=
    List.takeWhile_append_dropWhile
  generalize hlead : hostname.takeWhile (· = ':') = lead at hsame hsplit
  generalize hrest : hostname.dropWhile (· = ':') = rest at hsame hsplit
  -- behind its leading `:` the host has none, so there is no second token
  have hkeep : rest.takeWhile (· ≠ ':') = rest :=
    List.append_cancel_left (hsame.trans hsplit.symm)
  have hno : ':' ∉ rest := by
    intro hmem
    rw [← hkeep] at hmem
    simpa using List.mem_takeWhile_imp hmem
  have hlead' : ∀ c ∈ lead, c = ':' := by
    intro c hc
    rw [← hlead] at hc
    simpa using List.mem_takeWhile_imp hc
  rw [← hsplit, strtokAll_append_seps hlead', strtokAll_of_notMem hno] at hport
  split at hport
  · simp at hport
  · simp at hport

/-! ## The round trip -/

/-- A text that the option parser accepts: not empty, and a C string. -/
abbrev OptionText : Type := {s : List Char // s ≠ [] ∧ '\x00' ∉ s}

/-- A number as `icao2number` makes them for frequencies in range: 16 digits. -/
abbrev Number : Type := {s : List Char // s.length = 16 ∧ ∀ c ∈ s, c.isDigit = true}

/-- What goes into the dial string comes out of it: the user, the password, the host and the number
as `do_iaxc_call` rewrites it. -/
def ComesOut (username password voipserver number : List Char) : Prop :=
  ∃ parts, iaxCall (callDest username password voipserver number) = some parts ∧
    parts.username = some username ∧ parts.secret = some password ∧ parts.hostname = voipserver ∧
    parts.exten = some (rewriteNumber voipserver number)

/-- A text without the separators of a dial string. -/
def Plain (s : List Char) : Prop := '/' ∉ s ∧ '@' ∉ s ∧ ':' ∉ s

instance (s : List Char) : Decidable (Plain s) := inferInstanceAs (Decidable (_ ∧ _ ∧ _))

/-- The rewriting changes digits into digits. -/
theorem rewriteNumber_digits (voipserver : List Char) (number : Number) :
    (rewriteNumber voipserver number.val).length = 16 ∧
      ∀ c ∈ rewriteNumber voipserver number.val, c.isDigit = true := by
  obtain ⟨n, hlen, hdigits⟩ := number
  have hlast : ∀ d : Char, d.isDigit = true →
      (n.dropLast ++ [d]).length = 16 ∧ ∀ c ∈ n.dropLast ++ [d], c.isDigit = true := by
    intro d hd
    refine ⟨by simp [hlen], fun c hc => ?_⟩
    rcases List.mem_append.mp hc with hc | hc
    · exact hdigits c (List.dropLast_subset n hc)
    · rw [List.mem_singleton.mp hc]
      exact hd
  have hecho : ∀ m : List Char, (m.length = 16 ∧ ∀ c ∈ m, c.isDigit = true) →
      let m' := if m = "9990909090910000".toList then "0190909090910000".toList else m
      m'.length = 16 ∧ ∀ c ∈ m', c.isDigit = true := by
    intro m hm
    by_cases h : m = "9990909090910000".toList
    · rw [if_pos h]
      exact ⟨rfl, List.all_eq_true.mp rfl⟩
    · rw [if_neg h]
      exact hm
  unfold rewriteNumber
  apply hecho
  split_ifs
  · exact hlast '5' rfl
  · exact ⟨hlen, hdigits⟩
  · exact hlast '0' rfl
  · exact ⟨hlen, hdigits⟩
  · exact ⟨hlen, hdigits⟩

/-- Two texts without the separator between them are two tokens. -/
theorem strtokAll_pair {sep : Char} {a b : List Char} (ha : sep ∉ a) (hb : sep ∉ b) (hane : a ≠ [])
    (hbne : b ≠ []) : strtokAll sep (a ++ sep :: b) = [a, b] := by
  rw [strtokAll_append_cons, strtokAll_of_notMem ha, strtokAll_of_notMem hb, if_neg hane,
    if_neg hbne]
  rfl

/-- Digits are no separators. -/
theorem plain_of_digits {s : List Char} (h : ∀ c ∈ s, c.isDigit = true) : Plain s :=
  ⟨fun hc => absurd (h _ hc) (by decide), fun hc => absurd (h _ hc) (by decide),
    fun hc => absurd (h _ hc) (by decide)⟩

/-- **The way there**: plain texts that leave the number its place come out again. -/
theorem comesOut_of_plain {u p h : List Char} {number : Number} (hune : u ≠ []) (hpne : p ≠ [])
    (hhne : h ≠ []) (hu : Plain u) (hp : Plain p) (hh : Plain h)
    (hlen : u.length + p.length + h.length ≤ 236) : ComesOut u p h number.val := by
  obtain ⟨hrlen, hrdigits⟩ := rewriteNumber_digits h number
  have hdest : callDest u p h number.val
      = u ++ ':' :: p ++ '@' :: h ++ '/' :: rewriteNumber h number.val := by
    apply List.take_of_length_le
    simp only [List.length_append, List.length_cons, hrlen]
    omega
  generalize hr : rewriteNumber h number.val = r at hdest hrlen hrdigits
  have hrplain : Plain r := plain_of_digits hrdigits
  have hrne : r ≠ [] := by
    rintro rfl
    simp at hrlen
  -- the buffer of `iax_call` takes the whole string as well
  have htake : (callDest u p h number.val).take 255 = callDest u p h number.val := by
    rw [callDest, List.take_take]
    rfl
  have hslash : '/' ∉ u ++ ':' :: p ++ '@' :: h := by simp [hu.1, hp.1, hh.1]
  have hat : '@' ∉ u ++ ':' :: p := by simp [hu.2.1, hp.2.1]
  have hparts : strtokAll '/' (u ++ ':' :: p ++ '@' :: h ++ '/' :: r)
      = [u ++ ':' :: p ++ '@' :: h, r] := strtokAll_pair hslash hrplain.1 (by simp) hrne
  have huser : strtokAll '@' (u ++ ':' :: p ++ '@' :: h) = [u ++ ':' :: p, h] :=
    strtokAll_pair hat hh.2.1 (by simp) hhne
  have hsecret : strtokAll ':' (u ++ ':' :: p) = [u, p] :=
    strtokAll_pair hu.2.2 hp.2.2 hune hpne
  have hexten : strtokAll '@' r = [r] := by
    rw [strtokAll_of_notMem hrplain.2.1, if_neg hrne]
  have huserStage : splitUser (u ++ ':' :: p ++ '@' :: h) = some (some (u ++ ':' :: p), h) := by
    unfold splitUser
    rw [if_pos (by simp), huser]
    rfl
  have hsecretStage : splitSecret (some (u ++ ':' :: p)) = (some u, some p) := by
    show (if ':' ∈ u ++ ':' :: p then _ else _) = _
    rw [if_pos (by simp), hsecret]
    rfl
  have hportStage : splitPort h = some (h, iaxDefaultPortno) := if_neg hh.2.2
  refine ⟨⟨some u, some p, h, iaxDefaultPortno, some r, none⟩, ?_, rfl, rfl, rfl, by rw [hr]⟩
  unfold iaxCall
  rw [htake, hdest, hparts]
  simp only [List.getElem?_cons_zero, List.getElem?_cons_succ, huserStage, hsecretStage, hportStage,
    Option.bind_some, hexten]
  rfl

/-- A string cut off at the number, or in front of it, does not give the number. -/
theorem length_le_of_exten {a r : List Char} (ha : '/' ∉ a) (hane : a ≠ []) (hr : Plain r)
    (h : ((strtokAll '/' ((a ++ '/' :: r).take 255))[1]?.bind
      fun part2 => (strtokAll '@' part2)[0]?) = some r) :
    a.length + 1 + r.length ≤ 255 := by
  rcases Nat.lt_or_ge a.length 255 with hlt | hge
  · obtain ⟨k, hk⟩ : ∃ k, 255 - a.length = k + 1 := ⟨254 - a.length, by omega⟩
    have htake : (a ++ '/' :: r).take 255 = a ++ '/' :: r.take k := by
      rw [List.take_append, List.take_of_length_le hlt.le, hk, List.take_succ_cons]
    -- behind the separator stands what is left of the number
    have hrest : '/' ∉ r.take k ∧ '@' ∉ r.take k :=
      ⟨fun hc => hr.1 (List.mem_of_mem_take hc), fun hc => hr.2.1 (List.mem_of_mem_take hc)⟩
    rw [htake, strtokAll_append_cons, strtokAll_of_notMem ha, if_neg hane,
      strtokAll_of_notMem hrest.1] at h
    by_cases hempty : r.take k = []
    · simp [hempty] at h
    · have hall : r.take k = r := by
        simpa [hempty, strtokAll_of_notMem hrest.2] using h
      have hlen := congrArg List.length hall
      rw [List.length_take] at hlen
      omega
  · -- nothing of the number is left
    have htake : (a ++ '/' :: r).take 255 = a.take 255 := by
      rw [List.take_append, Nat.sub_eq_zero_of_le hge, List.take_zero, List.append_nil]
    have hno : '/' ∉ a.take 255 := fun hc => ha (List.mem_of_mem_take hc)
    rw [htake, strtokAll_of_notMem hno] at h
    split at h <;> simp at h

/-- In front of a host that is one token stands one token, and the host is taken whole. -/
theorem hostname_of_splitUser {t host hostname : List Char} {username : Option (List Char)}
    (ht : '@' ∉ t) (htne : t ≠ []) (hhost : '@' ∉ host) (hhne : host ≠ [])
    (h : splitUser (t ++ '@' :: host) = some (username, hostname)) : hostname = host := by
  have htokens := strtokAll_pair ht hhost htne hhne
  unfold splitUser at h
  rw [if_pos (by simp), htokens] at h
  simpa using (congrArg (Option.map Prod.snd) h).symm

/-- **The way back**: what comes out is plain and leaves the number its place. -/
theorem plain_of_comesOut {u p host : List Char} {number : Number} (hhne : host ≠ [])
    (h : ComesOut u p host number.val) :
    Plain u ∧ Plain p ∧ Plain host ∧ u.length + p.length + host.length ≤ 236 := by
  obtain ⟨hrlen, hrdigits⟩ := rewriteNumber_digits host number
  obtain ⟨parts, hparts, husername, hsecret, hhostname, hexten⟩ := h
  obtain ⟨part1, username, hostname, hpart1, huser, hsplit, hport, hexten'⟩ :=
    iaxCall_eq_some hparts
  rw [husername, hsecret] at hsplit
  rw [hhostname] at hport
  obtain ⟨text, rfl, hu, hp⟩ := mem_of_splitSecret hsplit
  obtain ⟨htext, hhost⟩ := mem_of_splitUser huser
  -- every part is a token of tokens, so it has none of the separators on its way
  obtain ⟨hslash, -⟩ := sep_notMem_of_mem_strtokAll (List.mem_of_getElem? hpart1)
  obtain ⟨hattext, hsubtext⟩ := sep_notMem_of_mem_strtokAll htext
  obtain ⟨hathost, hsubhost⟩ := sep_notMem_of_mem_strtokAll hhost
  have hplain : ∀ s ∈ strtokAll ':' text, Plain s := by
    intro s hs
    obtain ⟨hcolon, hsub⟩ := sep_notMem_of_mem_strtokAll hs
    exact ⟨fun hc => hslash (hsubtext _ (hsub _ hc)), fun hc => hattext (hsub _ hc), hcolon⟩
  have hsubport := subset_of_splitPort hport
  have hhslash : '/' ∉ host := fun hc => hslash (hsubhost _ (hsubport _ hc))
  have hhat : '@' ∉ host := fun hc => hathost (hsubport _ hc)
  have huplain := hplain u hu
  have hpplain := hplain p hp
  generalize hr : rewriteNumber host number.val = r at hexten hrlen hrdigits
  have hrplain : Plain r := plain_of_digits hrdigits
  have ha : '/' ∉ u ++ ':' :: p ++ '@' :: host := by simp [huplain.1, hpplain.1, hhslash]
  have hdest : (callDest u p host number.val).take 255
      = (u ++ ':' :: p ++ '@' :: host ++ '/' :: r).take 255 := by
    rw [callDest, List.take_take, hr]
    rfl
  -- the number came out whole, so nothing was cut off
  have hlen : (u ++ ':' :: p ++ '@' :: host).length + 1 + r.length ≤ 255 := by
    rw [hexten, hdest] at hexten'
    exact length_le_of_exten ha (by simp) hrplain hexten'.symm
  have hwhole : (u ++ ':' :: p ++ '@' :: host ++ '/' :: r).take 255
      = u ++ ':' :: p ++ '@' :: host ++ '/' :: r := by
    apply List.take_of_length_le
    rw [List.length_append, List.length_cons]
    omega
  have hrne : r ≠ [] := by
    rintro rfl
    simp at hrlen
  -- with all of it there, the host is the last token of the first part
  have hsame : hostname = host := by
    have hat : '@' ∉ u ++ ':' :: p := by simp [huplain.2.1, hpplain.2.1]
    rw [hdest, hwhole, strtokAll_pair ha hrplain.1 (by simp) hrne] at hpart1
    obtain rfl := Option.some.inj hpart1
    exact hostname_of_splitUser hat (by simp) hhat hhne huser
  subst hsame
  refine ⟨huplain, hpplain, ⟨hhslash, hhat, colon_notMem_of_splitPort hport⟩, ?_⟩
  simp only [List.length_append, List.length_cons, hrlen] at hlen
  omega

/-- **When the dial string gives back what went into it**: user, password and host have none of the
separators and together at most 236 characters, which leaves the number its place. -/
theorem dial_string_comes_out_iff (username password voipserver : OptionText) (number : Number) :
    ComesOut username.val password.val voipserver.val number.val ↔
      (Plain username.val ∧ Plain password.val ∧ Plain voipserver.val) ∧
        username.val.length + password.val.length + voipserver.val.length ≤ 236 := by
  constructor
  · intro h
    obtain ⟨hu, hp, hh, hlen⟩ := plain_of_comesOut voipserver.property.1 h
    exact ⟨⟨hu, hp, hh⟩, hlen⟩
  · rintro ⟨⟨hu, hp, hh⟩, hlen⟩
    exact comesOut_of_plain username.property.1 password.property.1 voipserver.property.1 hu hp hh
      hlen

/-- **A password that does not come out**: what stands behind its `@` is taken for the host. -/
theorem dial_string_password_lost :
    let dest := callDest "pilot".toList "p@ss".toList "fgcom.flightgear.org".toList
      "0190909090118500".toList
    (∃ parts ∈ iaxCall dest, parts.secret = some "p".toList ∧ parts.hostname = "ss".toList) ∧
      ¬ ComesOut "pilot".toList "p@ss".toList "fgcom.flightgear.org".toList
        "0190909090118500".toList := by
  refine ⟨by decide +kernel, ?_⟩
  rintro ⟨parts, hparts, -, hsecret, -, -⟩
  have hread : (iaxCall (callDest "pilot".toList "p@ss".toList "fgcom.flightgear.org".toList
      "0190909090118500".toList)).map CallParts.secret = some (some "p".toList) := by
    decide +kernel
  rw [hparts, Option.map_some, hsecret] at hread
  exact absurd hread (by decide)

end Fgcom
