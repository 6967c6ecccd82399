import Fgcom.Phonebook.KnownNumbers

/-! # One channel, one extension

A channel has several spellings: its base frequency and the aliases 5 kHz beside it, and a server
may have the last digit rewritten. The three pieces that treat them (the generator's alias lines,
the client's lookup, the rewriting in `do_iaxc_call`) are put together here:

* **`Directory`** — tables of airports whose bases end in 00, 25, 50 or 75 kHz.
* **`Leads`** — where following `Dial(Local/...)` from a number ends.
* **`alias_group_meets`** — every spelling of a channel, through every server, has exactly one
  first line in fgcom.conf and leads to the extension of the base. -/

namespace Fgcom

open DecimalText Phonebook

/-- Following `Dial(Local/...)` from a number leads to an extension that dials no further. -/
inductive Leads (conf : List ConfLine) : List Char → List Char → Prop
  | here {l : ConfLine} (hl : l ∈ conf) (hprio : l.priority = .first)
      (happ : ∀ n, l.app ≠ .dialLocal n) : Leads conf l.exten l.exten
  | dial {l : ConfLine} {target last : List Char} (hl : l ∈ conf) (hprio : l.priority = .first)
      (happ : l.app = .dialLocal target) (hrest : Leads conf target last) :
      Leads conf l.exten last

/-- Tables whose airports have codes of at most four characters, none of them `ZZZZ`, and base
frequencies ending in 00, 25, 50 or 75 kHz, where no VOR has a code and frequency of a line of an
airport. -/
structure Directory where
  order : KeyOrder
  apt : Hash AptEntry
  nav : Hash NavEntry
  code : ∀ a e, apt.lookup a = some e → CodeText a ∧ a.length ≤ 4 ∧ a ≠ "ZZZZ".toList
  base : ∀ a e f type, apt.lookup a = some e → e.com.lookup f = some type →
    ∃ b, f = mhzText b ∧ b % 25 = 0
  vor : ∀ v e, nav.lookup v = some e → CodeText v ∧ ∃ n, e.frq = mhzText (10 * n)
  apart : ∀ a e f type v e', apt.lookup a = some e → e.com.lookup f = some type →
    nav.lookup v = some e' → ∀ p ∈ airportPositions a e f type, ¬ (p.code = v ∧ p.frq = e'.frq)

/-- The `exten` lines written for a directory. -/
def Directory.extensions (d : Directory) : List ConfLine :=
  Phonebook.extensions d.order d.apt d.nav

/-- The directory of the tables that one run of the script reads. -/
def Directory.ofScan (order : KeyOrder) (aptLines navLines : List (List Char))
    (code : ∀ x ∈ (scanApt aptLines).apt.entries, x.1.length ≤ 4 ∧ x.1 ≠ "ZZZZ".toList)
    (base : ∀ x ∈ (scanApt aptLines).apt.entries, ∀ y ∈ x.2.com.entries, ssf y.1 % 25 = 0)
    (apart : ∀ x ∈ (scanApt aptLines).apt.entries, ∀ y ∈ x.2.com.entries,
      ∀ z ∈ (scanNav navLines).entries, ∀ p ∈ airportPositions x.1 x.2 y.1 y.2,
        ¬ (p.code = z.1 ∧ p.frq = z.2.frq)) : Directory where
  order := order
  apt := (scanApt aptLines).apt
  nav := scanNav navLines
  code := fun a e he =>
    ⟨(soundApt_scan aptLines a e he).1, code ⟨a, e⟩ (AList.mem_lookup_iff.mp he)⟩
  base := by
    intro a e f type he htype
    obtain ⟨⟨b, rfl, -⟩, -⟩ := (soundApt_scan aptLines a e he).2.com f type htype
    have hssf := base ⟨a, e⟩ (AList.mem_lookup_iff.mp he) ⟨_, type⟩ (AList.mem_lookup_iff.mp htype)
    rw [ssf_mhzText] at hssf
    exact ⟨b, rfl, by omega⟩
  vor := fun v e he =>
    ⟨(soundNav_scan navLines v e he).1, (soundNav_scan navLines v e he).2.frq⟩
  apart := fun a e f type v e' he htype he' =>
    apart ⟨a, e⟩ (AList.mem_lookup_iff.mp he) ⟨f, type⟩ (AList.mem_lookup_iff.mp htype) ⟨v, e'⟩
      (AList.mem_lookup_iff.mp he')

/-- A base of an airport of the directory ends in 00, 25, 50 or 75 kHz. -/
theorem Directory.base_mod (d : Directory) {a : List Char} {b : ℕ} (h : HasBase d.apt a b) :
    b % 25 = 0 := by
  obtain ⟨e, type, he, htype⟩ := h
  obtain ⟨c, hc, hmod⟩ := d.base a e _ type he htype
  rw [mhzText_injective hc]
  exact hmod

/-- A base and an alias of it belong to no other base. -/
theorem base_unique {b c k : ℕ} (hb : b % 25 = 0) (hc : c % 25 = 0) (hkb : k = b ∨ IsAlias b k)
    (hkc : k = c ∨ IsAlias c k) : b = c := by
  unfold IsAlias at hkb hkc
  omega

/-- The rewriting of `do_iaxc_call` stays within the base and its aliases. -/
theorem serverKhz_group {b t : ℕ} (voipserver : List Char) (hb : b % 25 = 0)
    (ht : t = b ∨ IsAlias b t) :
    serverKhz voipserver t = b ∨ IsAlias b (serverKhz voipserver t) := by
  unfold serverKhz
  unfold IsAlias at ht ⊢
  split
  · split <;> omega
  · split
    · split <;> omega
    · omega

/-- The members of a list that a property singles out all come from one element. -/
theorem countP_flatMap_of_unique {α β : Type} {l : List α} {a : α} {g : α → List β} {p : β → Bool}
    (hl : l.Nodup) (ha : a ∈ l) (h : ∀ x ∈ l, x ≠ a → ∀ y ∈ g x, ¬ p y = true) :
    (l.flatMap g).countP p = (g a).countP p := by
  obtain ⟨pre, post, rfl⟩ := List.append_of_mem ha
  have hpre : (pre.flatMap g).countP p = 0 := by
    rw [List.countP_eq_zero]
    intro y hy
    obtain ⟨x, hx, hy⟩ := List.mem_flatMap.mp hy
    refine h x (List.mem_append_left _ hx) ?_ y hy
    rintro rfl
    exact (List.nodup_append.mp hl).2.2 x hx x List.mem_cons_self rfl
  have hpost : (post.flatMap g).countP p = 0 := by
    rw [List.countP_eq_zero]
    intro y hy
    obtain ⟨x, hx, hy⟩ := List.mem_flatMap.mp hy
    refine h x (List.mem_append_right _ (List.mem_cons_of_mem a hx)) ?_ y hy
    rintro rfl
    exact (List.nodup_cons.mp (List.nodup_append.mp hl).2.1).1 hx
  rw [List.flatMap_append, List.flatMap_cons, List.countP_append, List.countP_append, hpre, hpost]
  omega

/-- A list made of parts is without repetition when each part is and its members tell which part
they belong to. -/
theorem nodup_flatMap_of_key {α β : Type} {l : List α} {g : α → List β} (key : β → α) (hl : l.Nodup)
    (hg : ∀ x ∈ l, (g x).Nodup) (hkey : ∀ x ∈ l, ∀ y ∈ g x, key y = x) : (l.flatMap g).Nodup := by
  rw [List.nodup_flatMap]
  refine ⟨hg, hl.imp_of_mem fun {x x'} hx hx' hne y hy hy' => ?_⟩
  exact hne ((hkey x hx y hy).symm.trans (hkey x' hx' y hy'))

/-- No frequency of an airport is written twice. -/
theorem nodup_frequencies (order : KeyOrder) (apt : Hash AptEntry) :
    (frequencies order apt).Nodup := by
  have hkeys : (sortedKeys apt).Nodup :=
    (List.perm_insertionSort _ _).nodup_iff.mpr apt.keys_nodup
  apply nodup_flatMap_of_key Prod.fst hkeys
  · intro a _
    cases he : apt.lookup a with
    | none => exact List.nodup_nil
    | some e =>
        have hcom : (order.val a e.com.keys).Nodup :=
          (order.property a e.com.keys).nodup_iff.mpr e.com.keys_nodup
        apply nodup_flatMap_of_key (fun x => x.2.2.1) hcom
        · intro f _
          cases e.com.lookup f with
          | none => exact List.nodup_nil
          | some type => exact List.nodup_singleton _
        · intro f _ x hx
          cases htype : e.com.lookup f with
          | none =>
              rw [htype] at hx
              exact absurd hx List.not_mem_nil
          | some type =>
              rw [htype] at hx
              rw [List.mem_singleton.mp hx]
  · intro a _ x hx
    cases he : apt.lookup a with
    | none =>
        rw [he] at hx
        exact absurd hx List.not_mem_nil
    | some e =>
        rw [he] at hx
        obtain ⟨f, -, hf⟩ := List.mem_flatMap.mp hx
        cases htype : e.com.lookup f with
        | none =>
            rw [htype] at hf
            exact absurd hf List.not_mem_nil
        | some type =>
            rw [htype] at hf
            rw [List.mem_singleton.mp hf]

/-- A line that a call of a number starts at. -/
def firstLine (number : List Char) (l : ConfLine) : Bool :=
  l.exten = number ∧ l.priority = .first

/-- A number with one first line is dialled with the application of that line. -/
theorem app_eq_of_first {conf : List ConfLine} {l : ConfLine} {app : App}
    (hone : conf.countP (firstLine l.exten) = 1) (happ : ⟨l.exten, .first, app⟩ ∈ conf)
    (hl : l ∈ conf) (hprio : l.priority = .first) : l.app = app := by
  rw [List.countP_eq_length_filter, List.length_eq_one_iff] at hone
  obtain ⟨m, hm⟩ := hone
  have hmem : l ∈ conf.filter (firstLine l.exten) :=
    List.mem_filter.mpr ⟨hl, decide_eq_true ⟨rfl, hprio⟩⟩
  have hmem' : ⟨l.exten, .first, app⟩ ∈ conf.filter (firstLine l.exten) :=
    List.mem_filter.mpr ⟨happ, decide_eq_true ⟨rfl, rfl⟩⟩
  rw [hm, List.mem_singleton] at hmem hmem'
  rw [hmem, ← hmem']

/-- A number whose only first line dials no further leads to itself alone. -/
theorem Leads.eq_of_here {conf : List ConfLine} {number last : List Char} {app : App}
    (hone : conf.countP (firstLine number) = 1) (hl : ⟨number, .first, app⟩ ∈ conf)
    (happ : ∀ n, app ≠ .dialLocal n) (h : Leads conf number last) : last = number := by
  cases h with
  | here => rfl
  | @dial l' target _ hl' hprio happ' hrest =>
      have heq := app_eq_of_first hone hl hl' hprio
      exact absurd (heq.symm.trans happ') (happ target)

/-- A number whose only first line dials another leads where the other leads. -/
theorem Leads.through {conf : List ConfLine} {number target last : List Char}
    (hone : conf.countP (firstLine number) = 1) (hl : ⟨number, .first, .dialLocal target⟩ ∈ conf)
    (h : Leads conf number last) : Leads conf target last := by
  cases h with
  | @here l' hl' hprio happ' =>
      exact absurd (app_eq_of_first hone hl hl' hprio) (happ' target)
  | @dial l' target' _ hl' hprio happ' hrest =>
      have heq := app_eq_of_first hone hl hl' hprio
      rwa [App.dialLocal.inj (heq.symm.trans happ')]

section Group

variable (d : Directory) {a : List Char} {e : AptEntry} {type : List Char} {b k : ℕ}

/-- No extension fixed in advance is that of an airport of the directory. -/
theorem Directory.countP_extensionsPre (he : d.apt.lookup a = some e) :
    extensionsPre.countP (firstLine (extension a k)) = 0 := by
  obtain ⟨hcode, hlen, hne⟩ := d.code a e he
  rw [List.countP_eq_zero]
  intro l hl hfirst
  have hexten : l.exten = extension a k := (of_decide_eq_true hfirst).1
  -- all of them are of the code `ZZZZ`
  have hall : ∀ l ∈ extensionsPre,
      l.exten = "01".toList ++ Phonebook.icao2number "ZZZZ".toList ++ l.exten.drop 10 := by
    decide +kernel
  have hnumber := (hall l hl).symm.trans hexten
  unfold extension at hnumber
  rw [List.append_assoc, List.append_assoc, List.append_cancel_left_eq] at hnumber
  have hzzzz : ∀ c ∈ "ZZZZ".toList, codeChar c = true := List.all_eq_true.mp rfl
  exact hne (icao2number_append_inj hlen hcode.2 (by decide) hzzzz hnumber.symm).1

/-- No VOR has a number of an airport's channel. -/
theorem Directory.countP_vors (he : d.apt.lookup a = some e)
    (htype : e.com.lookup (mhzText b) = some type) (hgroup : k = b ∨ IsAlias b k)
    (hk : 100000 ≤ k ∧ k < 200000) :
    ((vors d.nav).flatMap fun x => vorExtensions x.1 x.2).countP (firstLine (extension a k))
      = 0 := by
  obtain ⟨hcode, hlen, -⟩ := d.code a e he
  rw [List.countP_eq_zero]
  intro l hl hfirst
  have hexten : l.exten = extension a k := (of_decide_eq_true hfirst).1
  obtain ⟨⟨v, e'⟩, hv, hl⟩ := List.mem_flatMap.mp hl
  have he' := mem_vors.mp hv
  obtain ⟨hvcode, n, hn⟩ := d.vor v e' he'
  have hnumber := (exten_vorExtensions hn hl).symm.trans hexten
  obtain ⟨hcodes, hkhz⟩ := extension_inj hlen hcode.2 hvcode.2 hk hnumber.symm
  -- the line of the airport on this frequency has the code and frequency of the VOR
  have hp : (⟨a, mhzText k, e.lat, e.lon, type, e.text⟩ : PosLine)
      ∈ airportPositions a e (mhzText b) type := mem_airportPositions.mpr ⟨k, hgroup, rfl⟩
  exact d.apart a e _ type v e' he htype he' _ hp ⟨hcodes, (congrArg mhzText hkhz).trans hn.symm⟩

/-- The aliases of a base are different, and none is the base. -/
theorem nodup_aliasKhz {b : ℕ} : (b :: aliasKhz b).Nodup := by
  unfold aliasKhz
  split
  · simp
  · split
    · have hne : b ≠ b - 5 ∧ b - 5 ≠ b + 5 := by omega
      simp [hne.1, hne.2]
    · simp

/-- Of the lines written for a base exactly one starts a call of a number of its channel. -/
theorem countP_airportExtensions (hgroup : k = b ∨ IsAlias b k) (hlen : a.length ≤ 4)
    (hac : ∀ c ∈ a, codeChar c = true) (hk : 100000 ≤ k ∧ k < 200000) :
    (airportExtensions a e (mhzText b) type).countP (firstLine (extension a k)) = 1 := by
  obtain ⟨app₁, app₂, app₃, rest, -, hrest, hlist⟩ := airportExtensions_mhzText a e b type
  have hsame : ∀ j, extension a j = extension a k ↔ j = k := by
    intro j
    exact ⟨fun h => (extension_inj hlen hac hac hk h.symm).2.symm, fun h => h ▸ rfl⟩
  -- the lines of the ATIS recorder have another prefix
  have hrest0 : rest.countP (firstLine (extension a k)) = 0 := by
    rw [List.countP_eq_zero]
    intro l hl hfirst
    have hzero : (extension a k).head? = some '0' := rfl
    have hnine := hrest l hl
    rw [(of_decide_eq_true hfirst).1, hzero] at hnine
    exact absurd hnine (by decide)
  -- the lines of priority 1 stand for the base and its aliases
  have hmain : ∀ target, ∀ l : List ℕ,
      (l.map fun j => (⟨extension a j, .first, .dialLocal target⟩ : ConfLine)).countP
        (firstLine (extension a k)) = l.count k := by
    intro target l
    rw [List.countP_map]
    refine List.countP_congr fun j _ => ?_
    simp only [Function.comp_apply, firstLine, hsame, and_true, decide_eq_true_eq, beq_iff_eq]
  have hthree : [⟨extension a b, .first, app₁⟩, ⟨extension a b, .next, app₂⟩,
      ⟨extension a b, .next, app₃⟩].countP (firstLine (extension a k)) = [b].count k := by
    simp only [List.countP_cons, List.countP_nil, firstLine, hsame, List.count_cons, List.count_nil]
    simp
  have hmem : k ∈ b :: aliasKhz b := by
    rw [List.mem_cons, mem_aliasKhz]
    exact hgroup
  rw [hlist, List.countP_append, List.countP_append, hrest0, hmain, hthree, Nat.add_zero,
    ← List.count_append]
  exact List.count_eq_one_of_mem nodup_aliasKhz hmem

/-- **Every number of a channel has one first line.** -/
theorem Directory.countP_extensions (hbase : HasBase d.apt a b) (hgroup : k = b ∨ IsAlias b k)
    (hk : 100000 ≤ k ∧ k < 200000) : d.extensions.countP (firstLine (extension a k)) = 1 := by
  obtain ⟨e, type, he, htype⟩ := hbase
  obtain ⟨hcode, hlen, -⟩ := d.code a e he
  have hb := d.base_mod ⟨e, type, he, htype⟩
  have hmem : (a, e, mhzText b, type) ∈ frequencies d.order d.apt := mem_frequencies.mpr ⟨he, htype⟩
  -- the lines for another frequency are of another code or of another base
  have hother : ∀ x ∈ frequencies d.order d.apt, x ≠ (a, e, mhzText b, type) →
      ∀ l ∈ airportExtensions x.1 x.2.1 x.2.2.1 x.2.2.2, ¬ firstLine (extension a k) l = true := by
    rintro ⟨a', e', f', type'⟩ hx hne l hl hfirst
    obtain ⟨he', htype'⟩ := mem_frequencies.mp hx
    obtain ⟨b', rfl, hb'⟩ := d.base a' e' f' type' he' htype'
    obtain ⟨j, hj, hnumber⟩ := (exten_airportExtensions a' e' b' type' (extension a k) rfl).mp
      ⟨l, hl, (of_decide_eq_true hfirst).1⟩
    obtain ⟨rfl, rfl⟩ := extension_inj hlen hcode.2 (d.code a' e' he').1.2 hk hnumber
    obtain rfl := base_unique hb hb' hgroup hj
    obtain rfl := Option.some.inj (he.symm.trans he')
    obtain rfl := Option.some.inj (htype.symm.trans htype')
    exact hne rfl
  unfold Directory.extensions Phonebook.extensions
  rw [List.countP_append, List.countP_append, d.countP_extensionsPre he,
    countP_flatMap_of_unique (nodup_frequencies d.order d.apt) hmem hother,
    countP_airportExtensions hgroup hlen hcode.2 hk, d.countP_vors he htype hgroup hk]

/-- The lines that a call of a number of a channel starts at. -/
theorem Directory.firstLines (hbase : HasBase d.apt a b) :
    (∃ app, (∀ n, app ≠ .dialLocal n) ∧
        (⟨extension a b, .first, app⟩ : ConfLine) ∈ d.extensions) ∧
      ∀ k, IsAlias b k →
        (⟨extension a k, .first, .dialLocal (extension a b)⟩ : ConfLine) ∈ d.extensions := by
  obtain ⟨e, type, he, htype⟩ := hbase
  obtain ⟨app₁, app₂, app₃, rest, happ, -, hlist⟩ := airportExtensions_mhzText a e b type
  have hwritten : ∀ l ∈ airportExtensions a e (mhzText b) type, l ∈ d.extensions :=
    fun l hl => mem_extensions.mpr (Or.inr (Or.inl ⟨a, e, _, type, he, htype, hl⟩))
  refine ⟨⟨app₁, happ, hwritten _ (hlist ▸ List.mem_cons_self)⟩, fun k halias => hwritten _ ?_⟩
  rw [hlist]
  exact List.mem_append_left _
    (List.mem_append_right _ (List.mem_map.mpr ⟨k, mem_aliasKhz.mpr halias, rfl⟩))

/-- **Following the numbers of a channel** leads to the extension of the base and nowhere else. -/
theorem Directory.leads_iff (hbase : HasBase d.apt a b) (hgroup : k = b ∨ IsAlias b k)
    (hb : 100005 ≤ b ∧ b + 5 < 200000) (last : List Char) :
    Leads d.extensions (extension a k) last ↔ last = extension a b := by
  obtain ⟨⟨app, happ, hown⟩, halias⟩ := d.firstLines hbase
  have hone : ∀ j, j = b ∨ IsAlias b j →
      d.extensions.countP (firstLine (extension a j)) = 1 := by
    intro j hj
    refine d.countP_extensions hbase hj ?_
    unfold IsAlias at hj
    omega
  have hend : ∀ last, Leads d.extensions (extension a b) last → last = extension a b :=
    fun last h => h.eq_of_here (hone b (Or.inl rfl)) hown happ
  constructor
  · intro h
    rcases hgroup with rfl | hk
    · exact hend last h
    · -- the only first line of an alias dials the base
      exact hend last (h.through (hone k (Or.inr hk)) (halias k hk))
  · rintro rfl
    have hleads : Leads d.extensions (extension a b) (extension a b) := .here hown rfl happ
    rcases hgroup with rfl | hk
    · exact hleads
    · exact .dial (halias k hk) rfl rfl hleads

end Group

/-! ## The law of a channel -/

/-- **All spellings of a channel meet.** The client that tunes a spelling of the base of the
airport which its lookup selects dials, through any server, a number with exactly one first line,
and following it ends at the extension of the base. -/
theorem alias_group_meets (d : Directory) (voipserver : List Char)
    {distance : ℚ → ℚ → ℚ → ℚ → ℚ} {airports : List (Airport ℚ)} {lat lon range : ℚ} {t b : ℕ}
    {icao : CStr 4} (hbase : HasBase d.apt icao.val b) (hgroup : t = b ∨ IsAlias b t)
    (hfound : icaobypos distance airports ((t : ℚ) / 1000) lat lon range = some icao) :
    d.extensions.countP
        (firstLine (rewriteNumber voipserver (icao2number icao ((t : ℚ) / 1000)).2)) = 1 ∧
      ∀ last, Leads d.extensions
          (rewriteNumber voipserver (icao2number icao ((t : ℚ) / 1000)).2) last ↔
        last = extension icao.val b := by
  obtain ⟨hcode, hlen, -⟩ : CodeText icao.val ∧ icao.val.length ≤ 4 ∧ _ := by
    obtain ⟨e, type, he, -⟩ := hbase
    exact d.code icao.val e he
  have hne : icao ≠ noIcao := fun h => hcode.1 (congrArg Subtype.val h)
  obtain ⟨hband, -⟩ := icaobypos_khz hfound hne
  have hrange : 108000 ≤ t ∧ t ≤ 140005 := by
    unfold searchKhz at hband
    split at hband <;> omega
  have hnumber : (icao2number icao ((t : ℚ) / 1000)).2 = extension icao.val t :=
    stationNumber_eq 1 ⟨icao.val, hcode.1, hlen, hcode.2⟩ (by omega) (by decide)
  have hserver := serverKhz_group voipserver (d.base_mod hbase) hgroup
  have hb : 100005 ≤ b ∧ b + 5 < 200000 := by
    unfold IsAlias at hgroup
    omega
  rw [hnumber, rewriteNumber_extension _ _ (by omega)]
  generalize serverKhz voipserver t = k at hserver ⊢
  refine ⟨d.countP_extensions hbase hserver ?_, d.leads_iff hbase hserver hb⟩
  unfold IsAlias at hserver
  omega

/-- An airport with a tower on 118.500, and two VORs. -/
def towerLines : List (List Char) :=
  ["1 364 1 0 EDDF Frankfurt".toList, "14 50.05 8.57 0".toList, "54 11850 TOWER".toList, []]

/-- The tables of these lines. -/
def towerDirectory : Directory :=
  Directory.ofScan plainOrder towerLines twoVorLines (by decide +kernel) (by decide +kernel)
    (by decide +kernel)

/-- The lines of the tower as the client holds them, and the VORs behind them. -/
def towerAirports : List (Airport ℚ) :=
  let tower (frequency : ℚ) : Airport ℚ :=
    ⟨eddf, frequency, 5005 / 100, 857 / 100, ⟨"TOWER".toList, by decide⟩,
      ⟨"Frankfurt".toList, by decide⟩⟩
  [tower (1185 / 10), tower (118505 / 1000)] ++ twoVors

/-- The alias above the tower's frequency meets the tower through the server that wants base
frequencies. -/
theorem alias_group_meets_tower :
    towerDirectory.extensions.countP (firstLine (rewriteNumber "delta384.server4you.de".toList
        (icao2number eddf (((118505 : ℕ) : ℚ) / 1000)).2)) = 1 ∧
      ∀ last, Leads towerDirectory.extensions (rewriteNumber "delta384.server4you.de".toList
          (icao2number eddf (((118505 : ℕ) : ℚ) / 1000)).2) last ↔
        last = extension eddf.val 118500 := by
  have hlookup : ((towerDirectory.apt.lookup eddf.val).bind fun e =>
      e.com.lookup (mhzText 118500)) = some "TOWER".toList := by decide +kernel
  obtain ⟨e, he, htype⟩ := Option.bind_eq_some_iff.mp hlookup
  exact @alias_group_meets towerDirectory _ meridianDistance towerAirports 50 8 defaultRange 118505
    118500 eddf ⟨e, _, he, htype⟩ (Or.inr (Or.inl (by decide))) (by decide +kernel)

end Fgcom
