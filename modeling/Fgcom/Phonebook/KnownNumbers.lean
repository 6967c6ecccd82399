import Fgcom.Phonebook.Dialling

/-! # Numbers the server does not know

The lookup accepts frequencies for which the generator has written no extension: it lowers every
frequency ending in 5 kHz by 5 kHz and then matches any line, an alias line or a VOR's among them,
while the number is made of the frequency tuned.

* **`ListOf`** — the client's list holds the lines of positions.txt.
* **`ChannelKnown`** — the tuned frequencies whose number the server knows, in terms of the
  airport's bases; **`dialled_number_known_iff`** — these and no others. -/

namespace Fgcom

open DecimalText Phonebook

/-- `DEFAULT_VOIP_SERVER`. -/
def defaultVoipServer : List Char := "fgcom.flightgear.org".toList

/-- The airport list holds the lines of positions.txt: one node a line, in order, with the code, the
frequency and the coordinates of the line. -/
def ListOf (lines : List PosLine) (airports : List (Airport ℚ)) : Prop :=
  airports.map (fun a => (a.icao.val, a.frequency, a.lat, a.lon))
    = lines.map fun p => (p.code, atof p.frq, atof p.lat, atof p.lon)

instance (lines : List PosLine) (airports : List (Airport ℚ)) : Decidable (ListOf lines airports) :=
  inferInstanceAs (Decidable (_ = _))

/-- A node of the list comes from a line. -/
theorem ListOf.line {lines : List PosLine} {airports : List (Airport ℚ)} (h : ListOf lines airports)
    {a : Airport ℚ} (ha : a ∈ airports) :
    ∃ p ∈ lines, p.code = a.icao.val ∧ a.frequency = atof p.frq := by
  have hmem : (a.icao.val, a.frequency, a.lat, a.lon)
      ∈ lines.map fun p => (p.code, atof p.frq, atof p.lat, atof p.lon) := by
    rw [← h]
    exact List.mem_map_of_mem ha
  obtain ⟨p, hp, heq⟩ := List.mem_map.mp hmem
  simp only [Prod.mk.injEq] at heq
  exact ⟨p, hp, heq.1, heq.2.1.symm⟩

/-- The channels of an airport's code that the server knows by the number the client dials. A
frequency ending in a 0 is known, but not one ending in 20 or 70, which is dialled as 25 or 75,
unless that is a base of the airport. A frequency ending in a 5 is known when it is itself a base
ending in 25 or 75 of the airport, or lies 5 kHz above a base ending in 00 or 50. -/
def ChannelKnown (apt : Hash AptEntry) (code : List Char) (t : ℕ) : Prop :=
  (t % 10 = 0 ∧ t % 100 ≠ 20 ∧ t % 100 ≠ 70) ∨
    ((t % 100 = 20 ∨ t % 100 = 70) ∧ HasBase apt code (t + 5)) ∨
    ((t % 100 = 25 ∨ t % 100 = 75) ∧ HasBase apt code t) ∨
    ((t % 100 = 5 ∨ t % 100 = 55) ∧ HasBase apt code (t - 5))

/-- A station found by the lookup has a line in positions.txt on the frequency looked for. -/
theorem line_of_icaobypos {order : KeyOrder} {apt : Hash AptEntry} {nav : Hash NavEntry}
    (hapt : SoundApt apt) (hnav : SoundNav nav) {airports : List (Airport ℚ)}
    (hlist : ListOf (positions order apt nav) airports) {icao : CStr 4} {a : Airport ℚ} {s : ℕ}
    (ha : a ∈ airports) (hicao : a.icao = icao)
    (hon : onFrequency a ((s : ℚ) / 1000) = true) :
    CodeText icao.val ∧
      ((∃ b, HasBase apt icao.val b ∧ (s = b ∨ IsAlias b s)) ∨
        HasVor nav icao.val s ∧ s % 10 = 0) := by
  obtain ⟨p, hp, hcode, hfrq⟩ := hlist.line ha
  rw [hicao] at hcode
  rcases mem_positions.mp hp with ⟨c, e, f, type, he, htype, hp⟩ | ⟨v, e, he, rfl⟩
  · obtain ⟨hcodetext, hsound⟩ := hapt c e he
    obtain ⟨⟨b, rfl, -⟩, -⟩ := hsound.com f type htype
    obtain ⟨m, hm, rfl⟩ := mem_airportPositions.mp hp
    obtain rfl : c = icao.val := hcode
    have hms : m = s := onFrequency_khz (hfrq.trans (atof_mhzText m)) hon
    rw [← hms]
    exact ⟨hcodetext, Or.inl ⟨b, ⟨e, type, he, htype⟩, hm⟩⟩
  · obtain ⟨hcodetext, hsound⟩ := hnav v e he
    obtain ⟨n, hn⟩ := hsound.frq
    obtain rfl : v = icao.val := hcode
    have hvalue : a.frequency = ((10 * n : ℕ) : ℚ) / 1000 := by
      rw [hfrq]
      show atof e.frq = _
      rw [hn, atof_mhzText]
    have hms : 10 * n = s := onFrequency_khz hvalue hon
    refine ⟨hcodetext, Or.inr ⟨⟨e, he, ?_⟩, by omega⟩⟩
    rw [hn, hms]

/-- A base of a sound table is a multiple of 10 kHz or ends in 25 or 75 kHz. -/
theorem hasBase_mod {apt : Hash AptEntry} (hapt : SoundApt apt) {code : List Char} {b : ℕ}
    (h : HasBase apt code b) : b % 10 = 0 ∨ b % 100 = 25 ∨ b % 100 = 75 := by
  obtain ⟨e, type, he, htype⟩ := h
  obtain ⟨⟨c, hc, hmod⟩, -⟩ := (hapt code e he).2.com _ _ htype
  rw [mhzText_injective hc]
  exact hmod

/-- The extensions fixed in advance are on multiples of 10 kHz. -/
theorem mod_of_extensionsPre {a : List Char} {k : ℕ} (hk : 100000 ≤ k ∧ k ≤ 999999)
    {l : ConfLine} (hl : l ∈ extensionsPre) (h : l.exten = extension a k) : k % 10 = 0 := by
  have hall : ∀ l ∈ extensionsPre, l.exten.getLast? = some '0' := by decide +kernel
  have hlast := hall l hl
  have hconcat : ∀ (u : List Char) (x y : Char), (u ++ [x, y]).getLast? = some y := by
    intro u x y
    rw [show u ++ [x, y] = u ++ [x] ++ [y] by simp, List.getLast?_concat]
  rw [h, extension_split a hk, hconcat, Option.some_inj] at hlast
  have hzero : (k % 10).digitChar = Nat.digitChar 0 ↔ k % 10 = 0 :=
    digitChar_eq_iff (by omega) (by decide)
  exact hzero.mp hlast

/-- The frequency dialled through the default server. -/
theorem serverKhz_default (t : ℕ) :
    serverKhz defaultVoipServer t = if t % 100 = 20 ∨ t % 100 = 70 then t + 5 else t := rfl

/-- A frequency dialled that is a base, an alias or a VOR's comes from a known channel. -/
theorem channelKnown_of_written {apt : Hash AptEntry} {nav : Hash NavEntry} (hapt : SoundApt apt)
    (hnav : SoundNav nav) {code : List Char} {t : ℕ} (ht : t % 10 = 0 ∨ t % 10 = 5)
    (h : (∃ b, HasBase apt code b ∧
        (serverKhz defaultVoipServer t = b ∨ IsAlias b (serverKhz defaultVoipServer t))) ∨
      HasVor nav code (serverKhz defaultVoipServer t)) :
    ChannelKnown apt code t := by
  have hserver := serverKhz_default t
  generalize serverKhz defaultVoipServer t = k at h hserver
  rcases h with ⟨b, hbase, hkb⟩ | ⟨e, he, hfrq⟩
  · have hmod := hasBase_mod hapt hbase
    unfold IsAlias at hkb
    by_cases h20 : t % 100 = 20 ∨ t % 100 = 70
    · rw [if_pos h20] at hserver
      obtain rfl : b = t + 5 := by omega
      exact Or.inr (Or.inl ⟨h20, hbase⟩)
    · rw [if_neg h20] at hserver
      by_cases h25 : t % 100 = 25 ∨ t % 100 = 75
      · obtain rfl : b = t := by omega
        exact Or.inr (Or.inr (Or.inl ⟨h25, hbase⟩))
      · by_cases h5 : t % 10 = 5
        · obtain rfl : b = t - 5 := by omega
          exact Or.inr (Or.inr (Or.inr ⟨by omega, hbase⟩))
        · exact Or.inl (by omega)
  · -- a VOR is on a multiple of 10 kHz
    obtain ⟨n, hn⟩ := (hnav _ e he).2.frq
    obtain rfl : k = 10 * n := mhzText_injective (hfrq.symm.trans hn)
    left
    split at hserver <;> omega

/-- On a known channel with a line in positions.txt, the frequency dialled is a base, an alias or a
VOR's. -/
theorem written_of_channelKnown {apt : Hash AptEntry} {nav : Hash NavEntry} (hapt : SoundApt apt)
    {code : List Char} {t : ℕ}
    (hline : (∃ b, HasBase apt code b ∧ (searchKhz t = b ∨ IsAlias b (searchKhz t))) ∨
      HasVor nav code (searchKhz t))
    (h : ChannelKnown apt code t) :
    (∃ b, HasBase apt code b ∧
        (serverKhz defaultVoipServer t = b ∨ IsAlias b (serverKhz defaultVoipServer t))) ∨
      HasVor nav code (serverKhz defaultVoipServer t) := by
  have hserver := serverKhz_default t
  rcases h with ⟨h0, h20, h70⟩ | ⟨h20, hbase⟩ | ⟨h25, hbase⟩ | ⟨h5, hbase⟩
  · -- the frequency dialled is the one of the line found
    rw [if_neg (by omega)] at hserver
    rw [searchKhz, if_neg (by omega)] at hline
    rw [hserver]
    exact hline
  · rw [if_pos h20] at hserver
    exact Or.inl ⟨t + 5, hbase, Or.inl hserver⟩
  · rw [if_neg (by omega)] at hserver
    exact Or.inl ⟨t, hbase, Or.inl hserver⟩
  · rw [if_neg (by omega)] at hserver
    have hmod := hasBase_mod hapt hbase
    refine Or.inl ⟨t - 5, hbase, Or.inr (Or.inl ?_)⟩
    omega

/-- **When the number dialled is one the server knows.** For the files of one run of the generator
and a station the lookup yields for a tuned frequency, the number dialled through the default
server has a line in fgcom.conf exactly for the channels of `ChannelKnown`. -/
theorem dialled_number_known_iff (order : KeyOrder) (aptLines navLines : List (List Char))
    {airports : List (Airport ℚ)}
    (hlist : ListOf (positions order (scanApt aptLines).apt (scanNav navLines)) airports)
    {distance : ℚ → ℚ → ℚ → ℚ → ℚ} {lat lon range : ℚ} {t : ℕ} {icao : CStr 4}
    (hfound : icaobypos distance airports ((t : ℚ) / 1000) lat lon range = some icao)
    (hne : icao ≠ noIcao) :
    (∃ l ∈ extensions order (scanApt aptLines).apt (scanNav navLines),
        l.exten = rewriteNumber defaultVoipServer (icao2number icao ((t : ℚ) / 1000)).2) ↔
      ChannelKnown (scanApt aptLines).apt icao.val t := by
  have hapt := soundApt_scan aptLines
  have hnav := soundNav_scan navLines
  generalize (scanApt aptLines).apt = apt at hlist hapt ⊢
  generalize scanNav navLines = nav at hlist hnav ⊢
  obtain ⟨hband, a, ha, hicao, hon⟩ := icaobypos_khz hfound hne
  obtain ⟨hcode, hline⟩ := line_of_icaobypos hapt hnav hlist ha hicao hon
  -- the tuned frequency lies at most 5 kHz above the one looked for
  have hsearch : searchKhz t = if t % 10 = 5 then t - 5 else t := rfl
  have hrange : 108000 ≤ t ∧ t ≤ 140005 := by split at hsearch <;> omega
  have hnumber : (icao2number icao ((t : ℚ) / 1000)).2 = extension icao.val t :=
    stationNumber_eq 1 ⟨icao.val, hcode.1, icao.property, hcode.2⟩ (by omega) (by decide)
  have hserver := serverKhz_default t
  have hk : 100000 ≤ serverKhz defaultVoipServer t ∧ serverKhz defaultVoipServer t < 200000 := by
    split at hserver <;> omega
  -- the frequency looked for is a multiple of 10 kHz, so the tuned one is one of 5 kHz
  have hs : searchKhz t % 10 = 0 := by
    rcases hline with ⟨b, hbase, hsb⟩ | ⟨-, hs⟩
    · have hmod := hasBase_mod hapt hbase
      unfold IsAlias at hsb
      split at hsearch <;> omega
    · exact hs
  have ht : t % 10 = 0 ∨ t % 10 = 5 := by split at hsearch <;> omega
  rw [hnumber, rewriteNumber_extension _ _ (by omega), exten_iff hapt hnav icao.property hcode.2 hk]
  constructor
  · rintro (⟨l, hl, hexten⟩ | hwritten)
    · -- an extension fixed in advance
      have hzero := mod_of_extensionsPre (by omega) hl hexten
      left
      split at hserver <;> omega
    · exact channelKnown_of_written hapt hnav ht hwritten
  · intro hknown
    exact Or.inr (written_of_channelKnown hapt (hline.imp_right And.left) hknown)

/-- The order of keys as they stand in the table. -/
def plainOrder : KeyOrder := ⟨fun _ l => l, fun _ l => List.Perm.refl l⟩

/-- Two VOR lines of nav.dat. -/
def twoVorLines : List (List Char) :=
  ["3 50.05 8.64 426 11320 100 1.0 FFM FRANKFURT VORTAC".toList,
    "3 47.59 8.82 2100 11500 100 0.0 KLO KLOTEN VOR-DME".toList]

/-- The two VORs as the client holds them. The last one is never looked at. -/
def twoVors : List (Airport ℚ) :=
  [⟨⟨['F', 'F', 'M'], by decide⟩, 1132 / 10, 5005 / 100, 864 / 100, vorType,
      ⟨"FRANKFURT VORTAC".toList, by decide⟩⟩,
    ⟨⟨['K', 'L', 'O'], by decide⟩, 115, 4759 / 100, 882 / 100, vorType,
      ⟨"KLOTEN VOR-DME".toList, by decide⟩⟩]

/-- On the frequency of the VOR itself the number is known. -/
theorem dialled_number_known_on_vor :
    (∃ l ∈ extensions plainOrder (scanApt []).apt (scanNav twoVorLines),
        l.exten = rewriteNumber defaultVoipServer
          (icao2number ⟨['F', 'F', 'M'], by decide⟩ (((113200 : ℕ) : ℚ) / 1000)).2) ↔
      ChannelKnown (scanApt []).apt ['F', 'F', 'M'] 113200 :=
  @dialled_number_known_iff plainOrder [] twoVorLines twoVors (by decide +kernel) meridianDistance
    50 8 100 113200 _ (by decide +kernel) (by decide)

/-- **A number the server does not know**: 5 kHz above the frequency of a VOR the lookup still
yields the VOR, but the number is made of the frequency tuned. -/
theorem dialled_number_unknown_above_vor :
    ListOf (positions plainOrder (scanApt []).apt (scanNav twoVorLines)) twoVors ∧
      icaobypos meridianDistance twoVors (((113205 : ℕ) : ℚ) / 1000) 50 8 defaultRange
        = some ⟨['F', 'F', 'M'], by decide⟩ ∧
      ¬ ∃ l ∈ extensions plainOrder (scanApt []).apt (scanNav twoVorLines),
        l.exten = rewriteNumber defaultVoipServer
          (icao2number ⟨['F', 'F', 'M'], by decide⟩ (((113205 : ℕ) : ℚ) / 1000)).2 := by
  decide +kernel

end Fgcom
