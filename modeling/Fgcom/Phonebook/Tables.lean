import Fgcom.Phonebook.AptBlocks
import Fgcom.Phonebook.Channels

/-! # The tables the script reads, and the lines it writes from them

Whatever the lines of apt.dat and nav.dat are, the tables made of them are sound: codes,
frequencies and coordinates have the shape the patterns admit (`soundApt_scan`, `soundNav_scan`).
What stands in the two files written from tables is a matter of membership (`mem_positions`,
`mem_extensions`). -/

namespace Fgcom.Phonebook

open DecimalText

/-! ## Sound tables -/

/-- A text of the characters `[A-Z0-9]`, at least one. -/
def CodeText (s : List Char) : Prop := s ≠ [] ∧ ∀ c ∈ s, codeChar c = true

/-- The text of a COM frequency: a multiple of 10 kHz, or one ending in 25 or 75 kHz. -/
def ComText (f : List Char) : Prop :=
  ∃ b, f = mhzText b ∧ (b % 10 = 0 ∨ b % 100 = 25 ∨ b % 100 = 75)

/-- An entry of `%APT` with texts of the right shape. -/
structure AptEntry.Sound (e : AptEntry) : Prop where
  text : ∃ t, e.text = trimAll t
  lat : IsDecimal e.lat
  lon : IsDecimal e.lon
  com : ∀ f type, e.com.lookup f = some type → ComText f ∧ ∃ t, type = storedType (trimAll t)

/-- An entry of `%NAV` with texts of the right shape. -/
structure NavEntry.Sound (e : NavEntry) : Prop where
  text : ∃ t, e.text = trimAll t
  lat : IsDecimal e.lat
  lon : IsDecimal e.lon
  frq : ∃ n, e.frq = mhzText (10 * n)

/-- All entries of `%APT` are sound. -/
def SoundApt (apt : Hash AptEntry) : Prop :=
  ∀ a e, apt.lookup a = some e → CodeText a ∧ e.Sound

/-- All entries of `%NAV` are sound. -/
def SoundNav (nav : Hash NavEntry) : Prop :=
  ∀ v e, nav.lookup v = some e → CodeText v ∧ e.Sound

/-- The key of a COM line is the text of a COM frequency. -/
theorem comText_comFrq {freq : List Char} (hlen : freq.length = 5)
    (hdigit : ∀ c ∈ freq, c.isDigit = true) : ComText (comFrq freq) := by
  obtain ⟨n, hn⟩ := comFrq_eq hlen hdigit
  refine ⟨_, hn, ?_⟩
  split
  · omega
  · omega

/-- A hash with one more entry. -/
theorem forall_lookup_insert {α : Type} {P : List Char → α → Prop} {h : Hash α} {k : List Char}
    {v : α} (hh : ∀ k v, h.lookup k = some v → P k v) (hv : P k v) :
    ∀ k' v', (h.insert k v).lookup k' = some v' → P k' v' := by
  intro k' v' hlookup
  by_cases heq : k' = k
  · subst heq
    rw [AList.lookup_insert] at hlookup
    obtain rfl := Option.some.inj hlookup
    exact hv
  · rw [AList.lookup_insert_ne heq] at hlookup
    exact hh k' v' hlookup

/-- The variables of the scan hold texts of the right shape. -/
structure Scan.Sound (s : Scan) : Prop where
  icao : ∀ a ∈ s.icao, CodeText a
  text : s.icao.isSome = true → ∃ t, s.text = some (trimAll t)
  lat : ∀ x ∈ s.lat, IsDecimal x
  lon : ∀ x ∈ s.lon, IsDecimal x
  latW : ∀ x ∈ s.latW, IsDecimal x
  lonW : ∀ x ∈ s.lonW, IsDecimal x
  frq : ∀ f type, s.frq.lookup f = some type → ComText f ∧ ∃ t, type = trimAll t
  apt : SoundApt s.apt

/-- The position of a block is made of coordinates. -/
theorem Scan.Sound.position {s : Scan} (hs : s.Sound) :
    (∀ x ∈ s.position.1, IsDecimal x) ∧ ∀ x ∈ s.position.2, IsDecimal x := by
  unfold Scan.position
  split
  · split
    · exact ⟨hs.latW, hs.lonW⟩
    · exact ⟨hs.lat, hs.lon⟩
  · exact ⟨hs.lat, hs.lon⟩

/-- What is true is defined. -/
theorem some_getD_of_truthy {x : Option (List Char)} (h : truthy x = true) :
    x = some (x.getD []) := by
  cases x with
  | none => exact absurd h (by decide)
  | some s => rfl

/-- Storing a block keeps the table sound. -/
theorem Scan.Sound.stored {s : Scan} (hs : s.Sound) : SoundApt s.stored := by
  unfold Scan.stored
  by_cases hicao : truthy s.icao = true
  · rw [if_pos hicao]
    split
    · split
      rename_i lat lon hposition
      split
      · rename_i htruthy
        rw [Bool.and_eq_true] at htruthy
        have hcode := some_getD_of_truthy hicao
        have hlat := some_getD_of_truthy htruthy.1
        have hlon := some_getD_of_truthy htruthy.2
        obtain ⟨t, ht⟩ := hs.text (by rw [hcode]; rfl)
        have hpos := hs.position
        rw [hposition] at hpos
        apply forall_lookup_insert hs.apt
        refine ⟨hs.icao _ hcode, ⟨t, by rw [ht]; rfl⟩, hpos.1 _ hlat, hpos.2 _ hlon, ?_⟩
        -- a frequency comes from this block or from an entry stored before under the same code
        intro f type hlookup
        unfold AptEntry.store at hlookup
        rw [lookup_store_com _ s.frq.nodupKeys, Option.or_eq_some_iff] at hlookup
        rcases hlookup with hnew | ⟨-, hold⟩
        · obtain ⟨type', hfrq, rfl⟩ := Option.map_eq_some_iff.mp hnew
          obtain ⟨hcom, t', rfl⟩ := hs.frq f type' hfrq
          exact ⟨hcom, t', rfl⟩
        · cases he : s.apt.lookup (s.icao.getD []) with
          | none =>
              rw [he] at hold
              exact absurd hold (by simp)
          | some e =>
              rw [he] at hold
              exact (hs.apt _ e he).2.com f type hold
      · exact hs.apt
    · exact hs.apt
  · rw [if_neg hicao]
    exact hs.apt

/-- **One line keeps the variables sound.** -/
theorem Scan.Sound.line {s : Scan} (hs : s.Sound) {l : Line} (hl : l.WellRead) :
    (s.line l).Sound := by
  cases l with
  | blank =>
      refine ⟨by simp [Scan.line, Scan.flush], by simp [Scan.line, Scan.flush],
        by simp [Scan.line, Scan.flush], by simp [Scan.line, Scan.flush], hs.latW, hs.lonW, ?_,
        hs.stored⟩
      intro f type h
      exact absurd h (by simp [Scan.line, Scan.flush])
  | header icao text =>
      obtain ⟨hicao, t, rfl⟩ := hl
      refine ⟨?_, fun _ => ⟨t, rfl⟩, hs.lat, hs.lon, hs.latW, hs.lonW, hs.frq, hs.apt⟩
      intro a ha
      obtain rfl := Option.some.inj ha
      exact hicao
  | tower lat lon =>
      refine ⟨hs.icao, hs.text, ?_, ?_, hs.latW, hs.lonW, hs.frq, hs.apt⟩
      · intro x hx
        obtain rfl := Option.some.inj hx
        exact hl.1
      · intro x hx
        obtain rfl := Option.some.inj hx
        exact hl.2
  | windsock lat lon =>
      refine ⟨hs.icao, hs.text, hs.lat, hs.lon, ?_, ?_, hs.frq, hs.apt⟩
      · intro x hx
        obtain rfl := Option.some.inj hx
        exact hl.1
      · intro x hx
        obtain rfl := Option.some.inj hx
        exact hl.2
  | com frq type =>
      obtain ⟨⟨freq, hlen, hdigit, rfl⟩, t, rfl⟩ := hl
      refine ⟨hs.icao, hs.text, hs.lat, hs.lon, hs.latW, hs.lonW, ?_, hs.apt⟩
      exact forall_lookup_insert hs.frq ⟨comText_comFrq hlen hdigit, t, rfl⟩
  | other => exact hs

/-- **The table made of any apt.dat is sound.** -/
theorem soundApt_scan (lines : List (List Char)) : SoundApt (scanApt lines).apt := by
  have hstart : Scan.start.Sound := by
    refine ⟨by simp [Scan.start], by simp [Scan.start], by simp [Scan.start], by simp [Scan.start],
      by simp [Scan.start], by simp [Scan.start], ?_, ?_⟩
    · intro f type h
      exact absurd h (by simp [Scan.start])
    · intro a e h
      exact absurd h (by simp [Scan.start])
  have hrun : (scanApt lines).Sound :=
    List.foldlRecOn lines _ hstart fun s hs z _ => hs.line (classify_wellRead z)
  exact hrun.apt

/-- A VOR line makes a sound entry. -/
theorem vorLine_sound {z code : List Char} {e : NavEntry} (h : vorLine z = some (code, e)) :
    CodeText code ∧ e.Sound := by
  unfold vorLine at h
  split at h
  · rename_i lat lon frq code' text hfirst
    obtain ⟨hlat, hlon, -, hne, hupper⟩ := vor_captures hfirst
    obtain ⟨rfl, rfl⟩ := Prod.mk.inj (Option.some.inj h)
    refine ⟨⟨hne, fun c hc => ?_⟩, ⟨_, rfl⟩, hlat, hlon, _, fixedText_three _⟩
    rw [codeChar, hupper c hc]
    rfl
  · exact absurd h (by simp)

/-- **The table made of any nav.dat is sound.** -/
theorem soundNav_scan (lines : List (List Char)) : SoundNav (scanNav lines) := by
  have hstart : SoundNav ∅ := fun v e h => absurd h (by simp)
  unfold scanNav
  refine List.foldlRecOn _ _ hstart fun nav hnav z _ => ?_
  cases hz : vorLine z with
  | none => exact hnav
  | some x => exact forall_lookup_insert hnav (vorLine_sound hz)

/-! ## The files as sets of lines -/

section Files

variable {order : KeyOrder} {apt : Hash AptEntry} {nav : Hash NavEntry}

/-- The keys are sorted, not changed. -/
theorem mem_sortedKeys {α : Type} {h : Hash α} {k : List Char} :
    k ∈ sortedKeys h ↔ ∃ v, h.lookup k = some v := by
  rw [sortedKeys, (List.perm_insertionSort _ _).mem_iff, ← AList.mem_keys, ← AList.lookup_isSome,
    Option.isSome_iff_exists]

/-- The frequencies of the output are those of the table. -/
theorem mem_frequencies {x : List Char × AptEntry × List Char × List Char} :
    x ∈ frequencies order apt ↔
      apt.lookup x.1 = some x.2.1 ∧ x.2.1.com.lookup x.2.2.1 = some x.2.2.2 := by
  obtain ⟨a, e, f, type⟩ := x
  unfold frequencies
  rw [List.mem_flatMap]
  constructor
  · rintro ⟨a', -, hx⟩
    cases he : apt.lookup a' with
    | none =>
        rw [he] at hx
        exact absurd hx List.not_mem_nil
    | some e' =>
        rw [he] at hx
        obtain ⟨f', -, hf⟩ := List.mem_flatMap.mp hx
        cases htype : e'.com.lookup f' with
        | none =>
            rw [htype] at hf
            exact absurd hf List.not_mem_nil
        | some type' =>
            rw [htype] at hf
            obtain h := List.mem_singleton.mp hf
            simp only [Prod.mk.injEq] at h
            obtain ⟨rfl, rfl, rfl, rfl⟩ := h
            exact ⟨he, htype⟩
  · rintro ⟨he, htype⟩
    refine ⟨a, mem_sortedKeys.mpr ⟨e, he⟩, ?_⟩
    rw [he]
    refine List.mem_flatMap.mpr ⟨f, ?_, ?_⟩
    · rw [(order.property a e.com.keys).mem_iff, ← AList.mem_keys, ← AList.lookup_isSome, htype]
      rfl
    · rw [htype]
      exact List.mem_singleton_self _

/-- The VORs of the output are those of the table. -/
theorem mem_vors {x : List Char × NavEntry} : x ∈ vors nav ↔ nav.lookup x.1 = some x.2 := by
  obtain ⟨v, e⟩ := x
  unfold vors
  rw [List.mem_flatMap]
  constructor
  · rintro ⟨v', -, hx⟩
    cases he : nav.lookup v' with
    | none =>
        rw [he] at hx
        exact absurd hx List.not_mem_nil
    | some e' =>
        rw [he] at hx
        obtain h := List.mem_singleton.mp hx
        simp only [Prod.mk.injEq] at h
        obtain ⟨rfl, rfl⟩ := h
        exact he
  · intro he
    refine ⟨v, mem_sortedKeys.mpr ⟨e, he⟩, ?_⟩
    rw [he]
    exact List.mem_singleton_self _

/-- **The lines of positions.txt.** -/
theorem mem_positions {p : PosLine} :
    p ∈ positions order apt nav ↔
      (∃ a e f type, apt.lookup a = some e ∧ e.com.lookup f = some type ∧
        p ∈ airportPositions a e f type) ∨
      ∃ v e, nav.lookup v = some e ∧ p = vorPosition v e := by
  unfold positions
  rw [List.mem_append, List.mem_flatMap, List.mem_map]
  constructor
  · rintro (⟨⟨a, e, f, type⟩, hx, hp⟩ | ⟨⟨v, e⟩, hx, rfl⟩)
    · obtain ⟨he, htype⟩ := mem_frequencies.mp hx
      exact Or.inl ⟨a, e, f, type, he, htype, hp⟩
    · exact Or.inr ⟨v, e, mem_vors.mp hx, rfl⟩
  · rintro (⟨a, e, f, type, he, htype, hp⟩ | ⟨v, e, he, rfl⟩)
    · exact Or.inl ⟨(a, e, f, type), mem_frequencies.mpr ⟨he, htype⟩, hp⟩
    · exact Or.inr ⟨(v, e), mem_vors.mpr he, rfl⟩

/-- **The lines of fgcom.conf.** -/
theorem mem_extensions {l : ConfLine} :
    l ∈ extensions order apt nav ↔
      l ∈ extensionsPre ∨
      (∃ a e f type, apt.lookup a = some e ∧ e.com.lookup f = some type ∧
        l ∈ airportExtensions a e f type) ∨
      ∃ v e, nav.lookup v = some e ∧ l ∈ vorExtensions v e := by
  unfold extensions
  rw [List.mem_append, List.mem_append, List.mem_flatMap, List.mem_flatMap, or_assoc]
  refine or_congr Iff.rfl (or_congr ?_ ?_)
  · constructor
    · rintro ⟨⟨a, e, f, type⟩, hx, hl⟩
      obtain ⟨he, htype⟩ := mem_frequencies.mp hx
      exact ⟨a, e, f, type, he, htype, hl⟩
    · rintro ⟨a, e, f, type, he, htype, hl⟩
      exact ⟨(a, e, f, type), mem_frequencies.mpr ⟨he, htype⟩, hl⟩
  · constructor
    · rintro ⟨⟨v, e⟩, hx, hl⟩
      exact ⟨v, e, mem_vors.mp hx, hl⟩
    · rintro ⟨v, e, he, hl⟩
      exact ⟨(v, e), mem_vors.mpr he, hl⟩

end Files

end Fgcom.Phonebook
