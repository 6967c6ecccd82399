import Fgcom.Phonebook.AptDat

/-! # The shape of what the script reads

The patterns of `gen_phonebook.pl` admit only certain texts as codes, frequencies and coordinates,
and `trim_all` leaves no line break in a text. -/

namespace Fgcom.Phonebook

open DecimalText Pattern

/-! ## Numerals -/

/-- A coordinate is a plain numeral. -/
theorem isDecimal_of_reads {u : List Char} {caps : List (List Char)}
    (h : decimalRx.Reads u caps) : IsDecimal u := by
  obtain ⟨sign, v, _, _, hsign, hv, rfl, -⟩ := h
  obtain ⟨int, w, _, _, hint, hw, rfl, -⟩ := hv
  obtain ⟨point, x, _, _, ⟨rfl, -⟩, hx, rfl, -⟩ := hw
  obtain ⟨frac, y, _, _, hfrac, ⟨rfl, -⟩, rfl, -⟩ := hx
  obtain ⟨hint, hintd⟩ := Rx.reads_plus hint
  obtain ⟨hfrac, hfracd⟩ := Rx.reads_plus hfrac
  rcases hsign.1 with rfl | ⟨c, hc, rfl⟩
  · exact ⟨false, int, frac, hint, hintd, hfrac, hfracd, by simp⟩
  · obtain rfl : c = '-' := by simpa using hc
    exact ⟨true, int, frac, hint, hintd, hfrac, hfracd, by simp⟩

theorem mem_squeezePass {s : List Char} {c : Char} (h : c ∈ squeezePass s) : c = ' ' ∨ c ∈ s := by
  induction s using squeezePass.induct with
  | case1 a b s hspace ih =>
      rw [squeezePass, if_pos hspace, List.mem_cons] at h
      rcases h with rfl | h
      · exact Or.inl rfl
      · exact (ih h).imp_right fun h => List.mem_cons_of_mem _ (List.mem_cons_of_mem _ h)
  | case2 a b s hspace ih =>
      rw [squeezePass, if_neg hspace, List.mem_cons] at h
      rcases h with rfl | h
      · exact Or.inr List.mem_cons_self
      · exact (ih h).imp_right (List.mem_cons_of_mem _)
  | case3 s hshort =>
      rw [squeezePass.eq_2 s hshort] at h
      exact Or.inr h

theorem mem_squeeze {n : ℕ} {s : List Char} {c : Char} (h : c ∈ squeeze n s) : c = ' ' ∨ c ∈ s := by
  induction n generalizing s with
  | zero => exact Or.inr h
  | succ n ih =>
      unfold squeeze at h
      split at h
      · rcases ih h with hc | hc
        · exact Or.inl hc
        · exact mem_squeezePass hc
      · exact Or.inr h

/-- `trim_all` leaves no line break in a text. -/
theorem ne_lineBreak_of_mem_trimAll {t : List Char} {c : Char} (h : c ∈ trimAll t) :
    c ≠ '\n' ∧ c ≠ '\r' := by
  have hplain : ∀ c ∈ t.map (fun c => if c = '\n' ∨ c = '\r' ∨ c = '\t' then ' ' else c),
      c ≠ '\n' ∧ c ≠ '\r' := by
    intro c hc
    obtain ⟨d, -, rfl⟩ := List.mem_map.mp hc
    split
    · decide
    · rename_i hd
      exact ⟨fun h => hd (Or.inl h), fun h => hd (Or.inr (Or.inl h))⟩
  rcases mem_squeeze h with rfl | hc
  · decide
  · exact hplain c ((List.rdropWhile_prefix _ _).subset ((List.dropWhile_suffix _).subset hc))

/-! ## Captures -/

/-- What the groups of a header line capture. -/
theorem header_captures {type z icao text : List Char}
    (h : (headerRx type).first z = some [icao, text]) :
    icao ≠ [] ∧ ∀ c ∈ icao, codeChar c = true := by
  rcases Rx.captures_of_first h with - | ⟨⟨_, hicao⟩, -⟩
  exact Rx.reads_plus hicao

/-- What the groups of a tower or windsock line capture. -/
theorem coordinate_captures {type z lat lon : List Char}
    (h : (coordinateRx type).first z = some [lat, lon]) : IsDecimal lat ∧ IsDecimal lon := by
  rcases Rx.captures_of_first h with - | ⟨⟨_, hlat⟩, - | ⟨⟨_, hlon⟩, -⟩⟩
  exact ⟨isDecimal_of_reads hlat, isDecimal_of_reads hlon⟩

/-- What the groups of a COM line capture. -/
theorem com_captures {z freq type : List Char} (h : comRx.first z = some [freq, type]) :
    freq.length = 5 ∧ ∀ c ∈ freq, c.isDigit = true := by
  rcases Rx.captures_of_first h with - | ⟨⟨_, hfreq⟩, -⟩
  exact Rx.reads_times hfreq

/-- What the groups of a VOR line capture. -/
theorem vor_captures {z lat lon frq code text : List Char}
    (h : vorRx.first z = some [lat, lon, frq, code, text]) :
    IsDecimal lat ∧ IsDecimal lon ∧ (frq ≠ [] ∧ ∀ c ∈ frq, c.isDigit = true) ∧
      code ≠ [] ∧ ∀ c ∈ code, c.isUpper = true := by
  rcases Rx.captures_of_first h with
    - | ⟨⟨_, hlat⟩, - | ⟨⟨_, hlon⟩, - | ⟨⟨_, hfrq⟩, - | ⟨⟨_, hcode⟩, -⟩⟩⟩⟩
  exact ⟨isDecimal_of_reads hlat, isDecimal_of_reads hlon, Rx.reads_plus hfrq, Rx.reads_plus hcode⟩

/-! ## Lines of apt.dat -/

/-- The texts in a line are what the patterns admit. -/
def Line.WellRead : Line → Prop
  | .blank => True
  | .header icao text => (icao ≠ [] ∧ ∀ c ∈ icao, codeChar c = true) ∧ ∃ t, text = trimAll t
  | .tower lat lon => IsDecimal lat ∧ IsDecimal lon
  | .windsock lat lon => IsDecimal lat ∧ IsDecimal lon
  | .com frq type =>
      (∃ freq : List Char, freq.length = 5 ∧ (∀ c ∈ freq, c.isDigit = true) ∧ frq = comFrq freq) ∧
        ∃ t, type = trimAll t
  | .other => True

theorem headerLine_wellRead {z : List Char} {l : Line} (h : headerLine z = some l) :
    l.WellRead := by
  have hheader : ∀ {type icao text : List Char}, (headerRx type).first z = some [icao, text] →
      (Line.header icao (trimAll text)).WellRead := fun h => ⟨header_captures h, _, rfl⟩
  unfold headerLine at h
  split at h
  · rename_i h1
    obtain rfl := Option.some.inj h
    exact hheader h1
  · split at h
    · rename_i h16
      obtain rfl := Option.some.inj h
      exact hheader h16
    · split at h
      · rename_i h17
        obtain rfl := Option.some.inj h
        exact hheader h17
      · exact absurd h (by simp)

theorem coordinateLine_wellRead {z : List Char} {l : Line} (h : coordinateLine z = some l) :
    l.WellRead := by
  unfold coordinateLine at h
  split at h
  · rename_i h14
    obtain rfl := Option.some.inj h
    exact coordinate_captures h14
  · split at h
    · rename_i h19
      obtain rfl := Option.some.inj h
      exact coordinate_captures h19
    · exact absurd h (by simp)

theorem comLine_wellRead {z : List Char} {l : Line} (h : comLine z = some l) : l.WellRead := by
  unfold comLine at h
  split at h
  · rename_i hcom
    obtain rfl := Option.some.inj h
    obtain ⟨hlen, hdigit⟩ := com_captures hcom
    exact ⟨⟨_, hlen, hdigit, rfl⟩, _, rfl⟩
  · exact absurd h (by simp)

/-- **Every line is well read.** -/
theorem classify_wellRead (z : List Char) : (classify z).WellRead := by
  unfold classify
  split
  · trivial
  · cases hh : headerLine z with
    | some l => exact headerLine_wellRead hh
    | none =>
        cases hc : coordinateLine z with
        | some l => exact coordinateLine_wellRead hc
        | none =>
            cases hm : comLine z with
            | some l => exact comLine_wellRead hm
            | none => trivial

end Fgcom.Phonebook
