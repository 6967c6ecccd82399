import Fgcom.Phonebook.Dialling

/-! # Every entry of the airport list

`icaobypos` and `posbyicao` walk the list while the node has a successor. The last node is therefore
never looked at, and an empty list is a null pointer that is read. `icaobypos` also takes a node
whose frequency only rounds up to the one looked for.

* **`stationOn`**, **`positionOf`** — what the two lookups are for: the first entry of the whole
  list, in file order.
* **`FirstAccepted`** — what the first entry the walk would stop at has to be like.
* **`lookups_consider_every_entry_iff`** — for which lists and questions the answers are right. -/

namespace Fgcom

/-! ## What the lookups are for -/

/-- The kHz looked for: those of the tuned frequency, lowered by 5 when they end in 5. -/
def loweredKhz (t : ℤ) : ℤ := if t % 10 = 5 then t - 5 else t

/-- An entry exactly on a frequency and not farther away than `range`. -/
def exactInRange (distance : ℚ → ℚ → ℚ → ℚ → ℚ) (frequency planeLat planeLon range : ℚ)
    (a : Airport ℚ) : Bool :=
  decide (a.frequency = frequency) && decide (distance planeLat planeLon a.lat a.lon ≤ range)

/-- The code of the first entry that meets a test, the empty code when there is none. -/
def firstIcao (test : Airport ℚ → Bool) (airports : List (Airport ℚ)) : CStr 4 :=
  ((airports.find? test).map Airport.icao).getD noIcao

/-- What `icaobypos` is for, at a tuned frequency of `t` kHz. -/
def stationOn (distance : ℚ → ℚ → ℚ → ℚ → ℚ) (airports : List (Airport ℚ)) (t : ℤ)
    (planeLat planeLon range : ℚ) : CStr 4 :=
  if 108000 ≤ loweredKhz t ∧ loweredKhz t ≤ 140000 then
    firstIcao (exactInRange distance ((loweredKhz t : ℚ) / 1000) planeLat planeLon range) airports
  else noIcao

/-- What `posbyicao` is for. -/
def positionOf (airports : List (Airport ℚ)) (icao : List Char) : Pos ℚ :=
  ((airports.find? fun a => a.icao.val = icao).map fun a => ⟨a.lon, a.lat⟩).getD ⟨0, 0⟩

/-- The first entry that `accepted` takes, if any, is the right one: when it is the last of the
list, it is none that `wanted` asks for (or has the empty code); when more entries follow, it is one
that `wanted` asks for, or has the code of the first such entry behind it. -/
def FirstAccepted (wanted accepted : Airport ℚ → Bool) (airports : List (Airport ℚ)) : Prop :=
  ∀ front a behind, airports = front ++ a :: behind → (∀ b ∈ front, accepted b = false) →
    accepted a = true →
      if behind = [] then wanted a = true → a.icao = noIcao
      else wanted a = true ∨ a.icao = firstIcao wanted behind

/-! ## The walk of `icaobypos` -/

section Walk

variable {wanted accepted : Airport ℚ → Bool} {a b : Airport ℚ} {rest : List (Airport ℚ)}

theorem firstIcao_cons_pos (h : wanted a = true) : firstIcao wanted (a :: rest) = a.icao := by
  rw [firstIcao, List.find?_cons_of_pos h]
  rfl

theorem firstIcao_cons_neg (h : wanted a = false) :
    firstIcao wanted (a :: rest) = firstIcao wanted rest := by
  have hneg : ¬ wanted a = true := by rw [h]; decide
  rw [firstIcao, List.find?_cons_of_neg hneg, firstIcao]

/-- The condition at the last entry. -/
theorem firstAccepted_singleton (hsub : wanted a = true → accepted a = true) :
    FirstAccepted wanted accepted [a] ↔ (wanted a = true → a.icao = noIcao) := by
  constructor
  · intro h hwanted
    exact h [] a [] rfl (by simp) (hsub hwanted) hwanted
  · intro h front a' behind hsplit _ _
    obtain ⟨rfl, rfl, rfl⟩ : front = [] ∧ a' = a ∧ behind = [] := by
      cases front with
      | nil => simpa [eq_comm] using hsplit
      | cons c front => simp at hsplit
    rw [if_pos rfl]
    exact h

/-- The condition at an accepted entry in front of others. -/
theorem firstAccepted_cons_pos (h : accepted a = true) :
    FirstAccepted wanted accepted (a :: b :: rest)
      ↔ wanted a = true ∨ a.icao = firstIcao wanted (b :: rest) := by
  constructor
  · intro hfirst
    have := hfirst [] a (b :: rest) rfl (by simp) h
    rwa [if_neg (List.cons_ne_nil b rest)] at this
  · intro hright front a' behind hsplit hfront _
    cases front with
    | nil =>
        obtain ⟨rfl, rfl⟩ := List.cons.inj hsplit
        rwa [if_neg (List.cons_ne_nil b rest)]
    | cons c front =>
        obtain ⟨rfl, -⟩ := List.cons.inj hsplit
        exact absurd (h.symm.trans (hfront a List.mem_cons_self)) (by decide)

/-- The condition at an entry that is not accepted is the one on the rest. -/
theorem firstAccepted_cons_neg (h : accepted a = false) :
    FirstAccepted wanted accepted (a :: rest) ↔ FirstAccepted wanted accepted rest := by
  constructor
  · intro hfirst front a' behind hsplit hfront haccepted
    refine hfirst (a :: front) a' behind (by rw [hsplit]; rfl) ?_ haccepted
    intro c hc
    rcases List.mem_cons.mp hc with rfl | hc
    · exact h
    · exact hfront c hc
  · intro hfirst front a' behind hsplit hfront haccepted
    cases front with
    | nil =>
        obtain ⟨rfl, -⟩ := List.cons.inj hsplit
        exact absurd (h.symm.trans haccepted) (by decide)
    | cons c front =>
        obtain ⟨rfl, hrest⟩ := List.cons.inj hsplit
        exact hfirst front a' behind hrest (fun d hd => hfront d (List.mem_cons_of_mem a hd))
          haccepted

/-- **The walk against the whole list.** Looking for accepted entries among all but the last gives
the first wanted one of all exactly under the condition. -/
theorem firstIcao_dropLast_iff (hsub : ∀ a, wanted a = true → accepted a = true)
    (airports : List (Airport ℚ)) :
    firstIcao accepted airports.dropLast = firstIcao wanted airports
      ↔ FirstAccepted wanted accepted airports := by
  induction airports with
  | nil =>
      refine iff_of_true rfl fun front a behind hsplit _ _ => ?_
      simp at hsplit
  | cons a rest ih =>
      cases rest with
      | nil =>
          rw [firstAccepted_singleton (hsub a), List.dropLast_singleton]
          show noIcao = _ ↔ _
          cases hwanted : wanted a with
          | true =>
              rw [firstIcao_cons_pos hwanted]
              exact ⟨fun h _ => h.symm, fun h => (h rfl).symm⟩
          | false =>
              rw [firstIcao_cons_neg hwanted]
              exact iff_of_true rfl fun h => absurd h (by decide)
      | cons b rest =>
          rw [List.dropLast_cons_cons]
          cases haccepted : accepted a with
          | true =>
              rw [firstIcao_cons_pos haccepted, firstAccepted_cons_pos haccepted]
              cases hwanted : wanted a with
              | true => exact iff_of_true (firstIcao_cons_pos hwanted).symm (Or.inl rfl)
              | false =>
                  rw [firstIcao_cons_neg hwanted]
                  exact ⟨Or.inr, fun h => h.resolve_left (by decide)⟩
          | false =>
              have hwanted : wanted a = false := by
                cases hw : wanted a with
                | false => rfl
                | true => exact absurd (haccepted.symm.trans (hsub a hw)) (by decide)
              rw [firstIcao_cons_neg haccepted, firstIcao_cons_neg hwanted,
                firstAccepted_cons_neg haccepted]
              exact ih

end Walk

/-! ## Tuned frequencies in whole kHz -/

/-- A negative frequency is looked for below zero, whatever the rounding of its kHz does. -/
theorem searchFrequency_nonpos {frequency : ℚ} (h : frequency ≤ 0) :
    searchFrequency frequency ≤ 0 := by
  unfold searchFrequency
  simp only
  split
  · -- lowered and rounded up, it still is not positive
    have hceil : ⌈(frequency - 5 / 1000) * 1000⌉ ≤ 0 := by
      rw [Int.ceil_le]
      push_cast
      linarith
    show (⌈(frequency - 5 / 1000) * 1000⌉ : ℚ) / 1000 ≤ 0
    have hcast : (⌈(frequency - 5 / 1000) * 1000⌉ : ℚ) ≤ 0 := by exact_mod_cast hceil
    linarith
  · exact h

/-- `icaobypos` in whole kHz: the walk, when the frequency looked for is in the band. -/
theorem icaobypos_int (distance : ℚ → ℚ → ℚ → ℚ → ℚ) (airports : List (Airport ℚ)) (t : ℤ)
    (planeLat planeLon range : ℚ) :
    icaobypos distance airports ((t : ℚ) / 1000) planeLat planeLon range
      = if 108000 ≤ loweredKhz t ∧ loweredKhz t ≤ 140000 then
          icaobyposLoop
            (stationInRange distance ((loweredKhz t : ℚ) / 1000) planeLat planeLon range) airports
        else some noIcao := by
  rcases lt_or_ge t 0 with hneg | hpos
  · -- far below the band
    have hlow : ¬ (108000 ≤ loweredKhz t ∧ loweredKhz t ≤ 140000) := by
      unfold loweredKhz
      split <;> omega
    have hsearch : searchFrequency ((t : ℚ) / 1000) ≤ 0 := by
      apply searchFrequency_nonpos
      have hcast : (t : ℚ) ≤ 0 := by exact_mod_cast hneg.le
      linarith
    have hband : CFloat.le (lowerFrqLimit : ℚ) (searchFrequency ((t : ℚ) / 1000)) = false := by
      rw [le_exact, lowerFrqLimit, lit_exact]
      exact decide_eq_false (by linarith)
    unfold icaobypos
    simp only [hband, Bool.false_and]
    rw [if_neg hlow]
    rfl
  · obtain ⟨n, rfl⟩ := Int.eq_ofNat_of_zero_le hpos
    have hlowered : loweredKhz n = (searchKhz n : ℤ) := by
      unfold loweredKhz searchKhz
      split_ifs <;> omega
    have hrange : (108000 ≤ loweredKhz n ∧ loweredKhz n ≤ 140000) ↔
        (108000 ≤ searchKhz n ∧ searchKhz n ≤ 140000) := by
      rw [hlowered]
      omega
    unfold icaobypos
    rw [Int.cast_natCast, searchFrequency_exact]
    simp only [hlowered, Int.cast_natCast]
    rw [hlowered] at hrange
    exact if_congr ((band_exact _).trans hrange.symm) rfl rfl

/-! ## Both lookups -/

/-- An entry exactly on a whole number of kHz is also on it for the walk. -/
theorem stationInRange_of_exactInRange {distance : ℚ → ℚ → ℚ → ℚ → ℚ}
    {frequency planeLat planeLon range : ℚ} {a : Airport ℚ}
    (h : exactInRange distance frequency planeLat planeLon range a = true) :
    stationInRange distance frequency planeLat planeLon range a = true := by
  unfold exactInRange at h
  rw [Bool.and_eq_true] at h
  unfold stationInRange onFrequency
  rw [eq_exact, eq_exact, le_exact, h.1, h.2, Bool.or_true, Bool.and_true]

/-- When `icaobypos` is right: the frequency looked for is outside the band, or the list is not
empty and the first entry the walk accepts is the right one. -/
def LookupRight (distance : ℚ → ℚ → ℚ → ℚ → ℚ) (airports : List (Airport ℚ)) (t : ℤ)
    (planeLat planeLon range : ℚ) : Prop :=
  108000 ≤ loweredKhz t ∧ loweredKhz t ≤ 140000 →
    airports ≠ [] ∧
      FirstAccepted (exactInRange distance ((loweredKhz t : ℚ) / 1000) planeLat planeLon range)
        (stationInRange distance ((loweredKhz t : ℚ) / 1000) planeLat planeLon range) airports

/-- When `posbyicao` is right: the list is not empty, and a last entry with the code has another
one in front of it or stands at the zeros that mean no entry. -/
def PositionRight (airports : List (Airport ℚ)) (icao : List Char) : Prop :=
  airports ≠ [] ∧
    ∀ front a, airports = front ++ [a] → a.icao.val = icao →
      (∃ b ∈ front, b.icao.val = icao) ∨ (a.lon = 0 ∧ a.lat = 0)

/-- **`icaobypos` is right exactly under `LookupRight`.** -/
theorem icaobypos_eq_stationOn_iff (distance : ℚ → ℚ → ℚ → ℚ → ℚ) (airports : List (Airport ℚ))
    (t : ℤ) (planeLat planeLon range : ℚ) :
    icaobypos distance airports ((t : ℚ) / 1000) planeLat planeLon range
        = some (stationOn distance airports t planeLat planeLon range)
      ↔ LookupRight distance airports t planeLat planeLon range := by
  rw [icaobypos_int]
  unfold stationOn LookupRight
  by_cases hband : 108000 ≤ loweredKhz t ∧ loweredKhz t ≤ 140000
  · rw [if_pos hband, if_pos hband]
    by_cases hempty : airports = []
    · -- the null pointer is read
      subst hempty
      refine iff_of_false (by simp [icaobyposLoop]) fun h => ?_
      exact (h hband).1 rfl
    · rw [icaobyposLoop_eq _ hempty, Option.some_inj]
      refine (firstIcao_dropLast_iff (fun a => stationInRange_of_exactInRange) airports).trans ?_
      exact ⟨fun h _ => ⟨hempty, h⟩, fun h => (h hband).2⟩
  · rw [if_neg hband, if_neg hband]
    exact iff_of_true rfl fun h => absurd h hband

/-- **`posbyicao` is right exactly under `PositionRight`.** -/
theorem posbyicao_eq_positionOf_iff (airports : List (Airport ℚ)) (icao : List Char) :
    posbyicao airports icao = some (positionOf airports icao) ↔ PositionRight airports icao := by
  unfold PositionRight
  rcases List.eq_nil_or_concat' airports with rfl | ⟨front, a, rfl⟩
  · exact iff_of_false (by simp [posbyicao, posbyicaoLoop]) fun h => h.1 rfl
  · have hne : front ++ [a] ≠ [] := by simp
    rw [posbyicao, posbyicaoLoop_eq icao hne, Option.some_inj, positionOf, List.dropLast_concat,
      List.find?_append]
    cases hfind : front.find? fun a => decide (a.icao.val = icao) with
    | some b =>
        -- an entry in front of the last decides for both
        have hcode := List.find?_some hfind
        have hb : b ∈ front ∧ b.icao.val = icao :=
          ⟨List.mem_of_find?_eq_some hfind, of_decide_eq_true hcode⟩
        refine iff_of_true rfl ⟨hne, fun front' a' hsplit _ => Or.inl ⟨b, ?_, hb.2⟩⟩
        exact (List.append_singleton_inj.mp hsplit).1 ▸ hb.1
    | none =>
        have hfront : ∀ b ∈ front, b.icao.val ≠ icao := by
          intro b hb
          simpa using List.find?_eq_none.mp hfind b hb
        by_cases hcode : a.icao.val = icao
        · have hlast : [a].find? (fun a => decide (a.icao.val = icao)) = some a := by
            simp [hcode]
          rw [hlast]
          constructor
          · intro hzero
            have hpos : (⟨0, 0⟩ : Pos ℚ) = ⟨a.lon, a.lat⟩ := hzero
            rw [Pos.mk.injEq] at hpos
            refine ⟨hne, fun front' a' hsplit _ => Or.inr ?_⟩
            obtain ⟨-, rfl⟩ := List.append_singleton_inj.mp hsplit
            exact ⟨hpos.1.symm, hpos.2.symm⟩
          · rintro ⟨-, hright⟩
            rcases hright front a rfl hcode with ⟨b, hb, hbcode⟩ | ⟨hlon, hlat⟩
            · exact absurd hbcode (hfront b hb)
            · show (⟨0, 0⟩ : Pos ℚ) = ⟨a.lon, a.lat⟩
              rw [hlon, hlat]
        · have hlast : [a].find? (fun a => decide (a.icao.val = icao)) = none := by
            simp [hcode]
          rw [hlast]
          refine iff_of_true rfl ⟨hne, fun front' a' hsplit ha' => ?_⟩
          obtain ⟨-, rfl⟩ := List.append_singleton_inj.mp hsplit
          exact absurd ha' hcode

/-- **When the lookups consider every loaded entry**, for every list, tuned frequency in whole kHz,
position, range, distance function and code. -/
theorem lookups_consider_every_entry_iff (distance : ℚ → ℚ → ℚ → ℚ → ℚ)
    (airports : List (Airport ℚ)) (t : ℤ) (planeLat planeLon range : ℚ) (icao : List Char) :
    (icaobypos distance airports ((t : ℚ) / 1000) planeLat planeLon range
          = some (stationOn distance airports t planeLat planeLon range)
        ↔ LookupRight distance airports t planeLat planeLon range) ∧
      (posbyicao airports icao = some (positionOf airports icao) ↔ PositionRight airports icao) :=
  ⟨icaobypos_eq_stationOn_iff distance airports t planeLat planeLon range,
    posbyicao_eq_positionOf_iff airports icao⟩

/-- **The last entry is not considered**, and no list at all is read through: the only tower of a
list is found neither on its frequency nor by its code. -/
theorem last_entry_not_considered :
    let tower := twoStations.airportlist.take 1
    icaobypos meridianDistance tower (((118500 : ℤ) : ℚ) / 1000) 50 8 100 = some noIcao ∧
      stationOn meridianDistance tower 118500 50 8 100 = eddf ∧
      posbyicao tower eddf.val = some ⟨0, 0⟩ ∧ positionOf tower eddf.val = ⟨8, 50⟩ ∧
      icaobypos meridianDistance [] (((118500 : ℤ) : ℚ) / 1000) 50 8 100 = none := by
  decide +kernel

end Fgcom
