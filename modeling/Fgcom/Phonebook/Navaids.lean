import Fgcom.Phonebook.Tables

/-! # Navaids on their way through the script

Each VOR line of nav.dat is to give a line of positions.txt with its own data. The scan keeps one
entry a code, so of several lines with one code the last wins, wherever on earth the others are.

* **`vorRecords`** — the VOR lines the scan reads, in order. `lookup_scanNav`: the table holds for
  each code its last record.
* **`OneEntryPerCode`** — records that share a code share all data.
* **`navaids_kept_iff`** — then and only then no navaid is lost or relocated. -/

namespace Fgcom.Phonebook

/-- The lines in front of the first one that starts with `99`. -/
def navLinesRead (lines : List (List Char)) : List (List Char) :=
  lines.takeWhile fun z => !(['9', '9'].isPrefixOf z)

/-- The codes and entries of the VOR lines the scan reads. -/
def vorRecords (lines : List (List Char)) : List (List Char × NavEntry) :=
  (navLinesRead lines).filterMap vorLine

/-- Records that share a code share all data. -/
def OneEntryPerCode (records : List (List Char × NavEntry)) : Prop :=
  ∀ r ∈ records, ∀ r' ∈ records, r.1 = r'.1 → r.2 = r'.2

instance (records : List (List Char × NavEntry)) : Decidable (OneEntryPerCode records) :=
  inferInstanceAs (Decidable (∀ r ∈ records, ∀ r' ∈ records, r.1 = r'.1 → r.2 = r'.2))

/-- The scan inserts the records one after the other. -/
theorem scanNav_eq (lines : List (List Char)) :
    scanNav lines = (vorRecords lines).foldl (fun nav r => nav.insert r.1 r.2) ∅ := by
  unfold scanNav vorRecords navLinesRead
  rw [List.foldl_filterMap]
  congr 1
  funext nav z
  cases vorLine z <;> rfl

/-- **What the table holds**: for each code the entry of its last record. -/
theorem lookup_scanNav (lines : List (List Char)) (code : List Char) :
    (scanNav lines).lookup code
      = (((vorRecords lines).filter fun r => r.1 = code).getLast?).map Prod.snd := by
  rw [scanNav_eq, lookup_foldl_insert, AList.lookup_empty, Option.or_none]

/-- An entry of the table is that of a record. -/
theorem mem_vorRecords_of_lookup {lines : List (List Char)} {code : List Char} {e : NavEntry}
    (h : (scanNav lines).lookup code = some e) : (code, e) ∈ vorRecords lines := by
  rw [lookup_scanNav] at h
  obtain ⟨r, hr, rfl⟩ := Option.map_eq_some_iff.mp h
  obtain ⟨hmem, hcode⟩ := List.mem_filter.mp (List.mem_of_getLast? hr)
  obtain rfl : r.1 = code := of_decide_eq_true hcode
  exact hmem

/-- Every record's code is in the table. -/
theorem exists_lookup_of_mem {lines : List (List Char)} {r : List Char × NavEntry}
    (hr : r ∈ vorRecords lines) : ∃ e, (scanNav lines).lookup r.1 = some e := by
  have hmem : r ∈ (vorRecords lines).filter fun r' => r'.1 = r.1 := by
    simpa using hr
  have hne : (vorRecords lines).filter (fun r' => r'.1 = r.1) ≠ [] := List.ne_nil_of_mem hmem
  rw [lookup_scanNav, List.getLast?_eq_some_getLast hne]
  exact ⟨_, rfl⟩

/-- The line of a VOR tells its code and entry. -/
theorem vorPosition_inj {v v' : List Char} {e e' : NavEntry}
    (h : vorPosition v e = vorPosition v' e') : v = v' ∧ e = e' := by
  obtain ⟨lat, lon, frq, text⟩ := e
  obtain ⟨lat', lon', frq', text'⟩ := e'
  simp only [vorPosition, PosLine.mk.injEq] at h
  obtain ⟨hv, hfrq, hlat, hlon, -, htext⟩ := h
  exact ⟨hv, by rw [hfrq, hlat, hlon, htext]⟩

/-- Without airports, a record has its line exactly when the table holds the record. -/
theorem vorPosition_mem_positions_empty {order : KeyOrder} {nav : Hash NavEntry}
    {r : List Char × NavEntry} :
    vorPosition r.1 r.2 ∈ positions order (scanApt []).apt nav ↔ nav.lookup r.1 = some r.2 := by
  rw [mem_positions]
  constructor
  · rintro (⟨a, e, f, type, he, -, -⟩ | ⟨v, e, he, heq⟩)
    · exact absurd he (by simp [scanApt, Scan.start])
    · obtain ⟨hv, he'⟩ := vorPosition_inj heq
      rw [hv, he', he]
  · intro h
    exact Or.inr ⟨r.1, r.2, h, rfl⟩

/-- **When no navaid is lost or relocated**: whatever apt.dat holds, each VOR line read gives a line
of positions.txt with its own data, and each line of the VOR loop comes from such a line, if and
only if VOR lines that share a code share all data. -/
theorem navaids_kept_iff (navLines : List (List Char)) :
    (∀ order aptLines,
      (∀ r ∈ vorRecords navLines,
        vorPosition r.1 r.2 ∈ positions order (scanApt aptLines).apt (scanNav navLines)) ∧
      ∀ x ∈ vors (scanNav navLines), x ∈ vorRecords navLines) ↔
    OneEntryPerCode (vorRecords navLines) := by
  constructor
  · intro hkept r hr r' hr' hcode
    -- with no airports around, the table itself has to hold both records
    obtain ⟨hlines, -⟩ := hkept ⟨fun _ keys => keys, fun _ _ => List.Perm.refl _⟩ []
    have h := vorPosition_mem_positions_empty.mp (hlines r hr)
    have h' := vorPosition_mem_positions_empty.mp (hlines r' hr')
    rw [hcode, h'] at h
    exact (Option.some.inj h).symm
  · intro hone order aptLines
    refine ⟨fun r hr => ?_, fun x hx => mem_vorRecords_of_lookup (mem_vors.mp hx)⟩
    obtain ⟨e, he⟩ := exists_lookup_of_mem hr
    have hsame : r.2 = e := hone r hr (r.1, e) (mem_vorRecords_of_lookup he) rfl
    exact mem_positions.mpr (Or.inr ⟨r.1, r.2, hsame ▸ he, rfl⟩)

/-- **A navaid lost**: of two VORs with one code the first is not written. -/
theorem navaid_lost :
    let navLines := ["3 50.05 8.64 426 11320 100 1.0 FFM FRANKFURT VORTAC".toList,
      "3 -33.95 18.60 150 11570 100 0.0 FFM CAPE TOWN VOR".toList, "99".toList]
    ∃ r ∈ vorRecords navLines, r.1 = "FFM".toList ∧ r.2.frq = "113.200".toList ∧
      vorPosition r.1 r.2 ∉ positions ⟨fun _ keys => keys, fun _ _ => List.Perm.refl _⟩
        (scanApt []).apt (scanNav navLines) := by
  decide +kernel

end Fgcom.Phonebook
