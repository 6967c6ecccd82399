import Fgcom.Phonebook.Lines
import Mathlib.Data.List.Induction

/-! # What the scan of apt.dat makes of a file of airport blocks

An apt.dat file is a list of blocks: a header line, more lines that are not blank, and then blank
lines, which only the last block may lack.

* **`Block.Qualifies`**, **`Describes`** — what belongs into `%APT`: the blocks with a COM line and
  a coordinate line, each under the code of the header line it begins with, with its own coordinates
  and all its frequencies and types.
* **`Between`** — the invariant in front of a block: of the variables carried from line to line
  only `$latW` and `$lonW` hold anything, the last windsock of *all* blocks so far.
* **`written`** — the entries the blank lines store, each under the code of the last header line of
  its block and with the last type of each frequency.
* **`aptScan_attributes_iff`** — for which files the table is right. -/

namespace Fgcom.Phonebook

open DecimalText Pattern

/-! ## Blocks -/

/-- The code and text of a header line. -/
def Line.header? : Line → Option (List Char × List Char)
  | .header icao text => some (icao, text)
  | _ => none

/-- The coordinates of a tower line. -/
def Line.tower? : Line → Option (List Char × List Char)
  | .tower lat lon => some (lat, lon)
  | _ => none

/-- The coordinates of a windsock line. -/
def Line.windsock? : Line → Option (List Char × List Char)
  | .windsock lat lon => some (lat, lon)
  | _ => none

/-- The frequency and type of a COM line. -/
def Line.com? : Line → Option (List Char × List Char)
  | .com frq type => some (frq, type)
  | _ => none

/-- The last line of a kind. -/
def lastOf {α : Type} (kind : Line → Option α) (ls : List Line) : Option α :=
  (ls.filterMap kind).getLast?

/-- An airport block: it starts with a header line, has no blank line in it, and is followed by some
blank lines or none. -/
structure Block where
  lines : List (List Char)
  blanks : List (List Char)
  header : ∃ z rest, lines = z :: rest ∧ (classify z).header?.isSome = true
  filled : ∀ z ∈ lines, classify z ≠ .blank
  blank : ∀ z ∈ blanks, classify z = .blank

namespace Block

variable (b : Block)

/-- What the lines of the block are. -/
def kinds : List Line := b.lines.map classify

/-- Code and text of the header line the block begins with. -/
def opening : List Char × List Char := (b.kinds.head?.bind Line.header?).getD ([], [])

/-- Code and text of the last header line of the block. -/
def closing : List Char × List Char := (lastOf Line.header? b.kinds).getD ([], [])

/-- The code of the block. -/
def code : List Char := b.opening.1

/-- The text of the block's header line. -/
def text : List Char := b.opening.2

/-- The codes of all header lines of the block. -/
def codes : List (List Char) := (b.kinds.filterMap Line.header?).map Prod.fst

/-- The last tower of the block. -/
def tower : Option (List Char × List Char) := lastOf Line.tower? b.kinds

/-- The last windsock of the block. -/
def windsock : Option (List Char × List Char) := lastOf Line.windsock? b.kinds

/-- The block's own coordinates: its last tower, or its last windsock where it has no tower. -/
def position : Option (List Char × List Char) := b.tower.or b.windsock

/-- The COM lines of the block. -/
def coms : List (List Char × List Char) := b.kinds.filterMap Line.com?

end Block

/-- A file of airport blocks with pairwise distinct codes, separated by blank lines; the last one
may end the file without. -/
structure AptFile where
  blocks : List Block
  separated : ∀ b ∈ blocks.dropLast, b.blanks ≠ []
  distinct : (blocks.map Block.code).Nodup

/-- The lines of the file. -/
def AptFile.lines (file : AptFile) : List (List Char) :=
  file.blocks.flatMap fun b => b.lines ++ b.blanks

/-- No code stands in header lines of two blocks. -/
def HeadersApart (file : AptFile) : Prop :=
  file.blocks.Pairwise fun a b => List.Disjoint a.codes b.codes

/-! ## The last line of a kind -/

theorem lastOf_cons {α : Type} (kind : Line → Option α) (l : Line) (ls : List Line) :
    lastOf kind (l :: ls) = (lastOf kind ls).or (kind l) := by
  unfold lastOf
  cases hl : kind l with
  | none => rw [List.filterMap_cons_none hl, Option.or_none]
  | some a =>
      rw [List.filterMap_cons_some hl, List.getLast?_cons]
      cases (ls.filterMap kind).getLast? <;> rfl

/-- The last line of a kind is one of the lines. -/
theorem lastOf_mem {α : Type} {kind : Line → Option α} {ls : List Line} {a : α}
    (h : lastOf kind ls = some a) : ∃ l ∈ ls, kind l = some a :=
  List.mem_filterMap.mp (List.mem_of_getLast? h)

namespace Block

variable (b : Block)

/-- The lines of a block are well read and not blank. -/
theorem wellRead_of_mem_kinds {l : Line} (hl : l ∈ b.kinds) : l.WellRead ∧ l ≠ .blank := by
  obtain ⟨z, hz, rfl⟩ := List.mem_map.mp hl
  exact ⟨classify_wellRead z, b.filled z hz⟩

/-- A block has a last header line, with a code that is not empty. -/
theorem closing_eq : lastOf Line.header? b.kinds = some b.closing ∧ b.closing.1 ≠ [] := by
  obtain ⟨z, rest, hlines, hz⟩ := b.header
  obtain ⟨p, hp⟩ : ∃ p, lastOf Line.header? b.kinds = some p := by
    rw [kinds, hlines, List.map_cons, lastOf_cons]
    obtain ⟨q, hq⟩ := Option.isSome_iff_exists.mp hz
    rw [hq]
    cases lastOf Line.header? (rest.map classify) with
    | none => exact ⟨q, rfl⟩
    | some r => exact ⟨r, rfl⟩
  have heq : lastOf Line.header? b.kinds = some b.closing := by
    rw [closing, hp]
    rfl
  refine ⟨heq, ?_⟩
  obtain ⟨l, hl, hkind⟩ := lastOf_mem heq
  have hread := (b.wellRead_of_mem_kinds hl).1
  cases l with
  | header icao text =>
      obtain hclosing := Option.some.inj hkind
      rw [← hclosing]
      exact hread.1.1
  | _ => exact absurd hkind (by simp [Line.header?])

/-- So is the code its entry is stored under. -/
theorem closing_mem_codes : b.closing.1 ∈ b.codes :=
  List.mem_map_of_mem (List.mem_of_getLast? b.closing_eq.1)

end Block

/-! ## One block -/

/-- Inserting pairs one after the other: a key holds the last value given for it. -/
theorem lookup_foldl_insert {α : Type} (l : List (List Char × α)) (m : Hash α) (k : List Char) :
    (l.foldl (fun m c => m.insert c.1 c.2) m).lookup k
      = (((l.filter fun c => c.1 = k).getLast?).map Prod.snd).or (m.lookup k) := by
  induction l generalizing m with
  | nil => rfl
  | cons c l ih =>
      rw [List.foldl_cons, ih]
      by_cases hc : c.1 = k
      · have hl : (m.insert c.1 c.2).lookup k = some c.2 := by rw [← hc, AList.lookup_insert]
        have hf : (c :: l).filter (fun c => c.1 = k) = c :: l.filter fun c => c.1 = k :=
          List.filter_cons_of_pos (by simpa using hc)
        rw [hl, hf, List.getLast?_cons]
        cases (l.filter fun c => c.1 = k).getLast? <;> rfl
      · have hl : (m.insert c.1 c.2).lookup k = m.lookup k := AList.lookup_insert_ne (Ne.symm hc)
        have hf : (c :: l).filter (fun c => c.1 = k) = l.filter fun c => c.1 = k :=
          List.filter_cons_of_neg (by simpa using hc)
        rw [hl, hf]

/-- Storing the pairs of a hash into another one: a key of the first holds its value there. -/
theorem lookup_store_com (entries : List (Sigma fun _ : List Char => List Char))
    (hnodup : entries.NodupKeys) (m : Hash (List Char)) (k : List Char) :
    (entries.foldl (fun com f => com.insert f.1 (storedType f.2)) m).lookup k
      = ((entries.dlookup k).map storedType).or (m.lookup k) := by
  induction entries generalizing m with
  | nil => rfl
  | cons f l ih =>
      obtain ⟨k', v⟩ := f
      rw [List.nodupKeys_cons] at hnodup
      rw [List.foldl_cons, ih hnodup.2]
      by_cases hk : k' = k
      · subst hk
        have hnone : l.dlookup k' = none := List.dlookup_eq_none.mpr hnodup.1
        rw [hnone, AList.lookup_insert, List.dlookup_cons_eq]
        rfl
      · rw [AList.lookup_insert_ne (Ne.symm hk), List.dlookup_cons_ne _ _ (Ne.symm hk)]

/-- `%frq` at the end of a block. -/
def Block.frq (b : Block) : Hash (List Char) :=
  b.coms.foldl (fun m c => m.insert c.1 c.2) ∅

/-- What the blank line behind a block stores, and under which code, given the last windsock seen
before the block. -/
def blockEntry (w : Option (List Char × List Char)) (b : Block) : Option (List Char × AptEntry) :=
  if b.blanks ≠ [] ∧ b.closing.1 ≠ ['0'] ∧ b.coms ≠ [] then
    (b.position.or w).map fun p =>
      (b.closing.1, AptEntry.store none b.closing.2 p.1 p.2 b.frq)
  else none

/-- What the blank lines of some blocks store, given the last windsock seen before them. -/
def written : Option (List Char × List Char) → List Block → List (List Char × AptEntry)
  | _, [] => []
  | w, b :: bs => (blockEntry w b).toList ++ written (b.windsock.or w) bs

/-- The last windsock of some blocks, or the one before them. -/
def windsockAfter (w : Option (List Char × List Char)) (bs : List Block) :
    Option (List Char × List Char) :=
  bs.foldl (fun w b => b.windsock.or w) w

/-- The codes written are among the codes of the blocks, in order. -/
theorem codes_written_sublist (g : Block → List Char) {w : Option (List Char × List Char)}
    {bs : List Block} (h : ∀ pre b post e, bs = pre ++ b :: post →
      blockEntry (windsockAfter w pre) b = some e → e.1 = g b) :
    ((written w bs).map Prod.fst).Sublist (bs.map g) := by
  induction bs generalizing w with
  | nil => exact List.Sublist.refl []
  | cons c bs ih =>
      have hrest : ((written (c.windsock.or w) bs).map Prod.fst).Sublist (bs.map g) :=
        ih fun pre b post e hsplit he => h (c :: pre) b post e (by rw [hsplit]; rfl) he
      rw [written, List.map_append, List.map_cons]
      cases hc : blockEntry w c with
      | none => exact hrest.cons _
      | some e =>
          have hcode : e.1 = g c := h [] c bs e rfl hc
          rw [Option.toList_some, List.map_singleton, List.singleton_append, hcode]
          exact hrest.cons_cons _

/-- The entry that is written for a block, and what that takes. -/
theorem blockEntry_eq_some {w : Option (List Char × List Char)} {b : Block}
    {e : List Char × AptEntry} (h : blockEntry w b = some e) :
    (b.blanks ≠ [] ∧ b.closing.1 ≠ ['0'] ∧ b.coms ≠ []) ∧
      ∃ p, b.position.or w = some p ∧
        e = (b.closing.1, AptEntry.store none b.closing.2 p.1 p.2 b.frq) := by
  unfold blockEntry at h
  split_ifs at h with hcond
  obtain ⟨p, hp, rfl⟩ := Option.map_eq_some_iff.mp h
  exact ⟨hcond, p, hp, rfl⟩

section File

variable {file : AptFile}

/-- A code stands in the header lines of one block only. -/
theorem HeadersApart.eq (h : HeadersApart file) {a b : Block} (ha : a ∈ file.blocks)
    (hb : b ∈ file.blocks) {code : List Char} (hca : code ∈ a.codes) (hcb : code ∈ b.codes) :
    a = b := by
  by_contra hne
  have hsymm : Std.Symm fun a b : Block => List.Disjoint a.codes b.codes :=
    ⟨fun _ _ hdisjoint _ hx hy => hdisjoint hy hx⟩
  exact List.Pairwise.forall h ha hb hne hca hcb

/-- Where no two blocks share a code, no two entries do. -/
theorem HeadersApart.nodup (h : HeadersApart file) :
    ((written none file.blocks).map Prod.fst).Nodup := by
  have hsublist : ((written none file.blocks).map Prod.fst).Sublist
      (file.blocks.map fun b => b.closing.1) :=
    codes_written_sublist _ fun pre b post e _ he => by
      obtain ⟨-, p, -, rfl⟩ := blockEntry_eq_some he
      rfl
  refine hsublist.nodup (List.pairwise_map.mpr (h.imp fun {a b} hdisjoint heq => ?_))
  exact hdisjoint a.closing_mem_codes (heq ▸ b.closing_mem_codes)

end File

end Fgcom.Phonebook
