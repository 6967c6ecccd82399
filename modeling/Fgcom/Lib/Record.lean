import Mathlib.Algebra.BigOperators.Group.List.Basic
import Mathlib.Algebra.GroupWithZero.Nat

/-! # Records of separated fields

A record is a list of fields written one after the other with a separator in front of every field
but the first. Nothing in a field is escaped.

* **`splitOn_record`** — splitting a record splits its fields.
* **`splitOn_record_of_notMem`** — fields without the separator come back.
* **`length_splitOn_record_iff`** — as many pieces as fields come back only then.
* **`splitOn_lines`** — a text of lines, each with its line end, gives the lines and an empty
  rest.
* **`cut_inj`** — a text is cut at the first of its separators in one way. -/

namespace Record

variable {α : Type*} [BEq α] [LawfulBEq α] {sep : α}

omit [BEq α] [LawfulBEq α] in
/-- The first field, and every other field behind a separator. -/
def record (sep : α) (head : List α) (fields : List (List α)) : List α :=
  head ++ fields.flatMap (sep :: ·)

omit [BEq α] [LawfulBEq α] in
/-- Every field takes its own length and a separator. -/
theorem length_record (head : List α) (fields : List (List α)) :
    (record sep head fields).length
      = head.length + (fields.map fun f => f.length + 1).sum := by
  rw [record, List.length_append, List.length_flatMap]
  rfl

/-- **Splitting a record splits its fields.** -/
theorem splitOn_record (head : List α) (fields : List (List α)) :
    (record sep head fields).splitOn sep
      = head.splitOn sep ++ fields.flatMap (List.splitOn sep) := by
  induction fields generalizing head with
  | nil => rw [record, List.flatMap_nil, List.flatMap_nil, List.append_nil, List.append_nil]
  | cons f fields ih =>
      have hsplit : record sep head (f :: fields) = head ++ sep :: record sep f fields := rfl
      rw [hsplit, List.splitOn_append_cons_self, ih, List.flatMap_cons]

/-- Fields without the separator are split off whole. -/
theorem flatMap_splitOn_of_notMem {fields : List (List α)} (h : ∀ f ∈ fields, sep ∉ f) :
    fields.flatMap (List.splitOn sep) = fields := by
  induction fields with
  | nil => rfl
  | cons f fields ih =>
      rw [List.flatMap_cons, List.splitOn_eq_singleton (h f List.mem_cons_self),
        ih fun g hg => h g (List.mem_cons_of_mem f hg)]
      rfl

/-- A field has at least one piece, and only one if it is without the separator. -/
theorem length_splitOn_le_one_iff {s : List α} : (s.splitOn sep).length ≤ 1 ↔ sep ∉ s := by
  constructor
  · intro hlen hmem
    obtain ⟨x, y, rfl, -⟩ := List.eq_append_cons_of_mem hmem
    rw [List.splitOn_append_cons_self, List.length_append] at hlen
    have hx := List.length_pos_of_ne_nil (List.splitOn_ne_nil sep x)
    have hy := List.length_pos_of_ne_nil (List.splitOn_ne_nil sep y)
    omega
  · intro hmem
    exact Nat.le_of_eq (congrArg List.length (List.splitOn_eq_singleton hmem))

omit [LawfulBEq α] in
/-- Every field gives at least one piece. -/
theorem length_le_length_flatMap_splitOn (fields : List (List α)) :
    fields.length ≤ (fields.flatMap (List.splitOn sep)).length := by
  induction fields with
  | nil => exact Nat.zero_le _
  | cons f fields ih =>
      have hf := List.length_pos_of_ne_nil (List.splitOn_ne_nil sep f)
      rw [List.flatMap_cons, List.length_append, List.length_cons]
      omega

/-- No more pieces than fields: no field has the separator. -/
theorem notMem_of_length_flatMap_splitOn_le {fields : List (List α)}
    (h : (fields.flatMap (List.splitOn sep)).length ≤ fields.length) : ∀ f ∈ fields, sep ∉ f := by
  induction fields with
  | nil => exact fun f hf => absurd hf List.not_mem_nil
  | cons f fields ih =>
      have hf := List.length_pos_of_ne_nil (List.splitOn_ne_nil sep f)
      have hfields : fields.length ≤ (fields.flatMap (List.splitOn sep)).length :=
        length_le_length_flatMap_splitOn fields
      rw [List.flatMap_cons, List.length_append, List.length_cons] at h
      exact List.forall_mem_cons.mpr
        ⟨length_splitOn_le_one_iff.mp (by omega), ih (by omega)⟩

variable {head : List α} {fields : List (List α)}

/-- **Fields without the separator come back.** -/
theorem splitOn_record_of_notMem (hhead : sep ∉ head) (h : ∀ f ∈ fields, sep ∉ f) :
    (record sep head fields).splitOn sep = head :: fields := by
  rw [splitOn_record, List.splitOn_eq_singleton hhead, flatMap_splitOn_of_notMem h]
  rfl

/-- **A field with the separator gives pieces of its own.** -/
theorem length_splitOn_record_iff (hhead : sep ∉ head) :
    ((record sep head fields).splitOn sep).length = fields.length + 1 ↔
      ∀ f ∈ fields, sep ∉ f := by
  constructor
  · intro hlen
    rw [splitOn_record, List.splitOn_eq_singleton hhead, List.singleton_append,
      List.length_cons] at hlen
    exact notMem_of_length_flatMap_splitOn_le (by omega)
  · intro h
    rw [splitOn_record_of_notMem hhead h, List.length_cons]

/-- **Lines come back**, with an empty rest behind the last line end. -/
theorem splitOn_lines {ls : List (List α)} (h : ∀ l ∈ ls, sep ∉ l) :
    (ls.flatMap (· ++ [sep])).splitOn sep = ls ++ [[]] := by
  induction ls with
  | nil => exact List.splitOn_nil sep
  | cons l ls ih =>
      rw [List.flatMap_cons, List.append_assoc, List.singleton_append,
        List.splitOn_append_cons_self_of_not_mem (h l List.mem_cons_self),
        ih fun l' hl' => h l' (List.mem_cons_of_mem l hl')]
      rfl

/-! ## Cuts -/

omit [BEq α] [LawfulBEq α] in
/-- **A text is cut at the first of its separators in one way.** -/
theorem cut_inj {p : α → Bool} {u v s t : List α} {c d : α} (hu : ∀ x ∈ u, p x = false)
    (hv : ∀ x ∈ v, p x = false) (hc : p c = true) (hd : p d = true)
    (h : u ++ c :: s = v ++ d :: t) : u = v ∧ s = t := by
  have hsep : ∀ {x y : α}, p x = true → p y = false → x ≠ y := fun hx hy hxy =>
    Bool.false_ne_true ((hy.symm.trans (congrArg p hxy.symm)).trans hx)
  induction u generalizing v with
  | nil =>
      cases v with
      | nil => exact ⟨rfl, (List.cons.inj h).2⟩
      | cons y v => exact absurd (List.cons.inj h).1 (hsep hc (hv y List.mem_cons_self))
  | cons x u ih =>
      cases v with
      | nil => exact absurd (List.cons.inj h).1.symm (hsep hd (hu x List.mem_cons_self))
      | cons y v =>
          obtain ⟨rfl, hrest⟩ := List.cons.inj h
          obtain ⟨rfl, hst⟩ :=
            ih (List.forall_mem_cons.mp hu).2 (List.forall_mem_cons.mp hv).2 hrest
          exact ⟨rfl, hst⟩

end Record
