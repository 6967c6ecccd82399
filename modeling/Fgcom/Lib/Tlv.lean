import Mathlib.Data.List.Basic
import Mathlib.Data.List.Induction
import Mathlib.Tactic.SplitIfs

/-! # Elements of type, length and value

A text of elements: each is one byte for its type, one byte for the length of its value, and the
value.

* **`encode els`**, **`decode bytes`** — the text of some elements, and the elements of a text.
* **`decode_encode`**, **`encode_of_decode`** — a text has the elements it is the text of, and no
  others.
* **`lastOf t els`** — the value of the last element of a type.
* **`number v`** — the number some bytes stand for, the highest first. -/

namespace Tlv

/-- An element: its type and its value. -/
abbrev Element := UInt8 × List UInt8

/-- The text of some elements. -/
def encode (els : List Element) : List UInt8 :=
  els.flatMap fun e => e.1 :: UInt8.ofNat e.2.length :: e.2

/-- The length of each value fits into a byte. -/
def Short (els : List Element) : Prop := ∀ e ∈ els, e.2.length < 256

instance (els : List Element) : Decidable (Short els) :=
  inferInstanceAs (Decidable (∀ e ∈ els, _))

/-- The elements of a text: `none` if it is cut off within an element. -/
def decode (bytes : List UInt8) : Option (List Element) :=
  match bytes with
  | [] => some []
  | [_] => none
  | t :: n :: rest =>
      if rest.length < n.toNat then none
      else (decode (rest.drop n.toNat)).map ((t, rest.take n.toNat) :: ·)
termination_by bytes.length
decreasing_by simp only [List.length_drop, List.length_cons]; omega

/-- The value of the last element of a type. -/
def lastOf (t : UInt8) (els : List Element) : Option (List UInt8) :=
  els.foldl (fun last e => if e.1 = t then some e.2 else last) none

/-- The number some bytes stand for, the highest first. -/
def number (v : List UInt8) : ℕ := v.foldl (fun n b => 256 * n + b.toNat) 0

/-! ## Texts -/

variable {t : UInt8} {v bytes : List UInt8} {els : List Element}

@[simp] theorem encode_nil : encode [] = [] := rfl

@[simp] theorem encode_cons (t : UInt8) (v : List UInt8) (els : List Element) :
    encode ((t, v) :: els) = t :: UInt8.ofNat v.length :: (v ++ encode els) := rfl

@[simp] theorem encode_append (els more : List Element) :
    encode (els ++ more) = encode els ++ encode more := List.flatMap_append

/-- Every element has two bytes more than its value. -/
theorem length_encode_cons (t : UInt8) (v : List UInt8) (els : List Element) :
    (encode ((t, v) :: els)).length = v.length + (encode els).length + 2 := by
  simp

theorem short_cons : Short ((t, v) :: els) ↔ v.length < 256 ∧ Short els := by
  simp [Short]

/-- The byte for the length says the length. -/
theorem toNat_length (h : v.length < 256) : (UInt8.ofNat v.length).toNat = v.length := by
  simpa using h

/-- **A text is read back**, if its values are short. -/
theorem decode_encode (h : Short els) : decode (encode els) = some els := by
  induction els with
  | nil => simp [decode]
  | cons e els ih =>
      obtain ⟨t, v⟩ := e
      obtain ⟨hv, hels⟩ := short_cons.mp h
      rw [encode_cons, decode, toNat_length hv]
      simp [ih hels]

/-- What is read from a text is the text of what is read. -/
theorem encode_of_decode (h : decode bytes = some els) : Short els ∧ encode els = bytes := by
  fun_induction decode bytes generalizing els with
  | case1 =>
      obtain rfl := Option.some.inj h
      exact ⟨by simp [Short], rfl⟩
  | case2 => exact absurd h (by simp)
  | case3 => exact absurd h (by simp)
  | case4 t n rest hlen ih =>
      obtain ⟨els', hels, rfl⟩ := Option.map_eq_some_iff.mp h
      obtain ⟨hshort, htext⟩ := ih hels
      have htake : (rest.take n.toNat).length = n.toNat := by
        simp only [List.length_take]
        omega
      have hlt : (rest.take n.toNat).length < 256 := by
        rw [htake]
        exact n.toNat_lt
      refine ⟨short_cons.mpr ⟨hlt, hshort⟩, ?_⟩
      rw [encode_cons, htake, htext, List.take_append_drop]
      simp

/-! ## The last of a type -/

@[simp] theorem lastOf_nil (t : UInt8) : lastOf t [] = none := rfl

/-- One element more at the end. -/
theorem lastOf_concat (t : UInt8) (els : List Element) (e : Element) :
    lastOf t (els ++ [e]) = if e.1 = t then some e.2 else lastOf t els := by
  simp [lastOf]

@[simp] theorem lastOf_singleton (t : UInt8) (e : Element) :
    lastOf t [e] = if e.1 = t then some e.2 else none := rfl

/-- The last of two lists is in the second if it can be. -/
theorem lastOf_append (t : UInt8) (els more : List Element) :
    lastOf t (els ++ more) = (lastOf t more).or (lastOf t els) := by
  induction more using List.reverseRecOn with
  | nil => simp
  | append_singleton more e ih =>
      rw [← List.append_assoc, lastOf_concat, lastOf_concat, ih]
      split_ifs <;> rfl

/-- The last element of a type, if there is one. -/
theorem exists_last (t : UInt8) (els : List Element) :
    (lastOf t els = none ∧ ∀ e ∈ els, e.1 ≠ t) ∨
      ∃ front value back, els = front ++ (t, value) :: back ∧ lastOf t els = some value ∧
        ∀ e ∈ back, e.1 ≠ t := by
  induction els using List.reverseRecOn with
  | nil => exact Or.inl ⟨rfl, by simp⟩
  | append_singleton els e ih =>
      rw [lastOf_concat]
      by_cases he : e.1 = t
      · obtain ⟨ie, value⟩ := e
        obtain rfl : ie = t := he
        exact Or.inr ⟨els, value, [], rfl, if_pos rfl, by simp⟩
      · rw [if_neg he]
        rcases ih with ⟨hlast, hall⟩ | ⟨front, value, back, rfl, hlast, hback⟩
        · exact Or.inl ⟨hlast, by simpa [or_imp, forall_and, he] using hall⟩
        · refine Or.inr ⟨front, value, back ++ [e], by simp, hlast, ?_⟩
          simpa [or_imp, forall_and, he] using hback

/-- The last value of a type stands among the elements. -/
theorem exists_of_lastOf (h : lastOf t els = some v) :
    ∃ front back, els = front ++ (t, v) :: back := by
  rcases exists_last t els with ⟨hnone, -⟩ | ⟨front, value, back, hels, hlast, -⟩
  · exact absurd (hnone.symm.trans h) (by simp)
  · obtain rfl : value = v := Option.some.inj (hlast.symm.trans h)
    exact ⟨front, back, hels⟩

end Tlv
