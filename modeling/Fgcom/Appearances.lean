import Mathlib.Data.Fin.Basic
import Mathlib.Data.List.FinRange
import Mathlib.Data.Fintype.Basic
import Mathlib.Logic.Function.Basic

/-! # The call appearances of the IAX library

Of the bundled iaxclient only what the client's `connected` depends on: a fixed number of call
appearances, each free or carrying a call, and one of them selected. `iaxc_call` puts a call on the
selected appearance, or on the first free one when the selected one is active, and selects it; an
incoming call takes the first free appearance; a reject, a hang-up or a time-out frees an
appearance.

Calls are numbered in the order in which they come up, so that a call that is gone can be told from
a later one on the same appearance. -/

namespace Fgcom

/-- The appearances. No call has a number from `next` on, and no two have the same. -/
structure Appearances (n : ℕ) where
  call : Fin n → Option ℕ
  selected : Fin n
  next : ℕ
  known : ∀ a c, call a = some c → c < next
  apart : ∀ a b c, call a = some c → call b = some c → a = b

namespace Appearances

variable {n : ℕ}

/-- All appearances free. -/
def start (selected : Fin n) : Appearances n where
  call := fun _ => none
  selected := selected
  next := 0
  known := fun _ _ h => absurd h (by simp)
  apart := fun _ _ _ h => absurd h (by simp)

/-- `iaxc_first_free_call`. -/
def firstFree (l : Appearances n) : Option (Fin n) :=
  (List.finRange n).find? fun a => l.call a = none

/-- The appearance `iaxc_call` puts a call on. -/
def target (l : Appearances n) : Option (Fin n) :=
  if l.call l.selected = none then some l.selected else l.firstFree

/-- A new call on an appearance. -/
def put (l : Appearances n) (a : Fin n) : Appearances n where
  call := Function.update l.call a (some l.next)
  selected := l.selected
  next := l.next + 1
  known := by
    intro b c hb
    by_cases hba : b = a
    · rw [hba, Function.update_self] at hb
      rw [← Option.some.inj hb]
      exact Nat.lt_succ_self _
    · rw [Function.update_of_ne hba] at hb
      exact Nat.lt_succ_of_lt (l.known b c hb)
  apart := by
    intro b b' c hb hb'
    -- an old call has a number below the new one's
    by_cases hba : b = a <;> by_cases hba' : b' = a
    · rw [hba, hba']
    · rw [hba, Function.update_self] at hb
      rw [Function.update_of_ne hba'] at hb'
      have := l.known b' c hb'
      have := Option.some.inj hb
      omega
    · rw [hba', Function.update_self] at hb'
      rw [Function.update_of_ne hba] at hb
      have := l.known b c hb
      have := Option.some.inj hb'
      omega
    · rw [Function.update_of_ne hba] at hb
      rw [Function.update_of_ne hba'] at hb'
      exact l.apart b b' c hb hb'

/-- `iaxc_select_call`. -/
def select (l : Appearances n) (a : Fin n) : Appearances n := { l with selected := a }

/-- `iaxc_call`: the appearances after it and the number of the call, if there was room for one. -/
def iaxcCall (l : Appearances n) : Appearances n × Option ℕ :=
  match l.target with
  | none => (l, none)
  | some a => ((l.put a).select a, some l.next)

/-- `iaxc_clear_call`. -/
def clear (l : Appearances n) (a : Fin n) : Appearances n where
  call := Function.update l.call a none
  selected := l.selected
  next := l.next
  known := by
    intro b c hb
    by_cases hba : b = a
    · rw [hba, Function.update_self] at hb
      exact absurd hb (by simp)
    · rw [Function.update_of_ne hba] at hb
      exact l.known b c hb
  apart := by
    intro b b' c hb hb'
    by_cases hba : b = a
    · rw [hba, Function.update_self] at hb
      exact absurd hb (by simp)
    · by_cases hba' : b' = a
      · rw [hba', Function.update_self] at hb'
        exact absurd hb' (by simp)
      · rw [Function.update_of_ne hba] at hb
        rw [Function.update_of_ne hba'] at hb'
        exact l.apart b b' c hb hb'

@[simp] theorem call_put_self (l : Appearances n) (a : Fin n) : (l.put a).call a = some l.next :=
  Function.update_self ..

theorem call_put_of_ne (l : Appearances n) {a b : Fin n} (h : b ≠ a) :
    (l.put a).call b = l.call b := Function.update_of_ne h ..

@[simp] theorem call_clear_self (l : Appearances n) (a : Fin n) : (l.clear a).call a = none :=
  Function.update_self ..

theorem call_clear_of_ne (l : Appearances n) {a b : Fin n} (h : b ≠ a) :
    (l.clear a).call b = l.call b := Function.update_of_ne h ..

/-- A call is up: it is on one of the appearances. -/
def Up (l : Appearances n) : Option ℕ → Prop
  | none => False
  | some c => ∃ a, l.call a = some c

instance (l : Appearances n) : ∀ c, Decidable (l.Up c)
  | none => isFalse id
  | some _ => inferInstanceAs (Decidable (∃ _, _))

/-- A call that is up is on an appearance. -/
theorem up_iff {l : Appearances n} {c : Option ℕ} : l.Up c ↔ c ≠ none ∧ ∃ a, l.call a = c := by
  cases c with
  | none => exact iff_of_false id fun h => h.1 rfl
  | some c => exact ⟨fun h => ⟨by simp, h⟩, fun h => h.2⟩

/-- Clearing an appearance ends the call on it and no other. -/
theorem up_clear {l : Appearances n} {a : Fin n} {c : Option ℕ} :
    (l.clear a).Up c ↔ l.Up c ∧ l.call a ≠ c := by
  rw [up_iff, up_iff]
  constructor
  · rintro ⟨hc, b, hb⟩
    have hba : b ≠ a := by
      rintro rfl
      exact hc (hb.symm.trans (l.call_clear_self b))
    rw [l.call_clear_of_ne hba] at hb
    refine ⟨⟨hc, b, hb⟩, fun ha => hba ?_⟩
    -- a call is on one appearance only
    obtain ⟨i, rfl⟩ := Option.ne_none_iff_exists'.mp hc
    exact l.apart b a i hb ha
  · rintro ⟨⟨hc, b, hb⟩, ha⟩
    have hba : b ≠ a := fun h => ha (h ▸ hb)
    exact ⟨hc, b, (l.call_clear_of_ne hba).trans hb⟩

/-- A new call on a free appearance leaves the earlier calls as they are. -/
theorem up_put {l : Appearances n} {a : Fin n} (ha : l.call a = none) {c : Option ℕ}
    (hc : ∀ i ∈ c, i < l.next) : (l.put a).Up c ↔ l.Up c := by
  rw [up_iff, up_iff]
  refine and_congr_right fun hne => exists_congr fun b => ?_
  obtain ⟨i, rfl⟩ := Option.ne_none_iff_exists'.mp hne
  have hi := hc i rfl
  by_cases hba : b = a
  · -- here is the new call, whose number no earlier one has
    subst hba
    rw [l.call_put_self, ha]
    refine iff_of_false (fun h => ?_) (by simp)
    have := Option.some.inj h
    omega
  · rw [l.call_put_of_ne hba]

/-- The first free appearance is free. -/
theorem call_of_firstFree {l : Appearances n} {a : Fin n} (h : l.firstFree = some a) :
    l.call a = none := by
  have hfree := List.find?_some h
  exact of_decide_eq_true hfree

/-- A call that is placed is up and on the selected appearance. -/
theorem iaxcCall_of_target {l : Appearances n} (h : l.target ≠ none) :
    l.iaxcCall.2 = some l.next ∧ l.iaxcCall.1.next = l.next + 1 ∧
      l.iaxcCall.1.call l.iaxcCall.1.selected = some l.next := by
  obtain ⟨a, ha⟩ := Option.ne_none_iff_exists'.mp h
  unfold iaxcCall
  rw [ha]
  exact ⟨rfl, rfl, l.call_put_self a⟩

end Appearances

end Fgcom
