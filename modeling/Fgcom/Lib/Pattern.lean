import Mathlib.Data.List.Forall2
import Mathlib.Data.List.Infix

/-! # Backtracking patterns with capture groups

The part of regular expressions that line-oriented scripts use: literal texts, character classes
with greedy repetition, capture groups and the anchor `$`.

* **`Rx.run`** — the matcher: all the ways a pattern can match at the front of a text, in the order
  a backtracking engine tries them, each with the text left over and the captured texts. `Rx.first`
  is the match the engine settles on.
* **`Rx.Reads`** — what a pattern means: which texts it spells and what its groups capture then.
  Every match reads a front part of the text (`Rx.mem_run`), in particular the one the engine
  settles on (`Rx.reads_of_first`); without the anchor every reading is a match
  (`Rx.mem_run_of_reads`).
* **`Rx.captures_read_groups`** — each capture is a text its group spells. -/

namespace Pattern

/-- Patterns. A repetition is always over a character class. -/
inductive Rx
  /-- A literal text. -/
  | text (t : List Char)
  /-- One character of a class. -/
  | one (p : Char → Bool)
  /-- As many characters of a class as possible, giving back one by one. -/
  | star (p : Char → Bool)
  /-- A character of a class if possible. -/
  | opt (p : Char → Bool)
  | seq (a b : Rx)
  /-- A capture group. -/
  | group (r : Rx)
  /-- The anchor `$`: the end of the text, or before a newline that ends it. -/
  | atEnd

namespace Rx

/-- At least one character of a class. -/
def plus (p : Char → Bool) : Rx := seq (one p) (star p)

/-- Exactly `n` characters of a class. -/
def times (p : Char → Bool) : ℕ → Rx
  | 0 => text []
  | n + 1 => seq (one p) (times p n)

/-- Several patterns one after the other. -/
def concat : List Rx → Rx
  | [] => text []
  | r :: rs => seq r (concat rs)

/-- What can be left over behind a run of class characters, the longest run first. -/
def starRests (p : Char → Bool) : List Char → List (List Char)
  | [] => [[]]
  | c :: s => if p c then starRests p s ++ [c :: s] else [c :: s]

/-- The matches at the front of a text, in the order of trial: the text left over and
the captures. -/
def run : Rx → List Char → List (List Char × List (List Char))
  | text t, s => if t.isPrefixOf s then [(s.drop t.length, [])] else []
  | one p, s =>
      match s with
      | [] => []
      | c :: s => if p c then [(s, [])] else []
  | star p, s => (starRests p s).map fun rest => (rest, [])
  | opt p, s =>
      match s with
      | [] => [([], [])]
      | c :: s => if p c then [(s, []), (c :: s, [])] else [(c :: s, [])]
  | seq a b, s =>
      (a.run s).flatMap fun x => (b.run x.1).map fun y => (y.1, x.2 ++ y.2)
  | group r, s => (r.run s).map fun x => (x.1, s.take (s.length - x.1.length) :: x.2)
  | atEnd, s => if s = [] ∨ s = ['\n'] then [(s, [])] else []

/-- The captures of the first match at the front of a text. -/
def first (r : Rx) (s : List Char) : Option (List (List Char)) := (r.run s).head?.map Prod.snd

/-- Whether there is a match anywhere in a text. -/
def search (r : Rx) (s : List Char) : Bool := s.tails.any fun t => !(r.run t).isEmpty

/-- The texts a pattern spells, with what its groups capture. -/
def Reads : Rx → List Char → List (List Char) → Prop
  | text t, u, caps => u = t ∧ caps = []
  | one p, u, caps => (∃ c, p c = true ∧ u = [c]) ∧ caps = []
  | star p, u, caps => (∀ c ∈ u, p c = true) ∧ caps = []
  | opt p, u, caps => (u = [] ∨ ∃ c, p c = true ∧ u = [c]) ∧ caps = []
  | seq a b, u, caps =>
      ∃ u₁ u₂ caps₁ caps₂, Reads a u₁ caps₁ ∧ Reads b u₂ caps₂ ∧ u = u₁ ++ u₂ ∧
        caps = caps₁ ++ caps₂
  | group r, u, caps => ∃ caps', Reads r u caps' ∧ caps = u :: caps'
  | atEnd, u, caps => u = [] ∧ caps = []

/-- No pattern reads nothing. -/
theorem reads_concat_nil {u : List Char} {caps : List (List Char)} :
    (concat []).Reads u caps ↔ u = [] ∧ caps = [] :=
  Iff.rfl

/-- The readings of several patterns, the first one apart. -/
theorem reads_concat_cons {r : Rx} {rs : List Rx} {u : List Char} {caps : List (List Char)} :
    (concat (r :: rs)).Reads u caps ↔
      ∃ u₁ u₂ caps₁ caps₂, r.Reads u₁ caps₁ ∧ (concat rs).Reads u₂ caps₂ ∧ u = u₁ ++ u₂ ∧
        caps = caps₁ ++ caps₂ :=
  Iff.rfl

/-! ## The matcher reads what it matches -/

/-- A run of class characters is cut off somewhere. -/
theorem mem_starRests {p : Char → Bool} {s rest : List Char} (h : rest ∈ starRests p s) :
    ∃ u, s = u ++ rest ∧ ∀ c ∈ u, p c = true := by
  induction s with
  | nil =>
      obtain rfl := List.mem_singleton.mp h
      exact ⟨[], rfl, by simp⟩
  | cons c s ih =>
      unfold starRests at h
      by_cases hc : p c = true
      · rw [if_pos hc, List.mem_append, List.mem_singleton] at h
        rcases h with h | rfl
        · obtain ⟨u, rfl, hu⟩ := ih h
          refine ⟨c :: u, rfl, ?_⟩
          intro d hd
          rcases List.mem_cons.mp hd with rfl | hd
          · exact hc
          · exact hu d hd
        · exact ⟨[], rfl, by simp⟩
      · rw [if_neg hc, List.mem_singleton] at h
        exact ⟨[], h ▸ rfl, by simp⟩

/-- A run of class characters can be cut off behind any of them. -/
theorem mem_starRests_append {p : Char → Bool} {u : List Char} (hu : ∀ c ∈ u, p c = true)
    (rest : List Char) : rest ∈ starRests p (u ++ rest) := by
  induction u with
  | nil =>
      cases rest with
      | nil => exact List.mem_singleton_self _
      | cons c rest =>
          rw [List.nil_append, starRests]
          split
          · exact List.mem_append_right _ (List.mem_singleton_self _)
          · exact List.mem_singleton_self _
  | cons c u ih =>
      rw [List.cons_append, starRests, if_pos (hu c List.mem_cons_self)]
      exact List.mem_append_left _ (ih fun d hd => hu d (List.mem_cons_of_mem c hd))

/-! ### What each construct matches -/

variable {p : Char → Bool} {s rest : List Char} {caps : List (List Char)}

theorem mem_run_text {t : List Char} :
    (rest, caps) ∈ (text t).run s ↔ s = t ++ rest ∧ caps = [] := by
  rw [run]
  split
  · rename_i hpre
    obtain ⟨rest', rfl⟩ := List.isPrefixOf_iff_prefix.mp hpre
    rw [List.drop_left, List.mem_singleton, Prod.mk.injEq, List.append_right_inj]
    exact and_congr_left fun _ => eq_comm
  · rename_i hpre
    refine iff_of_false List.not_mem_nil ?_
    rintro ⟨rfl, -⟩
    exact hpre (List.isPrefixOf_iff_prefix.mpr (List.prefix_append t rest))

/-- A text that starts with a character of a class. -/
theorem exists_head_iff {c : Char} :
    (∃ d, p d = true ∧ c :: s = d :: rest) ↔ p c = true ∧ rest = s := by
  constructor
  · rintro ⟨d, hd, h⟩
    obtain ⟨rfl, rfl⟩ := List.cons.inj h
    exact ⟨hd, rfl⟩
  · rintro ⟨hc, rfl⟩
    exact ⟨c, hc, rfl⟩

theorem mem_run_one :
    (rest, caps) ∈ (one p).run s ↔ (∃ c, p c = true ∧ s = c :: rest) ∧ caps = [] := by
  cases s with
  | nil => simp [run]
  | cons c s =>
      show _ ∈ (if p c = true then [(s, [])] else []) ↔ _
      rw [exists_head_iff]
      split
      · rename_i hc
        rw [List.mem_singleton, Prod.mk.injEq, and_iff_right hc]
      · rename_i hc
        exact iff_of_false List.not_mem_nil fun h => hc h.1.1

theorem mem_run_star :
    (rest, caps) ∈ (star p).run s ↔ (∃ u, s = u ++ rest ∧ ∀ c ∈ u, p c = true) ∧ caps = [] := by
  rw [run, List.mem_map]
  constructor
  · rintro ⟨rest', hrest, heq⟩
    obtain ⟨rfl, rfl⟩ := Prod.mk.inj heq
    exact ⟨mem_starRests hrest, rfl⟩
  · rintro ⟨⟨u, rfl, hu⟩, rfl⟩
    exact ⟨rest, mem_starRests_append hu rest, rfl⟩

theorem mem_run_opt :
    (rest, caps) ∈ (opt p).run s ↔ (rest = s ∨ ∃ c, p c = true ∧ s = c :: rest) ∧ caps = [] := by
  cases s with
  | nil => simp [run]
  | cons c s =>
      show _ ∈ (if p c = true then [(s, []), (c :: s, [])] else [(c :: s, [])]) ↔ _
      rw [exists_head_iff]
      split
      · rename_i hc
        rw [List.mem_cons, List.mem_singleton, Prod.mk.injEq, Prod.mk.injEq, ← or_and_right,
          or_comm, and_iff_right hc]
      · rename_i hc
        rw [List.mem_singleton, Prod.mk.injEq, or_iff_left fun h => hc h.1]

theorem mem_run_seq {a b : Rx} :
    (rest, caps) ∈ (seq a b).run s ↔ ∃ mid caps₁ caps₂, (mid, caps₁) ∈ a.run s ∧
      (rest, caps₂) ∈ b.run mid ∧ caps = caps₁ ++ caps₂ := by
  rw [run, List.mem_flatMap]
  constructor
  · rintro ⟨⟨mid, caps₁⟩, ha, hmap⟩
    obtain ⟨⟨rest', caps₂⟩, hb, heq⟩ := List.mem_map.mp hmap
    obtain ⟨rfl, rfl⟩ := Prod.mk.inj heq
    exact ⟨mid, caps₁, caps₂, ha, hb, rfl⟩
  · rintro ⟨mid, caps₁, caps₂, ha, hb, rfl⟩
    exact ⟨(mid, caps₁), ha, List.mem_map_of_mem hb⟩

theorem mem_run_group {r : Rx} :
    (rest, caps) ∈ (group r).run s ↔ ∃ caps', (rest, caps') ∈ r.run s ∧
      caps = s.take (s.length - rest.length) :: caps' := by
  rw [run, List.mem_map]
  constructor
  · rintro ⟨⟨rest', caps'⟩, hr, heq⟩
    obtain ⟨rfl, rfl⟩ := Prod.mk.inj heq
    exact ⟨caps', hr, rfl⟩
  · rintro ⟨caps', hr, rfl⟩
    exact ⟨(rest, caps'), hr, rfl⟩

theorem mem_run_atEnd :
    (rest, caps) ∈ atEnd.run s ↔ rest = s ∧ caps = [] ∧ (s = [] ∨ s = ['\n']) := by
  rw [run]
  split
  · rename_i hend
    simp [hend]
  · rename_i hend
    simp [hend]

/-! ### Matches and readings -/

/-- **Every match reads a front part of the text.** -/
theorem mem_run {r : Rx} (h : (rest, caps) ∈ r.run s) : ∃ u, s = u ++ rest ∧ r.Reads u caps := by
  induction r generalizing s rest caps with
  | text t =>
      obtain ⟨rfl, rfl⟩ := mem_run_text.mp h
      exact ⟨t, rfl, rfl, rfl⟩
  | one p =>
      obtain ⟨⟨c, hc, rfl⟩, rfl⟩ := mem_run_one.mp h
      exact ⟨[c], rfl, ⟨c, hc, rfl⟩, rfl⟩
  | star p =>
      obtain ⟨⟨u, rfl, hu⟩, rfl⟩ := mem_run_star.mp h
      exact ⟨u, rfl, hu, rfl⟩
  | opt p =>
      obtain ⟨rfl | ⟨c, hc, rfl⟩, rfl⟩ := mem_run_opt.mp h
      · exact ⟨[], rfl, Or.inl rfl, rfl⟩
      · exact ⟨[c], rfl, Or.inr ⟨c, hc, rfl⟩, rfl⟩
  | seq a b iha ihb =>
      obtain ⟨mid, caps₁, caps₂, ha, hb, rfl⟩ := mem_run_seq.mp h
      obtain ⟨u₁, rfl, hu₁⟩ := iha ha
      obtain ⟨u₂, rfl, hu₂⟩ := ihb hb
      exact ⟨u₁ ++ u₂, (List.append_assoc ..).symm, u₁, u₂, caps₁, caps₂, hu₁, hu₂, rfl, rfl⟩
  | group r ih =>
      -- what is captured is the text read, found again by its length
      obtain ⟨caps', hr, rfl⟩ := mem_run_group.mp h
      obtain ⟨u, rfl, hu⟩ := ih hr
      refine ⟨u, rfl, caps', hu, ?_⟩
      rw [List.length_append, Nat.add_sub_cancel, List.take_left]
  | atEnd =>
      obtain ⟨rfl, rfl, -⟩ := mem_run_atEnd.mp h
      exact ⟨[], rfl, rfl, rfl⟩

/-- The match the engine settles on reads a front part of the text. -/
theorem reads_of_first {r : Rx} {s : List Char} {caps : List (List Char)}
    (h : r.first s = some caps) : ∃ u rest, s = u ++ rest ∧ r.Reads u caps := by
  obtain ⟨⟨rest, caps'⟩, hhead, rfl⟩ := Option.map_eq_some_iff.mp h
  obtain ⟨u, hs, hu⟩ := mem_run (List.mem_of_mem_head? hhead)
  exact ⟨u, rest, hs, hu⟩

/-! ## The matcher finds what can be read -/

/-- A pattern without the anchor `$`. -/
def unanchored : Rx → Bool
  | seq a b => a.unanchored && b.unanchored
  | group r => r.unanchored
  | atEnd => false
  | text _ | one _ | star _ | opt _ => true

/-- **Every reading of a front part is a match**, for a pattern without the anchor. -/
theorem mem_run_of_reads {r : Rx} {u : List Char} (hr : r.unanchored = true) (h : r.Reads u caps)
    (rest : List Char) : (rest, caps) ∈ r.run (u ++ rest) := by
  induction r generalizing u caps rest with
  | text t =>
      obtain ⟨rfl, rfl⟩ := h
      exact mem_run_text.mpr ⟨rfl, rfl⟩
  | one p =>
      obtain ⟨⟨c, hc, rfl⟩, rfl⟩ := h
      exact mem_run_one.mpr ⟨⟨c, hc, rfl⟩, rfl⟩
  | star p =>
      obtain ⟨hu, rfl⟩ := h
      exact mem_run_star.mpr ⟨⟨u, rfl, hu⟩, rfl⟩
  | opt p =>
      obtain ⟨rfl | ⟨c, hc, rfl⟩, rfl⟩ := h
      · exact mem_run_opt.mpr ⟨Or.inl rfl, rfl⟩
      · exact mem_run_opt.mpr ⟨Or.inr ⟨c, hc, rfl⟩, rfl⟩
  | seq a b iha ihb =>
      obtain ⟨u₁, u₂, caps₁, caps₂, ha, hb, rfl, rfl⟩ := h
      obtain ⟨hra, hrb⟩ := Bool.and_eq_true_iff.mp hr
      rw [List.append_assoc]
      exact mem_run_seq.mpr ⟨_, caps₁, caps₂, iha hra ha (u₂ ++ rest), ihb hrb hb rest, rfl⟩
  | group r ih =>
      obtain ⟨caps', hr', rfl⟩ := h
      refine mem_run_group.mpr ⟨caps', ih hr hr' rest, ?_⟩
      rw [List.length_append, Nat.add_sub_cancel, List.take_left]
  | atEnd => exact absurd hr (by decide)

/-- The engine settles on the captures that all readings of a front part have. -/
theorem first_eq_of_reads {r : Rx} {s u rest : List Char} {caps : List (List Char)}
    (hr : r.unanchored = true) (hs : s = u ++ rest) (h : r.Reads u caps)
    (hunique : ∀ u' rest' caps', s = u' ++ rest' → r.Reads u' caps' → caps' = caps) :
    r.first s = some caps := by
  have hmem : (rest, caps) ∈ r.run s := hs ▸ mem_run_of_reads hr h rest
  cases hfirst : r.first s with
  | none =>
      rw [first, Option.map_eq_none_iff, List.head?_eq_none_iff] at hfirst
      rw [hfirst] at hmem
      exact absurd hmem List.not_mem_nil
  | some caps' =>
      obtain ⟨u', rest', hs', hu'⟩ := reads_of_first hfirst
      exact congrArg some (hunique u' rest' caps' hs' hu')

/-- **There is a match in a text exactly if a part of it can be read.** -/
theorem search_iff {r : Rx} (hr : r.unanchored = true) {s : List Char} :
    r.search s = true ↔ ∃ front u rest caps, s = front ++ u ++ rest ∧ r.Reads u caps := by
  rw [search, List.any_eq_true]
  constructor
  · rintro ⟨t, ht, hrun⟩
    obtain ⟨front, rfl⟩ := (List.mem_tails t s).mp ht
    rw [Bool.not_eq_true', List.isEmpty_eq_false_iff] at hrun
    obtain ⟨⟨rest, caps⟩, hmem⟩ := List.exists_mem_of_ne_nil _ hrun
    obtain ⟨u, rfl, hu⟩ := mem_run hmem
    exact ⟨front, u, rest, caps, (List.append_assoc ..).symm, hu⟩
  · rintro ⟨front, u, rest, caps, rfl, hu⟩
    refine ⟨u ++ rest, (List.mem_tails _ _).mpr ⟨front, (List.append_assoc ..).symm⟩, ?_⟩
    rw [Bool.not_eq_true', List.isEmpty_eq_false_iff]
    exact List.ne_nil_of_mem (mem_run_of_reads hr hu rest)

/-! ## What groups capture -/

/-- The groups of a pattern, in the order of their opening brackets. -/
def groups : Rx → List Rx
  | seq a b => a.groups ++ b.groups
  | group r => r :: r.groups
  | _ => []

/-- **Captures read their groups.** A pattern captures one text for each of its groups, and each
text is one the group spells. -/
theorem captures_read_groups {r : Rx} {u : List Char} {caps : List (List Char)}
    (h : r.Reads u caps) :
    List.Forall₂ (fun g cap => ∃ caps', g.Reads cap caps') r.groups caps := by
  induction r generalizing u caps with
  | text t => rw [h.2]; exact .nil
  | one p => rw [h.2]; exact .nil
  | star p => rw [h.2]; exact .nil
  | opt p => rw [h.2]; exact .nil
  | atEnd => rw [h.2]; exact .nil
  | seq a b iha ihb =>
      obtain ⟨u₁, u₂, caps₁, caps₂, ha, hb, -, rfl⟩ := h
      exact List.rel_append (iha ha) (ihb hb)
  | group r ih =>
      obtain ⟨caps', hr, rfl⟩ := h
      exact .cons ⟨caps', hr⟩ (ih hr)

/-- The captures of the match the engine settles on read their groups. -/
theorem captures_of_first {r : Rx} {s : List Char} {caps : List (List Char)}
    (h : r.first s = some caps) :
    List.Forall₂ (fun g cap => ∃ caps', g.Reads cap caps') r.groups caps := by
  obtain ⟨u, rest, -, hu⟩ := reads_of_first h
  exact captures_read_groups hu

/-- A class repeated at least once. -/
theorem reads_plus {p : Char → Bool} {u : List Char} {caps : List (List Char)}
    (h : (plus p).Reads u caps) : u ≠ [] ∧ ∀ c ∈ u, p c = true := by
  obtain ⟨u₁, u₂, -, -, ⟨⟨c, hc, rfl⟩, -⟩, ⟨hall, -⟩, rfl, -⟩ := h
  refine ⟨by simp, ?_⟩
  intro d hd
  rcases List.mem_cons.mp hd with rfl | hd
  · exact hc
  · exact hall d hd

/-- The texts of a class repeated at least once; nothing is captured. -/
theorem reads_plus_iff {p : Char → Bool} {u : List Char} {caps : List (List Char)} :
    (plus p).Reads u caps ↔ u ≠ [] ∧ (∀ c ∈ u, p c = true) ∧ caps = [] := by
  constructor
  · intro h
    obtain ⟨hne, hall⟩ := reads_plus h
    obtain ⟨-, -, -, -, ⟨-, rfl⟩, ⟨-, rfl⟩, -, rfl⟩ := h
    exact ⟨hne, hall, rfl⟩
  · rintro ⟨hne, hall, rfl⟩
    obtain ⟨c, t, rfl⟩ := List.exists_cons_of_ne_nil hne
    exact ⟨[c], t, [], [], ⟨⟨c, hall c List.mem_cons_self, rfl⟩, rfl⟩,
      ⟨fun d hd => hall d (List.mem_cons_of_mem c hd), rfl⟩, rfl, rfl⟩

/-- A class repeated a fixed number of times. -/
theorem reads_times {p : Char → Bool} {n : ℕ} {u : List Char} {caps : List (List Char)}
    (h : (times p n).Reads u caps) : u.length = n ∧ ∀ c ∈ u, p c = true := by
  induction n generalizing u caps with
  | zero =>
      obtain ⟨rfl, -⟩ := h
      exact ⟨rfl, by simp⟩
  | succ n ih =>
      obtain ⟨u₁, u₂, _, _, ⟨⟨c, hc, rfl⟩, -⟩, hrest, rfl, -⟩ := h
      obtain ⟨hlen, hall⟩ := ih hrest
      refine ⟨by rw [List.length_append, hlen, List.length_singleton, Nat.add_comm], ?_⟩
      intro d hd
      rcases List.mem_cons.mp hd with rfl | hd
      · exact hc
      · exact hall d hd

end Rx

end Pattern
