import Mathlib.Data.List.GetD
import Mathlib.Data.List.Induction
import Mathlib.Data.List.Sort
import Mathlib.Data.List.TakeWhile

/-! # Stable insertion and bounded order statistics

Two uses of one insertion, over a total and transitive relation `r` ("not after"):

* **`insertAfter r x l`** — put `x` into `l` behind everything that is not after it. A list in
  order stays in order, and of two elements that are not after each other the one that came first
  stays first.
* **`keep r x buf`** — the same into a buffer of fixed size: what is pushed over the end is lost.
* **`firsts r n pad xs`** — the `n` first values of `xs` in the order, filled up with `pad`: what
  `keep` leaves of a buffer of pads once every value of `xs` has been offered to it.

* **`Arranges key l pool`** — the list `l` is a pool, kept in the order in which its members came,
  in the order of a key: members of equal keys stay in the order in which they came. The first of
  `l` is the one that came first of those with the smallest key.

`firsts_cons_of_notMem` and `firsts_slide` say when a value can go, or come and go, without a change
to the buffer. -/

namespace StableInsert

variable {α : Type*} (r : α → α → Prop) [DecidableRel r]

/-! ## Insertion behind everything not after -/

/-- Put `x` behind everything in front that is not after it. -/
def insertAfter (x : α) (l : List α) : List α := l.orderedInsert (fun a b => ¬ r b a) x

@[simp] theorem insertAfter_nil (x : α) : insertAfter r x [] = [x] := rfl

/-- Cons reading of `insertAfter`. -/
theorem insertAfter_cons (x b : α) (l : List α) :
    insertAfter r x (b :: l) = if r b x then b :: insertAfter r x l else x :: b :: l := by
  rw [insertAfter, List.orderedInsert_cons]
  by_cases h : r b x
  · rw [if_neg (not_not.mpr h), if_pos h]
    rfl
  · rw [if_pos h, if_neg h]

theorem insertAfter_cons_of_rel {x b : α} (l : List α) (h : r b x) :
    insertAfter r x (b :: l) = b :: insertAfter r x l := by
  rw [insertAfter_cons, if_pos h]

theorem insertAfter_cons_of_not_rel {x b : α} (l : List α) (h : ¬ r b x) :
    insertAfter r x (b :: l) = x :: b :: l := by
  rw [insertAfter_cons, if_neg h]

/-- Nothing is lost and nothing appears. -/
theorem perm_insertAfter (x : α) (l : List α) : (insertAfter r x l).Perm (x :: l) :=
  List.perm_orderedInsert _ x l

@[simp] theorem mem_insertAfter {x y : α} {l : List α} :
    y ∈ insertAfter r x l ↔ y = x ∨ y ∈ l := List.mem_orderedInsert _

@[simp] theorem length_insertAfter (x : α) (l : List α) :
    (insertAfter r x l).length = l.length + 1 := List.orderedInsert_length _ l x

/-- The new element splits the list where the elements not after it end. -/
theorem insertAfter_eq_append (x : α) (l : List α) :
    insertAfter r x l = l.takeWhile (fun b => r b x) ++ x :: l.dropWhile (fun b => r b x) := by
  induction l with
  | nil => rfl
  | cons b l ih =>
      by_cases h : r b x
      · rw [insertAfter_cons_of_rel r l h, ih, List.takeWhile_cons_of_pos (by simpa using h),
          List.dropWhile_cons_of_pos (by simpa using h), List.cons_append]
      · rw [insertAfter_cons_of_not_rel r l h, List.takeWhile_cons_of_neg (by simpa using h),
          List.dropWhile_cons_of_neg (by simpa using h), List.nil_append]

/-- What the new element is after stays in front of it. -/
theorem insertAfter_append_left {x : α} {l₁ : List α} (h : ∀ b ∈ l₁, r b x) (l₂ : List α) :
    insertAfter r x (l₁ ++ l₂) = l₁ ++ insertAfter r x l₂ := by
  induction l₁ with
  | nil => rfl
  | cons b l₁ ih =>
      obtain ⟨hb, hrest⟩ := List.forall_mem_cons.mp h
      rw [List.cons_append, insertAfter_cons_of_rel r _ hb, ih hrest, List.cons_append]

/-- The new element stands where the list is split into what is not after it and what is. -/
theorem insertAfter_append {x : α} {l₁ l₂ : List α} (h₁ : ∀ b ∈ l₁, r b x)
    (h₂ : ∀ b ∈ l₂, ¬ r b x) : insertAfter r x (l₁ ++ l₂) = l₁ ++ x :: l₂ := by
  rw [insertAfter_append_left r h₁]
  cases l₂ with
  | nil => rfl
  | cons b l₂ => rw [insertAfter_cons_of_not_rel r l₂ (h₂ b List.mem_cons_self)]

/-- An element that belongs behind the whole list is put at its end. -/
theorem insertAfter_eq_concat {x : α} {l : List α} (h : ∀ b ∈ l, r b x) :
    insertAfter r x l = l ++ [x] := by
  have := insertAfter_append r h (fun (b : α) (hb : b ∈ []) => absurd hb List.not_mem_nil)
  rwa [List.append_nil] at this

/-- Inserting one after the other. -/
theorem perm_foldl_insertAfter (xs l : List α) :
    (xs.foldl (fun l x => insertAfter r x l) l).Perm (xs ++ l) := by
  induction xs generalizing l with
  | nil => exact List.Perm.refl l
  | cons x xs ih =>
      have hx := (perm_insertAfter r x l).append_left xs
      exact ((ih _).trans hx).trans List.perm_middle

section Order

variable [Std.Total r] [IsTrans α r]

/-- A list in order stays in order. -/
theorem pairwise_insertAfter {x : α} {l : List α} (h : l.Pairwise r) :
    (insertAfter r x l).Pairwise r := by
  induction l with
  | nil => exact List.pairwise_singleton r x
  | cons b l ih =>
      obtain ⟨hb, hl⟩ := List.pairwise_cons.mp h
      by_cases hbx : r b x
      · rw [insertAfter_cons_of_rel r l hbx]
        refine List.pairwise_cons.mpr ⟨fun c hc => ?_, ih hl⟩
        rcases (mem_insertAfter r).mp hc with rfl | hc
        · exact hbx
        · exact hb c hc
      · have hxb : r x b := (total_of r b x).resolve_left hbx
        rw [insertAfter_cons_of_not_rel r l hbx]
        refine List.pairwise_cons.mpr ⟨fun c hc => ?_, h⟩
        rcases List.mem_cons.mp hc with rfl | hc
        · exact hxb
        · exact trans_of r hxb (hb c hc)

theorem pairwise_foldl_insertAfter (xs : List α) {l : List α} (h : l.Pairwise r) :
    (xs.foldl (fun l x => insertAfter r x l) l).Pairwise r := by
  induction xs generalizing l with
  | nil => exact h
  | cons x xs ih => exact ih (pairwise_insertAfter r h)

omit [Std.Total r] in
/-- **Insertion looks only at what it keeps.** In a list in order, inserting and then keeping the
elements with a property is keeping them first and inserting then, if the new one has it too. -/
theorem filter_insertAfter (p : α → Bool) {x : α} {l : List α} (h : l.Pairwise r) :
    (insertAfter r x l).filter p =
      if p x then insertAfter r x (l.filter p) else l.filter p := by
  induction l with
  | nil => cases hx : p x <;> simp [hx]
  | cons b l ih =>
      obtain ⟨hb, hl⟩ := List.pairwise_cons.mp h
      by_cases hbx : r b x
      · rw [insertAfter_cons_of_rel r l hbx, List.filter_cons, List.filter_cons, ih hl]
        cases hpx : p x <;> cases hpb : p b <;> simp [insertAfter_cons_of_rel, hbx]
      · -- nothing from `b` on may stand in front of `x`
        have hfront : insertAfter r x ((b :: l).filter p) = x :: (b :: l).filter p := by
          cases hf : (b :: l).filter p with
          | nil => rfl
          | cons c k =>
              refine insertAfter_cons_of_not_rel r k fun hcx => hbx ?_
              have hc : c ∈ b :: l := List.mem_of_mem_filter (hf ▸ List.mem_cons_self)
              rcases List.mem_cons.mp hc with rfl | hc
              · exact hcx
              · exact trans_of r (hb c hc) hcx
        rw [insertAfter_cons_of_not_rel r l hbx, List.filter_cons]
        cases hpx : p x <;> simp [hfront]

end Order

/-! ## A buffer of fixed size -/

/-- Put `x` into a buffer of fixed size: what is pushed over the end is lost. -/
def keep (x : α) (buf : List α) : List α := (insertAfter r x buf).take buf.length

@[simp] theorem length_keep (x : α) (buf : List α) : (keep r x buf).length = buf.length := by
  rw [keep, List.length_take, length_insertAfter, Nat.min_eq_left (Nat.le_succ _)]

/-- What is not in front of any element of the buffer leaves it as it is. -/
theorem keep_of_rel {x : α} {buf : List α} (h : ∀ b ∈ buf, r b x) : keep r x buf = buf := by
  rw [keep, insertAfter_eq_concat r h, List.take_left]

/-- What does not get into the buffer leaves it as it is. -/
theorem keep_of_notMem {x : α} {buf : List α} (h : x ∉ keep r x buf) : keep r x buf = buf := by
  induction buf with
  | nil => rfl
  | cons b buf ih =>
      by_cases hbx : r b x
      · rw [keep, insertAfter_cons_of_rel r buf hbx, List.length_cons, List.take_succ_cons] at h ⊢
        have hx : x ∉ keep r x buf := fun hx => h (List.mem_cons_of_mem _ hx)
        exact congrArg (b :: ·) (ih hx)
      · rw [keep, insertAfter_cons_of_not_rel r buf hbx, List.length_cons,
          List.take_succ_cons] at h
        exact absurd List.mem_cons_self h

/-- Only what stands within the first `n` matters for the first `n` after an insertion. -/
theorem keep_take (n : ℕ) (x : α) (l : List α) (hn : n ≤ l.length) :
    keep r x (l.take n) = (insertAfter r x l).take n := by
  induction l generalizing n with
  | nil =>
      obtain rfl : n = 0 := Nat.le_zero.mp hn
      rfl
  | cons b l ih =>
      cases n with
      | zero => rfl
      | succ n =>
          have hn' : n ≤ l.length := Nat.le_of_succ_le_succ hn
          by_cases hbx : r b x
          · rw [List.take_succ_cons, keep, insertAfter_cons_of_rel r _ hbx,
              insertAfter_cons_of_rel r _ hbx, List.length_cons, List.take_succ_cons,
              List.take_succ_cons, ← ih n hn']
            rfl
          · rw [List.take_succ_cons, keep, insertAfter_cons_of_not_rel r _ hbx,
              insertAfter_cons_of_not_rel r _ hbx, List.length_cons, List.take_succ_cons,
              List.take_succ_cons, List.length_take, Nat.min_eq_left hn']
            cases n with
            | zero => rfl
            | succ n =>
                rw [List.take_succ_cons, List.take_succ_cons, List.take_take,
                  Nat.min_eq_left (Nat.le_succ n)]

/-! ## The first values in the order -/

/-- All values in order. -/
def arrange (xs : List α) : List α := xs.foldr (insertAfter r) []

/-- The `n` first values of `xs` in the order, filled up with `pad`. -/
def firsts (n : ℕ) (pad : α) (xs : List α) : List α :=
  (arrange r (xs ++ List.replicate n pad)).take n

@[simp] theorem arrange_nil : arrange r [] = [] := rfl

@[simp] theorem arrange_cons (x : α) (xs : List α) :
    arrange r (x :: xs) = insertAfter r x (arrange r xs) := rfl

theorem perm_arrange (xs : List α) : (arrange r xs).Perm xs := by
  induction xs with
  | nil => exact List.Perm.nil
  | cons x xs ih => exact (perm_insertAfter r x _).trans (ih.cons x)

/-- One more value is one more value offered to the buffer. -/
theorem firsts_cons (n : ℕ) (pad x : α) (xs : List α) :
    firsts r n pad (x :: xs) = keep r x (firsts r n pad xs) := by
  have hlen : n ≤ (arrange r (xs ++ List.replicate n pad)).length := by
    rw [(perm_arrange r _).length_eq, List.length_append, List.length_replicate]
    exact Nat.le_add_left n _
  rw [firsts, firsts, keep_take r n x _ hlen, List.cons_append, arrange_cons]

@[simp] theorem length_firsts (n : ℕ) (pad : α) (xs : List α) :
    (firsts r n pad xs).length = n := by
  rw [firsts, List.length_take, (perm_arrange r _).length_eq, List.length_append,
    List.length_replicate]
  exact Nat.min_eq_left (Nat.le_add_left n _)

/-- Nothing offered: the buffer is all pads. -/
@[simp] theorem firsts_nil (n : ℕ) (pad : α) : firsts r n pad [] = List.replicate n pad := by
  have hperm := perm_arrange r (List.replicate n pad)
  rw [firsts, List.nil_append, List.perm_replicate.mp hperm, List.take_replicate, Nat.min_self]

/-- A value that is not among the first ones can go. -/
theorem firsts_cons_of_notMem {n : ℕ} {pad x : α} {xs : List α}
    (h : x ∉ firsts r n pad (x :: xs)) : firsts r n pad (x :: xs) = firsts r n pad xs := by
  rw [firsts_cons] at h ⊢
  exact keep_of_notMem r h

section Order

variable [Std.Total r] [IsTrans α r]

theorem pairwise_arrange (xs : List α) : (arrange r xs).Pairwise r := by
  induction xs with
  | nil => exact List.Pairwise.nil
  | cons x xs ih => exact pairwise_insertAfter r ih

theorem pairwise_firsts (n : ℕ) (pad : α) (xs : List α) : (firsts r n pad xs).Pairwise r :=
  (pairwise_arrange r _).sublist (List.take_sublist n _)

variable [Std.Antisymm r]

/-- In a linear order the order in which the values come does not matter. -/
theorem firsts_perm {n : ℕ} {pad : α} {xs ys : List α} (h : xs.Perm ys) :
    firsts r n pad xs = firsts r n pad ys := by
  have hperm : (arrange r (xs ++ List.replicate n pad)).Perm
      (arrange r (ys ++ List.replicate n pad)) :=
    (perm_arrange r _).trans ((h.append_right _).trans (perm_arrange r _).symm)
  rw [firsts, firsts, hperm.eq_of_pairwise' (pairwise_arrange r _) (pairwise_arrange r _)]

/-- A value offered last. -/
theorem firsts_concat (n : ℕ) (pad x : α) (xs : List α) :
    firsts r n pad (xs ++ [x]) = keep r x (firsts r n pad xs) := by
  rw [firsts_perm r (List.perm_append_singleton x xs), firsts_cons]

/-- **A sliding window.** When the value that leaves the window is not among the first ones and the
one that comes is not in front of any of them, the first ones stay. -/
theorem firsts_slide {n : ℕ} {pad old new : α} {xs : List α}
    (hold : old ∉ firsts r n pad (old :: xs)) (hnew : ∀ b ∈ firsts r n pad (old :: xs), r b new) :
    firsts r n pad (xs ++ [new]) = firsts r n pad (old :: xs) := by
  rw [firsts_cons_of_notMem r hold] at hnew ⊢
  rw [firsts_concat, keep_of_rel r hnew]

omit [Std.Total r] [Std.Antisymm r] in
/-- From the first value behind the pad on, every value is behind it. -/
theorem not_rel_of_mem_dropWhile {pad x : α} {l : List α} (hl : l.Pairwise r)
    (hx : x ∈ l.dropWhile (fun y => r y pad)) : ¬ r x pad := by
  cases hd : l.dropWhile (fun y => r y pad) with
  | nil => exact absurd (hd ▸ hx) List.not_mem_nil
  | cons y ys =>
      have hy : ¬ r y pad := by
        have := List.head?_dropWhile_not (fun z => decide (r z pad)) l
        rw [hd] at this
        simpa using this
      have hys := hl.sublist (List.dropWhile_sublist (fun y => decide (r y pad)))
      rw [hd] at hx hys
      rcases List.mem_cons.mp hx with rfl | hx
      · exact hy
      · exact fun hxp => hy (trans_of r ((List.pairwise_cons.mp hys).1 x hx) hxp)

/-- Pads go where their value belongs. -/
theorem arrange_append_replicate (n : ℕ) (pad : α) (xs : List α) :
    arrange r (xs ++ List.replicate n pad) =
      (arrange r xs).takeWhile (fun x => r x pad) ++
        (List.replicate n pad ++ (arrange r xs).dropWhile (fun x => r x pad)) := by
  have hsplit := List.takeWhile_append_dropWhile (p := fun x => decide (r x pad))
    (l := arrange r xs)
  have hsorted := pairwise_arrange r xs
  have hbefore : ∀ x ∈ (arrange r xs).takeWhile (fun x => r x pad), r x pad := fun x hx => by
    simpa using List.mem_takeWhile_imp hx
  have hafter : ∀ x ∈ (arrange r xs).dropWhile (fun x => r x pad), r pad x := fun x hx =>
    (total_of r x pad).resolve_left (not_rel_of_mem_dropWhile r hsorted hx)
  rw [← hsplit] at hsorted
  obtain ⟨hfront, hback, hcross⟩ := List.pairwise_append.mp hsorted
  have hpads : (List.replicate n pad).Pairwise r :=
    List.pairwise_replicate.mpr (Or.inr (refl_of r pad))
  have hperm : (arrange r xs ++ List.replicate n pad).Perm
      ((arrange r xs).takeWhile (fun x => r x pad) ++
        (List.replicate n pad ++ (arrange r xs).dropWhile (fun x => r x pad))) := by
    nth_rewrite 1 [← hsplit]
    rw [List.append_assoc]
    exact List.perm_append_comm.append_left _
  refine List.Perm.eq_of_pairwise' (r := r) (pairwise_arrange r _) ?_
    ((perm_arrange r _).trans (((perm_arrange r xs).symm.append_right _).trans hperm))
  refine List.pairwise_append.mpr ⟨hfront, List.pairwise_append.mpr ⟨hpads, hback, ?_⟩, ?_⟩
  · intro x hx y hy
    rw [List.eq_of_mem_replicate hx]
    exact hafter y hy
  · intro x hx y hy
    rcases List.mem_append.mp hy with hy | hy
    · rw [List.eq_of_mem_replicate hy]
      exact hbefore x hx
    · exact hcross x hx y hy

/-- **One entry of the buffer** is the value of that rank, unless the pad comes before it. -/
theorem getD_firsts {n k : ℕ} (pad d : α) {xs : List α} (hn : k < n) (hk : k < xs.length) :
    (firsts r n pad xs).getD k d =
      if r ((arrange r xs).getD k d) pad then (arrange r xs).getD k d else pad := by
  have hsorted := pairwise_arrange r xs
  have hsplit := List.takeWhile_append_dropWhile (p := fun x => decide (r x pad))
    (l := arrange r xs)
  have hlen : k < (arrange r xs).length := by rwa [(perm_arrange r xs).length_eq]
  have htake : (firsts r n pad xs).getD k d =
      (arrange r (xs ++ List.replicate n pad)).getD k d := by
    rw [firsts, List.getD_eq_getElem?_getD, List.getElem?_take_of_lt hn,
      ← List.getD_eq_getElem?_getD]
  rw [htake, arrange_append_replicate]
  by_cases hT : k < ((arrange r xs).takeWhile fun x => r x pad).length
  · have hval : (arrange r xs).getD k d = ((arrange r xs).takeWhile fun x => r x pad)[k] := by
      conv_lhs => rw [← hsplit]
      rw [List.getD_append _ _ _ _ hT, List.getD_eq_getElem _ _ hT]
    have hrel : r ((arrange r xs).takeWhile fun x => r x pad)[k] pad := by
      simpa using List.mem_takeWhile_imp (List.getElem_mem hT)
    rw [List.getD_append _ _ _ _ hT, List.getD_eq_getElem _ _ hT, hval, if_pos hrel]
  · have hge := not_lt.mp hT
    have hsum := congrArg List.length hsplit
    rw [List.length_append] at hsum
    have hval : (arrange r xs).getD k d =
        ((arrange r xs).dropWhile fun x => r x pad).getD
          (k - ((arrange r xs).takeWhile fun x => r x pad).length) d := by
      conv_lhs => rw [← hsplit]
      exact List.getD_append_right _ _ _ _ hge
    have hval : (arrange r xs).getD k d ∈ (arrange r xs).dropWhile fun x => r x pad := by
      rw [hval, List.getD_eq_getElem _ _ (by omega)]
      exact List.getElem_mem _
    rw [if_neg (not_rel_of_mem_dropWhile r hsorted hval), List.getD_append_right _ _ _ _ hge,
      List.getD_append _ _ _ _ (by rw [List.length_replicate]; omega),
      List.getD_eq_getElem _ _ (by rw [List.length_replicate]; omega), List.getElem_replicate]

end Order

/-! ## A pool served by a key -/

section Pool

variable {β κ : Type*} [LinearOrder κ] (key : β → κ)

/-- Not after, by the key. -/
def byKey (a b : β) : Prop := key a ≤ key b

instance : DecidableRel (byKey key) := fun a b => inferInstanceAs (Decidable (key a ≤ key b))

instance : Std.Total (byKey key) := ⟨fun a b => le_total (key a) (key b)⟩

instance : IsTrans β (byKey key) := ⟨fun _ _ _ => le_trans⟩

/-- The member that came first of those with the smallest key. -/
def earliest (pool : List β) : Option β :=
  pool.find? fun b => pool.all fun c => key b ≤ key c

/-- The pool without it. -/
def serve (pool : List β) : List β :=
  match earliest key pool with
  | none => pool
  | some b => pool.eraseP fun c => key c = key b

/-- `l` holds the pool in the order of the key, and equal keys in the order of the pool. -/
structure Arranges (l pool : List β) : Prop where
  sorted : l.Pairwise (byKey key)
  stable : ∀ k, l.filter (fun b => key b = k) = pool.filter (fun b => key b = k)

namespace Arranges

variable {key} {l pool : List β} {x h : β} {t : List β}

theorem nil : Arranges key [] [] := ⟨List.Pairwise.nil, fun _ => rfl⟩

theorem mem_iff (ha : Arranges key l pool) (b : β) : b ∈ l ↔ b ∈ pool := by
  have := congrArg (b ∈ ·) (ha.stable (key b))
  simpa using this

theorem eq_nil_iff (ha : Arranges key l pool) : l = [] ↔ pool = [] := by
  rw [List.eq_nil_iff_forall_not_mem, List.eq_nil_iff_forall_not_mem]
  exact forall_congr' fun b => not_congr (ha.mem_iff b)

/-- The same members, each as often. -/
theorem perm (ha : Arranges key l pool) : l.Perm pool := by
  classical
  refine List.perm_iff_count.mpr fun b => ?_
  have hcount : ∀ m : List β, m.count b = (m.filter fun c => key c = key b).count b := fun m =>
    (List.count_filter (by simp)).symm
  rw [hcount l, hcount pool, ha.stable]

/-- **A new member** is put behind everything that is not after it. -/
theorem insert (ha : Arranges key l pool) (x : β) :
    Arranges key (insertAfter (byKey key) x l) (pool ++ [x]) where
  sorted := pairwise_insertAfter _ ha.sorted
  stable k := by
    rw [filter_insertAfter (byKey key) _ ha.sorted, List.filter_append, ← ha.stable k]
    by_cases hk : key x = k
    · have hall : ∀ b ∈ l.filter (fun b => key b = k), byKey key b x := fun b hb => by
        have hbk : key b = k := by simpa using (List.mem_filter.mp hb).2
        exact le_of_eq (hbk.trans hk.symm)
      rw [if_pos (by simpa using hk), insertAfter_eq_concat _ hall]
      simp [hk]
    · rw [if_neg (by simpa using hk)]
      simp [hk]

/-- **The first of the list** is the one that came first of those with the smallest key. -/
theorem earliest_eq (ha : Arranges key (h :: t) pool) : earliest key pool = some h := by
  have hle : ∀ b ∈ pool, key h ≤ key b := by
    intro b hb
    rcases List.mem_cons.mp ((ha.mem_iff b).mpr hb) with rfl | hb
    · exact le_rfl
    · exact (List.pairwise_cons.mp ha.sorted).1 b hb
  have hh : h ∈ pool := (ha.mem_iff h).mp List.mem_cons_self
  have hmin : ∀ b ∈ pool, (pool.all fun c => key b ≤ key c) = decide (key b = key h) := by
    intro b hb
    refine Bool.eq_iff_iff.mpr ?_
    rw [List.all_eq_true, decide_eq_true_iff]
    refine ⟨fun hall => le_antisymm (by simpa using hall h hh) (hle b hb), fun hk c hc => ?_⟩
    rw [hk]
    exact decide_eq_true (hle c hc)
  rw [earliest, ← List.head?_filter, List.filter_congr hmin, ← ha.stable]
  simp

/-- An empty list stands for an empty pool. -/
theorem earliest_eq_none (ha : Arranges key [] pool) : earliest key pool = none := by
  rw [ha.eq_nil_iff.mp rfl]
  rfl

/-- **Taking the first out** serves the pool. -/
theorem tail (ha : Arranges key (h :: t) pool) : Arranges key t (serve key pool) where
  sorted := (List.pairwise_cons.mp ha.sorted).2
  stable k := by
    have hk := ha.stable k
    obtain ⟨b, l₁, l₂, hfront, hb, hpool, herase⟩ := List.exists_of_eraseP
      (p := fun c => decide (key c = key h)) ((ha.mem_iff h).mp List.mem_cons_self)
      (decide_eq_true rfl)
    have hbk : key b = key h := by simpa using hb
    rw [serve, ha.earliest_eq]
    dsimp only
    rw [herase]
    rw [hpool, List.filter_cons, List.filter_append, List.filter_cons, hbk] at hk
    by_cases hkey : key h = k
    · -- nothing with this key stands in front of the one taken out
      have hnone : l₁.filter (fun b => key b = k) = [] := by
        refine List.filter_eq_nil_iff.mpr fun c hc => ?_
        rw [← hkey]
        exact hfront c hc
      rw [if_pos (by simpa using hkey), if_pos (by simpa using hkey), hnone, List.nil_append] at hk
      rw [List.filter_append, hnone, List.nil_append]
      exact (List.cons.inj hk).2
    · rw [if_neg (by simpa using hkey), if_neg (by simpa using hkey)] at hk
      rw [List.filter_append]
      exact hk

/-- Members with a property can go, from both. -/
theorem filter (ha : Arranges key l pool) (p : β → Bool) :
    Arranges key (l.filter p) (pool.filter p) where
  sorted := ha.sorted.sublist List.filter_sublist
  stable k := by
    rw [List.filter_filter, List.filter_filter]
    simp only [Bool.and_comm]
    rw [← List.filter_filter, ← List.filter_filter, ha.stable]

/-- Members can change in place, as long as they keep their keys. -/
theorem map (ha : Arranges key l pool) {g : β → β} (hg : ∀ b, key (g b) = key b) :
    Arranges key (l.map g) (pool.map g) where
  sorted := List.pairwise_map.mpr (ha.sorted.imp fun {b c} hbc => by
    change key (g b) ≤ key (g c)
    rw [hg, hg]
    exact hbc)
  stable k := by
    have hmap : ∀ m : List β, (m.map g).filter (fun b => key b = k) =
        (m.filter fun b => key b = k).map g := fun m => by
      rw [List.filter_map]
      congr 1
      exact List.filter_congr fun b _ => by rw [Function.comp_apply, hg]
    rw [hmap, hmap, ha.stable]

/-- **The last of the list** has the largest key. -/
theorem le_last {s : List β} {z : β} (ha : Arranges key (s ++ [z]) pool) :
    z ∈ pool ∧ ∀ b ∈ pool, key b ≤ key z := by
  refine ⟨(ha.mem_iff z).mp (by simp), fun b hb => ?_⟩
  rcases List.mem_append.mp ((ha.mem_iff b).mpr hb) with hb | hb
  · exact (List.pairwise_append.mp ha.sorted).2.2 b hb z List.mem_cons_self
  · exact le_of_eq (congrArg key (List.mem_singleton.mp hb))

end Arranges

section Serve

variable {key} {pool : List β} {b : β}

/-- Every pool can be arranged: insert its members one after the other. -/
theorem exists_arranges (key : β → κ) (pool : List β) : ∃ l, Arranges key l pool := by
  induction pool using List.reverseRecOn with
  | nil => exact ⟨[], Arranges.nil⟩
  | append_singleton pool x ih =>
      obtain ⟨l, hl⟩ := ih
      exact ⟨_, hl.insert x⟩

/-- No key of the pool is smaller than that of the member served. -/
theorem earliest_le (h : earliest key pool = some b) : ∀ c ∈ pool, key b ≤ key c := by
  have hb := List.find?_some h
  rw [List.all_eq_true] at hb
  exact fun c hc => of_decide_eq_true (hb c hc)

/-- **Serving** takes one member out of the pool. -/
theorem perm_serve (h : earliest key pool = some b) : pool.Perm (b :: serve key pool) := by
  obtain ⟨l, hl⟩ := exists_arranges key pool
  cases l with
  | nil => exact absurd (hl.earliest_eq_none.symm.trans h) (Option.some_ne_none b).symm
  | cons c t =>
      obtain rfl : c = b := Option.some.inj (hl.earliest_eq.symm.trans h)
      exact hl.perm.symm.trans (hl.tail.perm.cons c)

end Serve

end Pool

end StableInsert
