import Mathlib.Data.List.Chain
import Mathlib.Data.List.Nodup
import Mathlib.Logic.Function.Basic

/-! # Circular doubly linked lists in memory

Every node has a link to the next and one to the previous node; `IsRing m l` says that the nodes of
`l`, in this order, form a circle in which both links agree.

* **`linkBefore m x p`** — the four assignments that link a new node in front of `p`.
* **`unlink m a`** — the two assignments that take `a` out.

Where the list of a ring starts does not matter (`isRing_append_comm`), so both edits are proved at
the start of the list, where the seam is. -/

namespace Ring

variable {A : Type*}

/-- The two links of every node. -/
structure Links (A : Type*) where
  next : A → A
  prev : A → A

/-- Two nodes linked both ways. -/
def Links.Adj (m : Links A) (a b : A) : Prop := m.next a = b ∧ m.prev b = a

/-- The nodes of the list form a circle. -/
def IsRing (m : Links A) : List A → Prop
  | [] => True
  | a :: l => (a :: l).Nodup ∧ (a :: l ++ [a]).IsChain m.Adj

@[simp] theorem isRing_nil (m : Links A) : IsRing m [] := trivial

theorem isRing_cons {m : Links A} {a : A} {l : List A} :
    IsRing m (a :: l) ↔ (a :: l).Nodup ∧ (a :: l ++ [a]).IsChain m.Adj := Iff.rfl

theorem IsRing.nodup {m : Links A} {l : List A} (h : IsRing m l) : l.Nodup := by
  cases l with
  | nil => exact List.nodup_nil
  | cons a l => exact h.1

/-- A node alone is linked to itself. -/
theorem isRing_singleton {m : Links A} {a : A} : IsRing m [a] ↔ m.next a = a ∧ m.prev a = a := by
  rw [isRing_cons, List.singleton_append, List.isChain_pair]
  exact and_iff_right (List.nodup_singleton a)

/-- A chain of links survives where the links inside it do. -/
theorem isChain_of_agree {m m' : Links A} {l : List A} (h : l.IsChain m.Adj)
    (hnext : ∀ a ∈ l.dropLast, m'.next a = m.next a) (hprev : ∀ b ∈ l.tail, m'.prev b = m.prev b) :
    l.IsChain m'.Adj := by
  induction l with
  | nil => exact List.IsChain.nil
  | cons a l ih =>
      cases l with
      | nil => exact List.IsChain.singleton a
      | cons b l =>
          obtain ⟨hab, hl⟩ := List.isChain_cons_cons.mp h
          have ha := hnext a (by rw [List.dropLast_cons_cons]; exact List.mem_cons_self)
          have hb := hprev b List.mem_cons_self
          refine List.isChain_cons_cons.mpr ⟨⟨ha.trans hab.1, hb.trans hab.2⟩, ih hl ?_ ?_⟩
          · intro c hc
            exact hnext c (by rw [List.dropLast_cons_cons]; exact List.mem_cons_of_mem _ hc)
          · exact fun c hc => hprev c (List.mem_cons_of_mem _ hc)

/-- A ring survives where the links of its nodes do. -/
theorem isRing_of_agree {m m' : Links A} {l : List A} (h : IsRing m l)
    (hnext : ∀ a ∈ l, m'.next a = m.next a) (hprev : ∀ a ∈ l, m'.prev a = m.prev a) :
    IsRing m' l := by
  cases l with
  | nil => trivial
  | cons a l =>
      refine ⟨h.1, isChain_of_agree h.2 (fun b hb => hnext b ?_) fun b hb => hprev b ?_⟩
      · rwa [List.dropLast_concat] at hb
      · rw [List.cons_append, List.tail_cons, List.mem_append, List.mem_singleton] at hb
        rcases hb with hb | rfl
        · exact List.mem_cons_of_mem a hb
        · exact List.mem_cons_self

/-- **Where a ring starts does not matter.** -/
theorem isRing_append_comm {m : Links A} {l₁ l₂ : List A} (h : IsRing m (l₁ ++ l₂)) :
    IsRing m (l₂ ++ l₁) := by
  cases l₁ with
  | nil => rwa [List.append_nil]
  | cons a s =>
      cases l₂ with
      | nil => rwa [List.append_nil] at h
      | cons b t =>
          obtain ⟨hnodup, hchain⟩ := h
          have hsplit : (a :: s ++ b :: (t ++ [a])).IsChain m.Adj := by
            simpa using hchain
          obtain ⟨hs, ht⟩ := List.isChain_split.mp hsplit
          have hswap : (b :: t ++ a :: s).Nodup := List.nodup_append_comm.mp hnodup
          refine ⟨hswap, ?_⟩
          have hjoin : (b :: t ++ a :: (s ++ [b])).IsChain m.Adj :=
            List.isChain_split.mpr ⟨by simpa using ht, by simpa using hs⟩
          simpa using hjoin

/-- The node in front of the first one is the last one. -/
theorem IsRing.prev_first {m : Links A} {a : A} {l : List A} {z : A} {s : List A}
    (h : IsRing m (a :: l)) (hl : a :: l = s ++ [z]) : m.next z = a ∧ m.prev a = z := by
  obtain ⟨-, hchain⟩ := h
  rw [hl, List.append_assoc, List.singleton_append] at hchain
  exact (List.isChain_append_cons_cons.mp hchain).2.1

/-- The first two nodes. -/
theorem IsRing.adj_first {m : Links A} {a b : A} {l : List A} (h : IsRing m (a :: b :: l)) :
    m.next a = b ∧ m.prev b = a := by
  have hchain := h.2
  rw [List.cons_append, List.cons_append] at hchain
  exact (List.isChain_cons_cons.mp hchain).1

/-- Two neighbours inside the list. -/
theorem IsRing.adj {m : Links A} {a b : A} {l₁ l₂ : List A} (h : IsRing m (l₁ ++ a :: b :: l₂)) :
    m.next a = b ∧ m.prev b = a :=
  IsRing.adj_first (isRing_append_comm h)

/-- The node in front of a node of the ring is on the ring. -/
theorem IsRing.prev_mem {m : Links A} {l : List A} (h : IsRing m l) {a : A} (ha : a ∈ l) :
    m.prev a ∈ l := by
  obtain ⟨s, t, rfl⟩ := List.append_of_mem ha
  have hrot := isRing_append_comm h
  obtain ⟨u, z, hz⟩ : ∃ u z, a :: (t ++ s) = u ++ [z] :=
    ⟨_, _, (List.dropLast_concat_getLast (List.cons_ne_nil a _)).symm⟩
  have hmem : z ∈ a :: (t ++ s) := by
    rw [hz]
    exact List.mem_append_right u List.mem_cons_self
  have hprev : m.prev a = z := (hrot.prev_first hz).2
  rw [hprev]
  exact List.perm_append_comm.mem_iff.mp (hmem : z ∈ a :: t ++ s)

/-- A node is next to itself only when it is alone. -/
theorem IsRing.next_eq_self {m : Links A} {a : A} {l : List A} (h : IsRing m (a :: l)) :
    m.next a = a ↔ l = [] := by
  cases l with
  | nil => exact iff_of_true (isRing_singleton.mp h).1 rfl
  | cons b l =>
      have hab : m.next a = b := h.adj_first.1
      refine iff_of_false (fun haa => ?_) (List.cons_ne_nil b l)
      have hne : a ∉ b :: l := (List.nodup_cons.mp h.nodup).1
      exact hne (haa.symm.trans hab ▸ List.mem_cons_self)

/-! ## The edits -/

variable [DecidableEq A]

/-- Link the new node `x` in front of `p`: its own links, then the ones of its neighbours. -/
def linkBefore (m : Links A) (x p : A) : Links A where
  next := Function.update (Function.update m.next x p) (m.prev p) x
  prev := Function.update (Function.update m.prev x (m.prev p)) p x

/-- Take `a` out: the neighbours are linked to each other. -/
def unlink (m : Links A) (a : A) : Links A where
  next := Function.update m.next (m.prev a) (m.next a)
  prev := Function.update m.prev (m.next a) (m.prev a)

theorem linkBefore_next (m : Links A) (x p c : A) : (linkBefore m x p).next c =
    Function.update (Function.update m.next x p) (m.prev p) x c := rfl

theorem linkBefore_prev (m : Links A) (x p c : A) : (linkBefore m x p).prev c =
    Function.update (Function.update m.prev x (m.prev p)) p x c := rfl

theorem unlink_next (m : Links A) (a c : A) :
    (unlink m a).next c = Function.update m.next (m.prev a) (m.next a) c := rfl

theorem unlink_prev (m : Links A) (a c : A) :
    (unlink m a).prev c = Function.update m.prev (m.next a) (m.prev a) c := rfl

/-- **Linking in** front of the first node puts the new node at the end. -/
theorem isRing_linkBefore {m : Links A} {x p : A} {l : List A} (h : IsRing m (p :: l))
    (hx : x ∉ p :: l) : IsRing (linkBefore m x p) (p :: l ++ [x]) := by
  obtain ⟨s, z, hsz⟩ : ∃ s z, p :: l = s ++ [z] :=
    ⟨_, _, (List.dropLast_concat_getLast (List.cons_ne_nil p l)).symm⟩
  obtain ⟨-, hprev⟩ := h.prev_first hsz
  have hnodup := h.nodup
  have hxp : x ≠ p := fun hxp => hx (hxp ▸ List.mem_cons_self)
  have hxz : x ≠ z := fun hxz =>
    hx (by rw [hsz, hxz]; exact List.mem_append_right s List.mem_cons_self)
  have hswap : (p :: l ++ [x]).Nodup :=
    List.nodup_append_comm.mp (List.nodup_cons.mpr ⟨hx, hnodup⟩ : ([x] ++ p :: l).Nodup)
  refine ⟨hswap, ?_⟩
  have hinner : (s ++ [z]).IsChain (linkBefore m x p).Adj := by
    have hchain : (s ++ [z]).IsChain m.Adj := by
      have := h.2
      rw [hsz] at this
      exact List.IsChain.left_of_append this
    refine isChain_of_agree hchain (fun a ha => ?_) fun b hb => ?_
    · rw [List.dropLast_concat] at ha
      have hmem : a ∈ p :: l := hsz ▸ List.mem_append_left [z] ha
      have haz : a ≠ z := by
        rw [hsz] at hnodup
        exact fun haz => List.disjoint_of_nodup_append hnodup ha (haz ▸ List.mem_cons_self)
      have hax : a ≠ x := fun hax => hx (hax ▸ hmem)
      rw [linkBefore_next, hprev, Function.update_of_ne haz, Function.update_of_ne hax]
    · rw [← hsz, List.tail_cons] at hb
      have hbp : b ≠ p := fun hbp => (List.nodup_cons.mp hnodup).1 (hbp ▸ hb)
      have hbx : b ≠ x := fun hbx => hx (hbx ▸ List.mem_cons_of_mem p hb)
      rw [linkBefore_prev, Function.update_of_ne hbp, Function.update_of_ne hbx]
  have hzx : (linkBefore m x p).Adj z x := by
    refine ⟨?_, ?_⟩
    · rw [linkBefore_next, hprev, Function.update_self]
    · rw [linkBefore_prev, Function.update_of_ne hxp, Function.update_self, hprev]
  have hxp' : (linkBefore m x p).Adj x p := by
    refine ⟨?_, ?_⟩
    · rw [linkBefore_next, hprev, Function.update_of_ne hxz, Function.update_self]
    · rw [linkBefore_prev, Function.update_self]
  have hlist : p :: (l ++ [x]) ++ [p] = s ++ z :: x :: [p] := by
    rw [← List.cons_append, hsz]
    simp
  have hring := List.isChain_append_cons_cons.mpr ⟨hinner, hzx, List.isChain_pair.mpr hxp'⟩
  exact hlist ▸ hring

/-- Linking in behind `s`: in front of the first node of what follows, round the circle. -/
theorem isRing_linkBefore_mid {m : Links A} {x a : A} {l s t : List A} (h : IsRing m (a :: l))
    (hx : x ∉ a :: l) (hst : a :: l = s ++ t) :
    IsRing (linkBefore m x (t.headD a)) (s ++ x :: t) := by
  cases t with
  | nil =>
      rw [List.append_nil] at hst
      rw [← hst]
      exact isRing_linkBefore h hx
  | cons p t =>
      rw [hst] at h hx
      have hrot := isRing_append_comm h
      have hx' : x ∉ p :: (t ++ s) := fun hmem =>
        hx (List.perm_append_comm.mem_iff.mp (hmem : x ∈ p :: t ++ s))
      have hnew := isRing_linkBefore hrot hx'
      have hlist : p :: (t ++ s) ++ [x] = p :: t ++ (s ++ [x]) := by simp
      have hswap := isRing_append_comm (hlist ▸ hnew)
      rwa [List.append_assoc] at hswap

/-- **Taking out** the first node leaves the ring of the others. -/
theorem isRing_unlink {m : Links A} {a : A} {l : List A} (h : IsRing m (a :: l)) :
    IsRing (unlink m a) l := by
  cases l with
  | nil => trivial
  | cons b t =>
      obtain ⟨s, z, hsz⟩ : ∃ s z, b :: t = s ++ [z] :=
        ⟨_, _, (List.dropLast_concat_getLast (List.cons_ne_nil b t)).symm⟩
      have hnext : m.next a = b := h.adj_first.1
      have hprev : m.prev a = z := (h.prev_first (s := a :: s) (by rw [hsz]; rfl)).2
      have hnodup : (b :: t).Nodup := (List.nodup_cons.mp h.nodup).2
      refine ⟨hnodup, ?_⟩
      have hchain : (s ++ [z]).IsChain m.Adj := by
        have := h.2
        rw [List.cons_append] at this
        have := List.IsChain.tail this
        rw [List.tail_cons, hsz] at this
        exact List.IsChain.left_of_append this
      have hinner : (s ++ [z]).IsChain (unlink m a).Adj := by
        refine isChain_of_agree hchain (fun c hc => ?_) fun c hc => ?_
        · rw [List.dropLast_concat] at hc
          have hcz : c ≠ z := by
            rw [hsz] at hnodup
            exact fun hcz => List.disjoint_of_nodup_append hnodup hc (hcz ▸ List.mem_cons_self)
          rw [unlink_next, hprev, Function.update_of_ne hcz]
        · rw [← hsz, List.tail_cons] at hc
          have hcb : c ≠ b := fun hcb => (List.nodup_cons.mp hnodup).1 (hcb ▸ hc)
          rw [unlink_prev, hnext, Function.update_of_ne hcb]
      have hzb : (unlink m a).Adj z b := by
        refine ⟨?_, ?_⟩
        · rw [unlink_next, hprev, Function.update_self, hnext]
        · rw [unlink_prev, hnext, Function.update_self, hprev]
      have hlist : b :: t ++ [b] = s ++ z :: [b] := by
        rw [hsz, List.append_assoc, List.singleton_append]
      rw [hlist]
      exact List.isChain_append_cons_cons.mpr ⟨hinner, hzb, List.IsChain.singleton b⟩

end Ring
