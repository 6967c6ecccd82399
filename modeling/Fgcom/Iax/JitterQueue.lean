import Fgcom.Iax.JitterBuffer
import Fgcom.Lib.Ring

/-! # The queue of the jitter buffer in memory

* **`RingQueue`** — the code's: the frames are nodes of a circular doubly linked list, `frames`
  points to the one with the lowest time, and the nodes taken out wait on a free list, linked by
  `next` (`queue_put`, `_queue_get`). Addresses are numbers, 0 is the null pointer; `malloc` hands
  out the next address and does not fail.
* **`List (Frame δ)`** — the plain one: a pool of frames in the order in which they came. The next
  one out is the one that came first of those with the smallest time.

`RingQueue.WellFormed` is the invariant of the memory: the links form one ring, the free list ends,
no node is on both and none is lost. `ringSim` says that the two queues behave alike, and
`jitterbuf_refines_plain` that the jitter buffer as coded, with both its ring and its ring of
delays, answers every sequence of calls as the plain one does. -/

namespace Fgcom.Jitter

open StableInsert Ring

variable {δ : Type*}

/-! ## The plain queue -/

instance : FrameQueue (List (Frame δ)) δ where
  insert pool f := pool ++ [f]
  first pool := earliest Frame.ts pool
  lastTs pool := (pool.map Frame.ts).max?
  drop pool := serve Frame.ts pool

/-! ## The queue in memory -/

/-- The nodes of the jitter buffer in memory, and its two pointers into them. -/
structure RingQueue (δ : Type*) where
  node : ℕ → Frame δ
  links : Links ℕ
  frames : ℕ
  free : ℕ
  brk : ℕ

namespace RingQueue

/-- After `jb_reset`; what the memory holds that `malloc` will hand out is not known. -/
def start (node : ℕ → Frame δ) (links : Links ℕ) : RingQueue δ := ⟨node, links, 0, 0, 1⟩

/-- A node from the free list, or else a new one. -/
def newNode (q : RingQueue δ) : ℕ × RingQueue δ :=
  if q.free ≠ 0 then (q.free, { q with free := q.links.next q.free })
  else (q.brk, { q with brk := q.brk + 1 })

/-- The loop of `queue_put`, from the highest time down. It goes round at most once. -/
def searchBack (q : RingQueue δ) (ts : ℤ) : ℕ → ℕ → ℕ
  | 0, p => p
  | fuel + 1, p =>
      if ts < (q.node (q.links.prev p)).ts ∧ q.links.prev p ≠ q.frames then
        searchBack q ts fuel (q.links.prev p)
      else p

/-- `queue_put`, the links. -/
def insert (q : RingQueue δ) (f : Frame δ) : RingQueue δ :=
  let frame := q.newNode.1
  let q : RingQueue δ := { q.newNode.2 with node := Function.update q.node frame f }
  if q.frames = 0 then
    { q with
      frames := frame
      links := ⟨Function.update q.links.next frame frame,
        Function.update q.links.prev frame frame⟩ }
  else if f.ts < (q.node q.frames).ts then
    { q with links := linkBefore q.links frame q.frames, frames := frame }
  else { q with links := linkBefore q.links frame (q.searchBack f.ts q.brk q.frames) }

/-- `_queue_get`, the links. -/
def drop (q : RingQueue δ) : RingQueue δ :=
  let frame := q.frames
  let links := unlink q.links frame
  { q with
    links := ⟨Function.update links.next frame q.free, links.prev⟩
    frames := if links.next frame = frame then 0 else links.next frame
    free := frame }

instance : FrameQueue (RingQueue δ) δ where
  insert := insert
  first q := if q.frames = 0 then none else some (q.node q.frames)
  lastTs q := if q.frames = 0 then none else some (q.node (q.links.prev q.frames)).ts
  drop := drop

/-- The free list, to its end. -/
def FreeList (next : ℕ → ℕ) : ℕ → List ℕ → Prop
  | p, [] => p = 0
  | p, a :: l => p = a ∧ a ≠ 0 ∧ FreeList next (next a) l

/-- The memory of the queue: the nodes of the ring in order of time, and those of the free list. -/
structure WellFormed (q : RingQueue δ) (nodes spare : List ℕ) : Prop where
  ring : IsRing q.links nodes
  frames : q.frames = nodes.headD 0
  free : FreeList q.links.next q.free spare
  nodup : (nodes ++ spare).Nodup
  brk : 0 < q.brk
  all : ∀ a, a ∈ nodes ++ spare ↔ 0 < a ∧ a < q.brk

/-- The memory stands for a pool of frames. -/
def Holds (q : RingQueue δ) (pool : List (Frame δ)) : Prop :=
  ∃ nodes spare, q.WellFormed nodes spare ∧ Arranges Frame.ts (nodes.map q.node) pool

/-! ## The invariant -/

variable {q : RingQueue δ} {nodes spare : List ℕ}

theorem wellFormed_start (node : ℕ → Frame δ) (links : Links ℕ) :
    (start node links).WellFormed [] [] where
  ring := trivial
  frames := rfl
  free := rfl
  nodup := List.nodup_nil
  brk := Nat.one_pos
  all a := by
    refine iff_of_false List.not_mem_nil ?_
    rintro ⟨h0, h1⟩
    exact absurd h1 (Nat.not_lt.mpr h0)

/-- A free list survives where the links of its nodes do. -/
theorem FreeList.of_agree {next next' : ℕ → ℕ} {p : ℕ} {l : List ℕ} (h : FreeList next p l)
    (hagree : ∀ a ∈ l, next' a = next a) : FreeList next' p l := by
  induction l generalizing p with
  | nil => exact h
  | cons a l ih =>
      obtain ⟨rfl, ha, hl⟩ := h
      refine ⟨rfl, ha, ?_⟩
      rw [hagree p List.mem_cons_self]
      exact ih hl fun b hb => hagree b (List.mem_cons_of_mem p hb)

/-- The null pointer is no node. -/
theorem WellFormed.ne_zero (h : q.WellFormed nodes spare) {a : ℕ} (ha : a ∈ nodes) : a ≠ 0 :=
  Nat.pos_iff_ne_zero.mp ((h.all a).mp (List.mem_append_left _ ha)).1

/-- The queue is empty when its pointer is null. -/
theorem WellFormed.frames_eq_zero (h : q.WellFormed nodes spare) : q.frames = 0 ↔ nodes = [] := by
  cases nodes with
  | nil => exact iff_of_true h.frames rfl
  | cons a l =>
      refine iff_of_false (fun h0 => h.ne_zero List.mem_cons_self ?_) (List.cons_ne_nil a l)
      rw [← h0, h.frames]
      rfl

/-- There are not more nodes than addresses. -/
theorem length_le_of_nodup {l : List ℕ} {n : ℕ} (hl : l.Nodup) (hlt : ∀ a ∈ l, a < n) :
    l.length ≤ n := by
  have hsub : l ⊆ List.range n := fun a ha => List.mem_range.mpr (hlt a ha)
  have hle := (List.subperm_of_subset hl hsub).length_le
  rwa [List.length_range] at hle

/-- A node has been got for the queue `q`: `x` is in no list, and `r` is what is left. -/
structure Got (q : RingQueue δ) (nodes : List ℕ) (x : ℕ) (r : RingQueue δ) (spare : List ℕ) :
    Prop where
  node : r.node = q.node
  links : r.links = q.links
  frames : r.frames = q.frames
  free : FreeList q.links.next r.free spare
  nodup : (x :: (nodes ++ spare)).Nodup
  brk : 0 < r.brk
  all : ∀ a, a ∈ x :: (nodes ++ spare) ↔ 0 < a ∧ a < r.brk

/-- **A new node**: one from the free list, or one more allocated. -/
theorem WellFormed.newNode (h : q.WellFormed nodes spare) :
    ∃ spare', Got q nodes q.newNode.1 q.newNode.2 spare' := by
  unfold RingQueue.newNode
  cases spare with
  | nil =>
      have hfree : q.free = 0 := h.free
      have hall := h.all
      have hbrk := h.brk
      rw [if_neg (not_not.mpr hfree)]
      refine ⟨[], rfl, rfl, rfl, hfree, List.nodup_cons.mpr ⟨fun hmem => ?_, h.nodup⟩,
        Nat.succ_pos _, fun a => ?_⟩
      · exact absurd ((hall _).mp hmem).2 (lt_irrefl _)
      · rw [List.mem_cons, hall a]
        dsimp only
        omega
  | cons b l =>
      obtain ⟨hb, hb0, hl⟩ := h.free
      rw [hb, if_pos hb0]
      have hperm : (nodes ++ b :: l).Perm (b :: (nodes ++ l)) := List.perm_middle
      exact ⟨l, rfl, rfl, rfl, hl, hperm.nodup_iff.mp h.nodup, h.brk,
        fun a => hperm.mem_iff.symm.trans (h.all a)⟩

/-- **The search from the end** stops where the frames that are not later end. -/
theorem searchBack_spec (q : RingQueue δ) {a : ℕ} {l : List ℕ} (hring : IsRing q.links (a :: l))
    (hframes : q.frames = a) (hsorted : ((a :: l).map q.node).Pairwise (byKey Frame.ts))
    {ts : ℤ} (ha : (q.node a).ts ≤ ts) (fuel : ℕ) (s t : List ℕ) (hst : a :: l = s ++ t)
    (hs : s ≠ []) (hfuel : s.length ≤ fuel) (ht : ∀ b ∈ t, ts < (q.node b).ts) :
    ∃ s' t', a :: l = s' ++ t' ∧ (∀ b ∈ s', (q.node b).ts ≤ ts) ∧
      (∀ b ∈ t', ts < (q.node b).ts) ∧
      q.searchBack ts fuel (t.headD a) = t'.headD a := by
  induction fuel generalizing s t with
  | zero => exact absurd (List.length_eq_zero_iff.mp (Nat.le_zero.mp hfuel)) hs
  | succ fuel ih =>
      obtain ⟨s₀, b, rfl⟩ : ∃ s₀ b, s = s₀ ++ [b] := ⟨_, _, (List.dropLast_concat_getLast hs).symm⟩
      rw [List.append_assoc, List.singleton_append] at hst
      -- the node in front of the one the search stands at
      have hprev : q.links.prev (t.headD a) = b := by
        cases t with
        | nil => exact (hring.prev_first (s := s₀) hst).2
        | cons c t => exact (IsRing.adj (hst ▸ hring)).2
      rw [searchBack, hprev, hframes]
      by_cases hlater : ts < (q.node b).ts
      · have hba : b ≠ a := fun hba => absurd hlater (not_lt.mpr (hba ▸ ha))
        have hs₀ : s₀ ≠ [] := by
          rintro rfl
          exact hba (List.cons.inj hst).1.symm
        rw [if_pos ⟨hlater, hba⟩]
        refine ih s₀ (b :: t) hst hs₀ ?_ (List.forall_mem_cons.mpr ⟨hlater, ht⟩)
        rw [List.length_append, List.length_singleton] at hfuel
        omega
      · rw [if_neg (fun hc => hlater hc.1)]
        refine ⟨s₀ ++ [b], t, by rw [List.append_assoc]; exact hst, fun c hc => ?_, ht, rfl⟩
        rcases List.mem_append.mp hc with hc | hc
        · rw [hst, List.map_append, List.map_cons] at hsorted
          have hcb : (q.node c).ts ≤ (q.node b).ts :=
            (List.pairwise_append.mp hsorted).2.2 _ (List.mem_map_of_mem hc) _ List.mem_cons_self
          exact le_trans hcb (not_lt.mp hlater)
        · rw [List.mem_singleton.mp hc]
          exact not_lt.mp hlater

/-- The links after `linkBefore` where no node of the queue is. -/
theorem linkBefore_next_of_notMem {m : Links ℕ} {x p a : ℕ} {l : List ℕ} (hring : IsRing m l)
    (hp : p ∈ l) (ha : a ∉ x :: l) : (linkBefore m x p).next a = m.next a := by
  have hax : a ≠ x := fun h => ha (h ▸ List.mem_cons_self)
  have hap : a ≠ m.prev p := fun h => ha (List.mem_cons_of_mem x (h ▸ hring.prev_mem hp))
  rw [linkBefore_next, Function.update_of_ne hap, Function.update_of_ne hax]

section Insert

variable {x : ℕ} {r : RingQueue δ} {spare' : List ℕ}

theorem Got.notMem (hg : Got q nodes x r spare) : x ∉ nodes := fun hmem =>
  (List.nodup_cons.mp hg.nodup).1 (List.mem_append_left _ hmem)

/-- The nodes of the free list are neither in the ring nor the new one. -/
theorem Got.spare_notMem (hg : Got q nodes x r spare) {a : ℕ} (ha : a ∈ spare) :
    a ∉ x :: nodes := fun hmem =>
  List.disjoint_of_nodup_append (hg.nodup : (x :: nodes ++ spare).Nodup) hmem ha

/-- Writing the new node leaves the frames of the ring as they are. -/
theorem Got.update_of_mem (hg : Got q nodes x r spare) (f : Frame δ) {b : ℕ} (hb : b ∈ nodes) :
    Function.update q.node x f b = q.node b :=
  Function.update_of_ne (fun hbx : b = x => hg.notMem (hbx ▸ hb)) f q.node

/-- The frames of the ring with the new node in between. -/
theorem Got.map_mid (hg : Got q nodes x r spare) (f : Frame δ) {s t : List ℕ}
    (hst : nodes = s ++ t) :
    (s ++ x :: t).map (Function.update q.node x f) = s.map q.node ++ f :: t.map q.node := by
  rw [List.map_append, List.map_cons, Function.update_self]
  congr 1
  · exact List.map_congr_left fun b hb => hg.update_of_mem f (hst ▸ List.mem_append_left t hb)
  · refine congrArg (f :: ·) (List.map_congr_left fun b hb => hg.update_of_mem f ?_)
    exact hst ▸ List.mem_append_right s hb

/-- The first node is a ring of its own. -/
theorem Got.wellFormed_single (hg : Got q [] x r spare) (f : Frame δ) :
    WellFormed
      ({ r with
          node := Function.update q.node x f
          frames := x
          links := ⟨Function.update r.links.next x x, Function.update r.links.prev x x⟩ } :
        RingQueue δ) [x] spare where
  ring := isRing_singleton.mpr ⟨Function.update_self .., Function.update_self ..⟩
  frames := rfl
  free := by
    rw [hg.links]
    exact hg.free.of_agree fun a ha =>
      Function.update_of_ne (fun hax : a = x => hg.spare_notMem ha (hax ▸ List.mem_cons_self)) ..
  nodup := hg.nodup
  brk := hg.brk
  all := hg.all

/-- **The new node is linked in** between two parts of the ring, which then starts with the one or
the other. -/
theorem Got.wellFormed_mid (hg : Got q nodes x r spare') (h : q.WellFormed nodes spare)
    (f : Frame δ) {s t : List ℕ} (hst : nodes = s ++ t) (hne : nodes ≠ []) {front : ℕ}
    (hfront : (s ++ x :: t).headD 0 = front) :
    WellFormed
      ({ r with
          node := Function.update q.node x f
          links := linkBefore q.links x (t.headD (nodes.headD 0))
          frames := front } : RingQueue δ) (s ++ x :: t) spare' := by
  obtain ⟨a, l, rfl⟩ := List.exists_cons_of_ne_nil hne
  have hmid : (s ++ x :: t ++ spare').Perm (x :: (a :: l ++ spare')) := by
    rw [hst, List.append_assoc, List.append_assoc, List.cons_append]
    exact List.perm_middle
  have hp : t.headD a ∈ a :: l := by
    cases t with
    | nil => exact List.mem_cons_self
    | cons b t => exact hst ▸ List.mem_append_right s List.mem_cons_self
  exact
    { ring := isRing_linkBefore_mid h.ring hg.notMem hst
      frames := hfront.symm
      free := hg.free.of_agree fun b hb =>
        linkBefore_next_of_notMem h.ring hp (hg.spare_notMem hb)
      nodup := hmid.nodup_iff.mpr hg.nodup
      brk := hg.brk
      all := fun b => hmid.mem_iff.trans (hg.all b) }

/-- The search of `queue_put`, where the new frame is not earlier than the first: it cuts the ring
behind the last node that is not later. -/
theorem Got.search {a : ℕ} {l : List ℕ} (hg : Got q (a :: l) x r spare')
    (h : q.WellFormed (a :: l) spare) {f : Frame δ}
    (hsorted : ((a :: l).map q.node).Pairwise (byKey Frame.ts)) (hfirst : (q.node a).ts ≤ f.ts) :
    ∃ s t, a :: l = s ++ t ∧ (s ++ x :: t).headD 0 = a ∧
      (∀ b ∈ s, (q.node b).ts ≤ f.ts) ∧ (∀ b ∈ t, f.ts < (q.node b).ts) ∧
      searchBack { r with node := Function.update q.node x f, frames := a } f.ts r.brk a =
        t.headD a := by
  have hold : ∀ b ∈ a :: l, Function.update q.node x f b = q.node b := fun b hb =>
    hg.update_of_mem f hb
  have hsame : (a :: l).map (Function.update q.node x f) = (a :: l).map q.node :=
    List.map_congr_left hold
  have hlen : (a :: l).length ≤ r.brk := by
    have hall' := List.nodup_cons.mp hg.nodup
    refine length_le_of_nodup (List.Nodup.of_append_left hall'.2) fun b hb => ?_
    exact ((hg.all b).mp (List.mem_cons_of_mem x (List.mem_append_left _ hb))).2
  have hfirst' : (Function.update q.node x f a).ts ≤ f.ts := by
    rwa [hold a List.mem_cons_self]
  obtain ⟨s, t, hst, hle, hlt, hsearch⟩ :=
    searchBack_spec { r with node := Function.update q.node x f, frames := a }
      (hg.links ▸ h.ring) rfl (hsame ▸ hsorted) hfirst' r.brk
      (a :: l) [] (List.append_nil _).symm (List.cons_ne_nil a l) hlen
      fun b hb => absurd hb List.not_mem_nil
  have hle' : ∀ b ∈ s, (q.node b).ts ≤ f.ts := fun b hb =>
    hold b (hst ▸ List.mem_append_left t hb) ▸ hle b hb
  have hlt' : ∀ b ∈ t, f.ts < (q.node b).ts := fun b hb =>
    hold b (hst ▸ List.mem_append_right s hb) ▸ hlt b hb
  refine ⟨s, t, hst, ?_, hle', hlt', hsearch⟩
  cases s with
  | nil =>
      rw [List.nil_append] at hst
      exact absurd (hlt' a (hst ▸ List.mem_cons_self)) (not_lt.mpr hfirst)
  | cons b s => exact (List.cons.inj hst).1.symm

/-- **Putting** a frame in: the ring is well formed again, and the frame stands behind every frame
that is not later. -/
theorem WellFormed.insert (h : q.WellFormed nodes spare) (f : Frame δ)
    (hsorted : (nodes.map q.node).Pairwise (byKey Frame.ts)) :
    ∃ nodes' spare', (q.insert f).WellFormed nodes' spare' ∧
      nodes'.map (q.insert f).node = insertAfter (byKey Frame.ts) f (nodes.map q.node) := by
  obtain ⟨spare', hg⟩ := h.newNode
  unfold RingQueue.insert
  dsimp only
  generalize q.newNode.1 = x at hg ⊢
  generalize q.newNode.2 = r at hg ⊢
  cases nodes with
  | nil =>
      have hfirst : r.frames = 0 := by rw [hg.frames, h.frames_eq_zero]
      rw [if_pos hfirst]
      exact ⟨[x], spare', hg.wellFormed_single f, congrArg (· :: []) (Function.update_self ..)⟩
  | cons a l =>
      have ha : a ∈ a :: l := List.mem_cons_self
      have hhead : r.frames = a := hg.frames.trans h.frames
      have hkey : (Function.update q.node x f a).ts = (q.node a).ts := by
        rw [hg.update_of_mem f ha]
      rw [if_neg (hhead ▸ h.ne_zero ha), hhead, hkey]
      by_cases hfront : f.ts < (q.node a).ts
      · -- it becomes the first
        rw [if_pos hfront, hg.links]
        have hst : a :: l = [] ++ a :: l := (List.nil_append _).symm
        refine ⟨_, spare', hg.wellFormed_mid h f hst (List.cons_ne_nil a l) rfl,
          (hg.map_mid f hst).trans ?_⟩
        have hnot : ¬ byKey Frame.ts (q.node a) f := not_le.mpr hfront
        exact (insertAfter_cons_of_not_rel _ (l.map q.node) hnot).symm
      · obtain ⟨s, t, hst, hhead', hle, hlt, hsearch⟩ := hg.search h hsorted (not_lt.mp hfront)
        rw [if_neg hfront, hsearch, hg.links]
        refine ⟨_, spare', hg.wellFormed_mid h f hst (List.cons_ne_nil a l) hhead',
          (hg.map_mid f hst).trans ?_⟩
        rw [hst, List.map_append]
        refine (insertAfter_append (byKey Frame.ts) ?_ ?_).symm
        · intro g hg
          obtain ⟨b, hb, rfl⟩ := List.mem_map.mp hg
          exact hle b hb
        · intro g hg
          obtain ⟨b, hb, rfl⟩ := List.mem_map.mp hg
          exact not_le.mpr (hlt b hb)

end Insert

/-- **Taking** the first frame out: its node goes to the free list. -/
theorem WellFormed.drop {a : ℕ} {l : List ℕ} (h : q.WellFormed (a :: l) spare) :
    q.drop.WellFormed l (a :: spare) ∧ q.drop.node = q.node := by
  have hframes : q.frames = a := h.frames
  have ha : a ∉ l ++ spare := (List.nodup_cons.mp h.nodup).1
  have hperm : (l ++ a :: spare).Perm (a :: l ++ spare) := List.perm_middle
  -- taking the node out leaves its own link to the next one as it is
  have hnext : (unlink q.links a).next a = q.links.next a := by
    rw [unlink_next]
    by_cases hprev : q.links.prev a = a
    · rw [hprev, Function.update_self]
    · rw [Function.update_of_ne (Ne.symm hprev)]
  have hring := isRing_unlink h.ring
  have hal : ∀ b ∈ l, Function.update (unlink q.links a).next a q.free b =
      (unlink q.links a).next b := fun b hb =>
    Function.update_of_ne (fun hba : b = a => ha (hba ▸ List.mem_append_left spare hb)) ..
  have hspare : ∀ b ∈ spare, Function.update (unlink q.links a).next a q.free b =
      q.links.next b := by
    intro b hb
    have hba : b ≠ a := fun hba => ha (hba ▸ List.mem_append_right l hb)
    have hbp : b ≠ q.links.prev a := fun hbp => by
      have hmem : b ∈ a :: l := hbp ▸ h.ring.prev_mem List.mem_cons_self
      exact List.disjoint_of_nodup_append h.nodup hmem hb
    rw [Function.update_of_ne hba, unlink_next, Function.update_of_ne hbp]
  unfold RingQueue.drop
  dsimp only
  rw [hframes, hnext]
  refine ⟨⟨?_, ?_, ?_, hperm.nodup_iff.mpr h.nodup, h.brk, fun b => ?_⟩, rfl⟩
  · exact isRing_of_agree hring hal fun b _ => rfl
  · dsimp only
    cases l with
    | nil => rw [if_pos (h.ring.next_eq_self.mpr rfl)]; rfl
    | cons b l =>
        rw [if_neg fun hself => List.cons_ne_nil b l (h.ring.next_eq_self.mp hself)]
        exact h.ring.adj_first.1
  · refine ⟨rfl, h.ne_zero List.mem_cons_self, ?_⟩
    dsimp only
    rw [Function.update_self]
    exact h.free.of_agree hspare
  · exact hperm.mem_iff.trans (h.all b)

/-! ## The two queues behave alike -/

/-- The last node of the ring is in front of the first one. -/
theorem WellFormed.last {a : ℕ} {l s : List ℕ} {z : ℕ} (h : q.WellFormed (a :: l) spare)
    (hz : a :: l = s ++ [z]) : q.links.prev q.frames = z := by
  have hframes : q.frames = a := h.frames
  rw [hframes]
  exact (h.ring.prev_first hz).2

/-- **The ring behaves like the pool** it stands for. -/
theorem ringSim : QueueSim (Holds : RingQueue δ → List (Frame δ) → Prop) where
  first q pool := by
    rintro ⟨nodes, spare, hwf, harr⟩
    cases nodes with
    | nil => exact (if_pos (hwf.frames_eq_zero.mpr rfl)).trans harr.earliest_eq_none.symm
    | cons a l =>
        have hframes : q.frames = a := hwf.frames
        have h0 : q.frames ≠ 0 := hframes ▸ hwf.ne_zero List.mem_cons_self
        refine (if_neg h0).trans (Eq.trans ?_ harr.earliest_eq.symm)
        rw [hframes]
  lastTs q pool := by
    rintro ⟨nodes, spare, hwf, harr⟩
    cases nodes with
    | nil =>
        have hpool : pool = [] := harr.eq_nil_iff.mp rfl
        refine (if_pos (hwf.frames_eq_zero.mpr rfl)).trans ?_
        rw [hpool]
        rfl
    | cons a l =>
        obtain ⟨s, z, hz⟩ : ∃ s z, a :: l = s ++ [z] :=
          ⟨_, _, (List.dropLast_concat_getLast (List.cons_ne_nil a l)).symm⟩
        have hframes : q.frames = a := hwf.frames
        have h0 : q.frames ≠ 0 := hframes ▸ hwf.ne_zero List.mem_cons_self
        rw [hz, List.map_append, List.map_singleton] at harr
        obtain ⟨hmem, hle⟩ := harr.le_last
        refine (if_neg h0).trans ?_
        rw [hwf.last hz]
        refine (List.max?_eq_some_iff.mpr ⟨List.mem_map_of_mem hmem, fun k hk => ?_⟩).symm
        obtain ⟨b, hb, rfl⟩ := List.mem_map.mp hk
        exact hle b hb
  insert q pool f := by
    rintro ⟨nodes, spare, hwf, harr⟩
    obtain ⟨nodes', spare', hwf', hmap⟩ := hwf.insert f harr.sorted
    refine ⟨nodes', spare', hwf', ?_⟩
    have hnew := harr.insert f
    rw [← hmap] at hnew
    exact hnew
  drop q pool := by
    rintro ⟨nodes, spare, hwf, harr⟩ hne
    cases nodes with
    | nil => exact absurd (if_pos (hwf.frames_eq_zero.mpr rfl)) hne
    | cons a l =>
        obtain ⟨hwf', hnode⟩ := hwf.drop
        refine ⟨l, a :: spare, hwf', ?_⟩
        have hnode' : (FrameQueue.drop q).node = q.node := hnode
        rw [hnode']
        exact harr.tail

end RingQueue

/-- **The ring of delays behaves like the list of delays.** -/
theorem historySim : HistorySim (History.Holds : History → List ℤ → Prop) where
  record _ _ d h := h.record d
  restart h _ d _ := History.holds_restart_record h d
  report _ _ h := h.report

/-- The jitter buffer after `jb_reset`. -/
def coded (conf : Conf) (node : ℕ → Frame δ) (links : Links ℕ) :
    JitterBuf (RingQueue δ) History :=
  ⟨Info.reset conf, RingQueue.start node links, History.zero⟩

/-- The plain jitter buffer at its start. -/
def plain (δ : Type*) (conf : Conf) : JitterBuf (List (Frame δ)) (List ℤ) :=
  ⟨Info.reset conf, [], []⟩

theorem alike_start (conf : Conf) (node : ℕ → Frame δ) (links : Links ℕ) :
    Alike RingQueue.Holds History.Holds (coded conf node links) (plain δ conf) where
  info := rfl
  frames := ⟨[], [], RingQueue.wellFormed_start node links, Arranges.nil⟩
  hist := History.holds_zero

/-- **The jitter buffer as coded** answers every sequence of calls as the plain one does. -/
theorem jitterbuf_refines_plain (conf : Conf) (node : ℕ → Frame δ) (links : Links ℕ)
    (calls : List (Call δ)) :
    answers (coded conf node links) calls = answers (plain δ conf) calls :=
  (alike_start conf node links).answers RingQueue.ringSim historySim calls

end Fgcom.Jitter
