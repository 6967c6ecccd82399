import Mathlib.Data.List.Perm.Basic
import Fgcom.Iax.Session
import Fgcom.Lib.EventRun

/-! # Two peers over a network that loses, repeats and reorders

Two sessions, each run by the code of `Session.lean`, and the datagrams between them: a datagram
sent stays in the network, and may be delivered at any time, again, or never.

* **`Linked`** — the invariant of two peers: what one has taken in is the beginning of what the
  other has sent, and the numbers modulo 256 are those of the frames.
* **`exactly_once_in_order`**, **`kept_until_taken`** — what holds along every run in which no more
  than 255 frames wait for an acknowledgement and no datagram is delivered after 256 newer ones
  (`Timely`).

The commands of a transfer to another peer are left out (`Ordinary`). -/

namespace Fgcom.Iax

open SequenceNumbers

/-! ## The network -/

/-- Two sessions and the datagrams on their way, each with the peer it goes to. -/
structure Net where
  party : Bool → Session
  wire : List (Bool × Packet)

/-- What can happen. `clock` is the time stamp at that moment, `place` where the schedule puts a
frame. -/
inductive Event
  | send (p : Bool) (f : AstFrame) (clock place : ℕ)
  | deliver (i clock place : ℕ)
  | timer (p : Bool) (k place : ℕ)

/-- A party has done something, and what it has sent is on its way. -/
def Net.after (net : Net) (p : Bool) (r : Session × List Packet) : Net where
  party := Function.update net.party p r.1
  wire := net.wire ++ r.2.map fun packet => (!p, packet)

theorem Net.after_party (net : Net) (p : Bool) (r : Session × List Packet) :
    (net.after p r).party = Function.update net.party p r.1 := rfl

/-- One step. `iax_miniheader_to_event` does not touch what is modelled here. -/
def step (reply : Reply) (net : Net) : Event → Option Net
  | .send p f clock place => some (net.after p (sendCommand (net.party p) f clock place))
  | .deliver i clock place =>
      match net.wire[i]? with
      | none => none
      | some (_, .mini ..) => some net
      | some (p, .full h) =>
          some (net.after p (iaxHeaderToEvent reply (net.party p) h clock place))
  | .timer p k place => some (net.after p (iaxTimer (net.party p) k place))

/-- Two new sessions. -/
def Net.start : Net := ⟨fun _ => Session.new, []⟩

/-- A frame whose order matters. -/
def AstFrame.Ordinary (f : AstFrame) : Prop := ∀ fts, (f.content fts).orderless = false

/-- There is room for `n` more frames that wait for an acknowledgement. -/
def Session.Room (s : Session) (n : ℕ) : Prop := ahead 256 s.rseqno s.oseqno + n < 256

/-- A datagram that is not too old: neither 256 frames have been taken in since it was numbered, nor
256 sent since what it acknowledges. -/
structure Fresh (s : Session) (h : FullFrame) : Prop where
  number : h.content.orderless = false → s.taken.length < h.sentNo + 256
  ack : s.sent.length < h.ackNo + 256

/-- What a run must keep to. -/
def Timely (reply : Reply) (net : Net) : Event → Prop
  | .send p f _ _ => f.Ordinary ∧ (net.party p).Room 1
  | .deliver i _ _ => ∀ p h, net.wire[i]? = some (p, .full h) →
      Fresh (net.party p) h ∧ (net.party p).Room (reply h.content).length
  | .timer .. => True

/-- The time stamp of a frame does not tell whether its order matters. -/
instance (f : AstFrame) : Decidable f.Ordinary :=
  decidable_of_iff ((f.content 0).orderless = false) ⟨fun h _ => h, fun h => h 0⟩

instance (s : Session) (n : ℕ) : Decidable (s.Room n) :=
  inferInstanceAs (Decidable (_ < _))

instance (s : Session) (h : FullFrame) : Decidable (Fresh s h) :=
  decidable_of_iff ((h.content.orderless = false → s.taken.length < h.sentNo + 256) ∧
    s.sent.length < h.ackNo + 256) ⟨fun h => ⟨h.1, h.2⟩, fun h => ⟨h.number, h.ack⟩⟩

instance Timely.decidable (reply : Reply) (net : Net) : ∀ e, Decidable (Timely reply net e)
  | .send p f _ _ => inferInstanceAs (Decidable (f.Ordinary ∧ (net.party p).Room 1))
  | .deliver i _ _ =>
      match hw : net.wire[i]? with
      | none => isTrue fun p h hh => absurd (hw.symm.trans hh) (Option.some_ne_none _).symm
      | some (_, .mini ..) => isTrue fun p h hh =>
          Packet.noConfusion (Prod.mk.inj (Option.some.inj (hw.symm.trans hh))).2
      | some (p, .full h) =>
          decidable_of_iff (Fresh (net.party p) h ∧ (net.party p).Room (reply h.content).length)
            ⟨fun hf p' h' hh => by
              obtain ⟨rfl, heq⟩ := Prod.mk.inj (Option.some.inj (hw.symm.trans hh))
              obtain rfl := Packet.full.inj heq
              exact hf, fun hf => hf p h hw⟩
  | .timer .. => isTrue trivial

/-! ## The invariant -/

/-- A frame says which frame its sender expects next. -/
structure Acks (s : Session) (h : FullFrame) : Prop where
  iseqno : h.iseqno = h.ackNo % 256
  le : h.ackNo ≤ s.taken.length

/-- A frame is one of those its sender has sent. -/
structure Genuine (s : Session) (h : FullFrame) : Prop where
  oseqno : h.oseqno = h.sentNo % 256
  content : s.sent[h.sentNo]? = some h.content

/-- A full frame of a sender. -/
structure Valid (s : Session) (h : FullFrame) : Prop where
  acks : Acks s h
  command : h.content.orderless = true →
    h.content.isCommand [commandAck, commandVnak] = true ∧ h.content.data = []
  genuine : h.content.orderless = false → Genuine s h

/-- One direction, from `s` to `s'`: the first `k` frames are acknowledged. -/
structure Sending (k : ℕ) (s s' : Session) : Prop where
  oseqno : s.oseqno = s.sent.length % 256
  rseqno : s.rseqno = k % 256
  iseqno : s'.iseqno = s'.taken.length % 256
  acked : k ≤ s'.taken.length
  room : s.sent.length < k + 256
  inOrder : s'.taken <+: s.sent
  queued : ∀ q ∈ s.schedq, Valid s q.frame ∧ q.frame.content.orderless = false
  retries : ∀ q ∈ s.schedq, q.retries < 0 ↔ q.frame.sentNo < k
  kept : ∀ n, k ≤ n → n < s.sent.length → (∃ q ∈ s.schedq, q.frame.sentNo = n) ∨ n ∈ s.givenUp

/-- Two peers, in both directions. -/
structure Linked (s s' : Session) : Prop where
  out : ∃ k, Sending k s s'
  back : ∃ k, Sending k s' s

/-- The invariant of the network. -/
structure Inv (net : Net) : Prop where
  linked : ∀ p, Linked (net.party p) (net.party (!p))
  wire : ∀ p h, (p, .full h) ∈ net.wire → Valid (net.party (!p)) h

/-- A session only adds to what it has sent and taken in. -/
structure Grows (s t : Session) : Prop where
  sent : s.sent <+: t.sent
  taken : s.taken.length ≤ t.taken.length

theorem Grows.refl (s : Session) : Grows s s := ⟨List.prefix_rfl, le_rfl⟩

theorem Grows.trans {s t u : Session} (h : Grows s t) (h' : Grows t u) : Grows s u :=
  ⟨h.sent.trans h'.sent, h.taken.trans h'.taken⟩

/-- What stands in a list stands in every longer one. -/
theorem getElem?_of_prefix {α : Type*} {l m : List α} {i : ℕ} {a : α} (h : l <+: m)
    (ha : l[i]? = some a) : m[i]? = some a := by
  obtain ⟨r, rfl⟩ := h
  rw [List.getElem?_append_left (List.getElem?_eq_some_iff.mp ha).1]
  exact ha

/-- The beginning of a list and what stands next in it. -/
theorem concat_prefix {α : Type*} {l m : List α} {a : α} (h : l <+: m)
    (ha : m[l.length]? = some a) : l ++ [a] <+: m := by
  obtain ⟨r, rfl⟩ := h
  rw [List.getElem?_append_right le_rfl, Nat.sub_self] at ha
  cases r with
  | nil => exact absurd ha (Option.some_ne_none _).symm
  | cons b r =>
      obtain rfl : b = a := Option.some.inj ha
      exact ⟨r, by rw [List.append_assoc, List.singleton_append]⟩

section Congr

variable {k : ℕ} {s t s' t' : Session} {h : FullFrame}

/-- A frame stays valid. -/
theorem Valid.mono (hv : Valid s h) (hg : Grows s t) : Valid t h where
  acks := ⟨hv.acks.iseqno, hv.acks.le.trans hg.taken⟩
  command := hv.command
  genuine ho := ⟨(hv.genuine ho).oseqno, getElem?_of_prefix hg.sent (hv.genuine ho).content⟩

/-- A valid frame that counts has been sent. -/
theorem Valid.sentNo_lt (hv : Valid s h) (ho : h.content.orderless = false) :
    h.sentNo < s.sent.length :=
  (List.getElem?_eq_some_iff.mp (hv.genuine ho).content).1

/-- The numbers the other peer counts with. -/
structure Session.SameNumbers (s t : Session) : Prop where
  oseqno : t.oseqno = s.oseqno
  rseqno : t.rseqno = s.rseqno
  iseqno : t.iseqno = s.iseqno
  schedq : t.schedq = s.schedq
  sent : t.sent = s.sent
  taken : t.taken = s.taken
  givenUp : t.givenUp = s.givenUp

theorem Session.SameNumbers.grows (hn : s.SameNumbers t) : Grows s t where
  sent := hn.sent ▸ List.prefix_rfl
  taken := hn.taken ▸ le_rfl

/-- The direction to a peer depends only on what the peer has taken in. -/
theorem Sending.receiver (hs : Sending k s s') (hiseqno : t'.iseqno = s'.iseqno)
    (htaken : t'.taken = s'.taken) : Sending k s t' where
  oseqno := hs.oseqno
  rseqno := hs.rseqno
  iseqno := by rw [hiseqno, htaken, hs.iseqno]
  acked := by rw [htaken]; exact hs.acked
  room := hs.room
  inOrder := by rw [htaken]; exact hs.inOrder
  queued := hs.queued
  retries := hs.retries
  kept := hs.kept

/-- The direction from a peer does not depend on what it takes in. -/
theorem Sending.sender (hs : Sending k s s') (hoseqno : t.oseqno = s.oseqno)
    (hrseqno : t.rseqno = s.rseqno) (hschedq : t.schedq = s.schedq) (hsent : t.sent = s.sent)
    (hgivenUp : t.givenUp = s.givenUp) (htaken : s.taken.length ≤ t.taken.length) :
    Sending k t s' where
  oseqno := by rw [hoseqno, hsent, hs.oseqno]
  rseqno := by rw [hrseqno, hs.rseqno]
  iseqno := hs.iseqno
  acked := hs.acked
  room := by rw [hsent]; exact hs.room
  inOrder := by rw [hsent]; exact hs.inOrder
  queued := by
    rw [hschedq]
    have hg : Grows s t := ⟨hsent ▸ List.prefix_rfl, htaken⟩
    exact fun q hq => ⟨(hs.queued q hq).1.mono hg, (hs.queued q hq).2⟩
  retries := by rw [hschedq]; exact hs.retries
  kept := by rw [hschedq, hsent, hgivenUp]; exact hs.kept

/-- Nothing the other peer counts with has changed. -/
theorem Linked.congr (hl : Linked s s') (hn : s.SameNumbers t) : Linked t s' := by
  obtain ⟨⟨k, hout⟩, k', hback⟩ := hl
  exact ⟨⟨k, hout.sender hn.oseqno hn.rseqno hn.schedq hn.sent hn.givenUp hn.grows.taken⟩,
    k', hback.receiver hn.iseqno hn.taken⟩

theorem Session.Room.congr {n : ℕ} (hr : s.Room n) (hn : s.SameNumbers t) : t.Room n := by
  rw [Room, hn.rseqno, hn.oseqno]
  exact hr

/-- The frames that wait for an acknowledgement are those sent and not acknowledged. -/
theorem Sending.room_iff (hs : Sending k s s') (n : ℕ) :
    s.Room n ↔ s.sent.length + n < k + 256 := by
  have hk : k ≤ s.sent.length := hs.acked.trans hs.inOrder.length_le
  rw [Session.Room, hs.oseqno, hs.rseqno, ahead_mod hk hs.room]
  omega

end Congr

/-! ## Sending -/

section Send

variable {s s' : Session}

/-- What sending a frame comes to: nothing, or a mini frame, or the next full frame. -/
inductive Sent (s : Session) (f : AstFrame) (place : ℕ) (t : Session) (out : List Packet) : Prop
  | other (same : s.SameNumbers t) (none : ∀ h, .full h ∉ out)
  | next (fts : ℕ) (retrytime : ℤ) (out : out = [.full (s.wrap f fts none)])
      (oseqno : t.oseqno = (s.oseqno + 1) % 256) (rseqno : t.rseqno = s.rseqno)
      (iseqno : t.iseqno = s.iseqno)
      (schedq : t.schedq = placeAt place ⟨s.wrap f fts none, maxretries, retrytime⟩ s.schedq)
      (sent : t.sent = s.sent ++ [f.content fts]) (taken : t.taken = s.taken)
      (givenUp : t.givenUp = s.givenUp)

theorem sent_sendCommand (s : Session) (f : AstFrame) (clock place : ℕ) :
    Sent s f place (sendCommand s f clock place).1 (sendCommand s f clock place).2 := by
  unfold sendCommand iaxSend
  dsimp only
  generalize (if 0 = 0 ∧ f.type ≠ frameIax then stamp 0 clock else s.lastsent) = lastsent
  by_cases hzero : stamp 0 clock = 0
  · rw [if_pos hzero]
    exact .other ⟨rfl, rfl, rfl, rfl, rfl, rfl, rfl⟩ fun h => List.not_mem_nil
  rw [if_neg hzero]
  by_cases hmini : stamp 0 clock / 65536 = s.lastsent / 65536 ∧ f.type = frameVoice ∧
      (f.subclass : ℤ) = s.svoiceformat
  · rw [if_pos hmini]
    refine .other ⟨rfl, rfl, rfl, rfl, rfl, rfl, rfl⟩ fun h hmem => ?_
    exact Packet.noConfusion (List.mem_singleton.mp hmem)
  · rw [if_neg hmini, if_neg Bool.false_ne_true]
    exact .next (stamp 0 clock) _ rfl rfl rfl rfl rfl rfl rfl rfl

/-- An answer sent at once has the number it is told, and leaves the numbers of the session. -/
theorem iaxSend_now (s : Session) (command ts clock seqno place : ℕ) :
    s.SameNumbers (iaxSend s ⟨frameIax, command, []⟩ ts clock (some seqno) true place).1 ∧
      ∀ h, .full h ∈ (iaxSend s ⟨frameIax, command, []⟩ ts clock (some seqno) true place).2 →
        h = s.wrap ⟨frameIax, command, []⟩ (stamp ts clock) (some seqno) := by
  unfold iaxSend
  dsimp only
  generalize (if ts = 0 ∧ frameIax ≠ frameIax then stamp ts clock else s.lastsent) = lastsent
  by_cases hzero : stamp ts clock = 0
  · rw [if_pos hzero]
    exact ⟨⟨rfl, rfl, rfl, rfl, rfl, rfl, rfl⟩, fun h hmem => absurd hmem List.not_mem_nil⟩
  rw [if_neg hzero]
  have hmini : ¬ (stamp ts clock / 65536 = s.lastsent / 65536 ∧ frameIax = frameVoice ∧
      (command : ℤ) = s.svoiceformat) := fun h => absurd h.2.1 (by decide)
  rw [if_neg hmini, if_pos rfl]
  refine ⟨⟨rfl, rfl, rfl, rfl, rfl, rfl, rfl⟩, fun h hmem => ?_⟩
  exact Packet.full.inj (List.mem_singleton.mp hmem)

theorem mem_placeAt {place : ℕ} {f q : Scheduled} {schedq : List Scheduled} :
    q ∈ placeAt place f schedq ↔ q = f ∨ q ∈ schedq := by
  have hperm : (placeAt place f schedq).Perm (f :: schedq) := by
    have hmid : (placeAt place f schedq).Perm (f :: (schedq.take place ++ schedq.drop place)) :=
      List.perm_middle
    rwa [List.take_append_drop] at hmid
  rw [hperm.mem_iff, List.mem_cons]

/-- What a session has done, and how it stands with its peer after it. -/
structure Does (s s' t : Session) (out : List Packet) : Prop where
  linked : Linked t s'
  grows : Grows s t
  valid : ∀ h, .full h ∈ out → Valid t h

theorem Does.same {t : Session} {out : List Packet} (hl : Linked s s') (hn : s.SameNumbers t)
    (hout : ∀ h, .full h ∈ out → Valid s h) : Does s s' t out :=
  ⟨hl.congr hn, hn.grows, fun h hh => (hout h hh).mono hn.grows⟩

/-- One thing after the other. -/
theorem Does.trans {t u : Session} {out out' : List Packet} (hd : Does s s' t out)
    (hd' : Does t s' u out') : Does s s' u (out ++ out') where
  linked := hd'.linked
  grows := hd.grows.trans hd'.grows
  valid h hh := by
    rcases List.mem_append.mp hh with hh | hh
    · exact (hd.valid h hh).mono hd'.grows
    · exact hd'.valid h hh

/-- The frame with the next number is valid once it counts as sent. -/
theorem valid_wrap_none {k : ℕ} {t : Session} (hs : ∃ k', Sending k' s' s) (ho : Sending k s s')
    {f : AstFrame} (hf : f.Ordinary) (fts : ℕ) (hsent : t.sent = s.sent ++ [f.content fts])
    (htaken : t.taken = s.taken) : Valid t (s.wrap f fts none) where
  acks := by
    obtain ⟨k', hback⟩ := hs
    exact ⟨hback.iseqno, by rw [htaken]; exact le_rfl⟩
  command h := absurd (h.symm.trans (hf fts)) Bool.noConfusion
  genuine _ := by
    refine ⟨ho.oseqno, ?_⟩
    rw [hsent]
    exact List.getElem?_concat_length

/-- **Sending a frame** for which there is room. -/
theorem Linked.sendCommand (hl : Linked s s') {f : AstFrame} (hf : f.Ordinary) (hroom : s.Room 1)
    (clock place : ℕ) :
    Does s s' (sendCommand s f clock place).1 (sendCommand s f clock place).2 := by
  rcases sent_sendCommand s f clock place with
    ⟨hsame, hnone⟩ | ⟨fts, rt, hout, hoseqno, hrseqno, hiseqno, hschedq, hsent, htaken, hgivenUp⟩
  · exact .same hl hsame fun h hh => absurd hh (hnone h)
  · obtain ⟨⟨k, ho⟩, k', hback⟩ := hl
    have hk : k ≤ s.sent.length := ho.acked.trans ho.inOrder.length_le
    have hroom' := (ho.room_iff 1).mp hroom
    have hgrows : Grows s (Iax.sendCommand s f clock place).1 :=
      ⟨hsent ▸ List.prefix_append _ _, htaken ▸ le_rfl⟩
    have hvalid := valid_wrap_none ⟨k', hback⟩ ho hf fts hsent htaken
    refine ⟨⟨⟨k, ?_⟩, k', hback.receiver hiseqno htaken⟩, hgrows, fun h hh => ?_⟩
    · exact
        { oseqno := by
            rw [hoseqno, hsent, ho.oseqno, List.length_append, List.length_singleton,
              Nat.mod_add_mod]
          rseqno := hrseqno.trans ho.rseqno
          iseqno := ho.iseqno
          acked := ho.acked
          room := by rw [hsent, List.length_append, List.length_singleton]; exact hroom'
          inOrder := ho.inOrder.trans hgrows.sent
          queued := fun q hq => by
            rw [hschedq, mem_placeAt] at hq
            rcases hq with rfl | hq
            · exact ⟨hvalid, hf fts⟩
            · exact ⟨(ho.queued q hq).1.mono hgrows, (ho.queued q hq).2⟩
          retries := fun q hq => by
            rw [hschedq, mem_placeAt] at hq
            rcases hq with rfl | hq
            · exact iff_of_false (by decide : ¬ maxretries < 0) (Nat.not_lt.mpr hk)
            · exact ho.retries q hq
          kept := fun n hkn hn => by
            rw [hsent, List.length_append, List.length_singleton] at hn
            rw [hschedq, hgivenUp]
            rcases Nat.lt_or_eq_of_le (Nat.le_of_lt_succ hn) with hlt | rfl
            · refine (ho.kept n hkn hlt).imp_left fun ⟨q, hq, hqn⟩ => ⟨q, ?_, hqn⟩
              exact mem_placeAt.mpr (Or.inr hq)
            · exact Or.inl ⟨_, mem_placeAt.mpr (Or.inl rfl), rfl⟩ }
    · rw [hout] at hh
      rw [Packet.full.inj (List.mem_singleton.mp hh)]
      exact hvalid

/-- What an acknowledgement or a request to send again says of itself. -/
theorem answer_content {command : ℕ} (hcommand : command ∈ [commandAck, commandVnak]) (fts : ℕ) :
    (AstFrame.content ⟨frameIax, command, []⟩ fts).isCommand [commandAck, commandVnak] = true ∧
      (AstFrame.content ⟨frameIax, command, []⟩ fts).orderless = true := by
  -- the time stamp does not matter
  have hzero : ∀ c ∈ [commandAck, commandVnak],
      (AstFrame.content ⟨frameIax, c, []⟩ 0).isCommand [commandAck, commandVnak] = true ∧
        (AstFrame.content ⟨frameIax, c, []⟩ 0).orderless = true := by decide
  exact hzero command hcommand

/-- A frame sent takes one place at most. -/
theorem Linked.room_sendCommand (hl : Linked s s') {f : AstFrame} {n : ℕ} (hroom : s.Room (n + 1))
    (clock place : ℕ) : (Iax.sendCommand s f clock place).1.Room n := by
  unfold Session.Room at hroom
  rcases sent_sendCommand s f clock place with
    ⟨hsame, -⟩ | ⟨-, -, -, hoseqno, hrseqno, -, -, -, -, -⟩
  · have hsmall : s.Room n := by
      unfold Session.Room
      omega
    exact hsmall.congr hsame
  · obtain ⟨k, ho⟩ := hl.out
    have hlt : ∀ n, n % 256 < 256 := fun n => Nat.mod_lt n (by decide)
    have hstep := ahead_succ_right_le (M := 256) (ho.rseqno ▸ hlt k : s.rseqno < 256)
      (ho.oseqno ▸ hlt _ : s.oseqno < 256)
    unfold Session.Room
    rw [hoseqno, hrseqno]
    omega

/-- **Answering at once**, with an acknowledgement or a request to send again. -/
theorem Linked.sendNow (hl : Linked s s') {command : ℕ}
    (hcommand : command ∈ [commandAck, commandVnak]) (ts clock seqno place : ℕ) :
    Does s s' (iaxSend s ⟨frameIax, command, []⟩ ts clock (some seqno) true place).1
      (iaxSend s ⟨frameIax, command, []⟩ ts clock (some seqno) true place).2 := by
  obtain ⟨hsame, hout⟩ := iaxSend_now s command ts clock seqno place
  refine .same hl hsame fun h hh => ?_
  obtain ⟨k', hback⟩ := hl.back
  rw [hout h hh]
  obtain ⟨hcmd, hoff⟩ := answer_content hcommand (stamp ts clock)
  exact ⟨⟨hback.iseqno, le_rfl⟩, fun _ => ⟨hcmd, rfl⟩,
    fun ho => absurd (ho.symm.trans hoff) Bool.noConfusion⟩

end Send

/-! ## Taking frames in -/

section Receive

variable {s s' : Session} {h : FullFrame}

/-- The loop cancels the frames with one of the numbers. -/
theorem foldl_cancel (xs : List ℕ) (schedq : List Scheduled) :
    xs.foldl (fun q x => cancel x q) schedq =
      schedq.map fun q => if q.frame.oseqno ∈ xs then { q with retries := -1 } else q := by
  induction xs generalizing schedq with
  | nil =>
      refine (List.map_id schedq).symm.trans (List.map_congr_left fun q _ => ?_)
      rw [if_neg List.not_mem_nil]
      rfl
  | cons x xs ih =>
      rw [List.foldl_cons, ih, cancel, List.map_map]
      refine List.map_congr_left fun q _ => ?_
      rw [Function.comp_apply]
      by_cases hx : q.frame.oseqno = x
      · rw [if_pos hx, if_pos (List.mem_cons.mpr (Or.inl hx))]
        split_ifs <;> rfl
      · rw [if_neg hx]
        refine if_congr ?_ rfl rfl
        rw [List.mem_cons, or_iff_right hx]

/-- The session after an acknowledgement in the window. -/
def Session.acknowledged (s : Session) (h : FullFrame) : Session :=
  { s with
    schedq := (between 256 h.iseqno 256 s.rseqno).foldl (fun q x => cancel x q) s.schedq
    rseqno := h.iseqno }

/-- A frame is cancelled when it stands before the one the peer expects. -/
theorem Sending.mem_acknowledged {k : ℕ} (ho : Sending k s s') (hack : Acks s' h)
    (hk : k ≤ h.ackNo) {q : Scheduled} (hq : q ∈ (s.acknowledged h).schedq) :
    ∃ q₀ ∈ s.schedq, q.frame = q₀.frame ∧ (q.retries < 0 ↔ q₀.frame.sentNo < h.ackNo) := by
  have hlt : ∀ n, n % 256 < 256 := fun n => Nat.mod_lt n (by decide)
  have hmax : h.ackNo < k + 256 :=
    (hack.le.trans ho.inOrder.length_le).trans_lt ho.room
  rw [Session.acknowledged, foldl_cancel] at hq
  obtain ⟨q₀, hq₀, rfl⟩ := List.mem_map.mp hq
  have hsent := (ho.queued q₀ hq₀).1.sentNo_lt (ho.queued q₀ hq₀).2
  have hnumber := ((ho.queued q₀ hq₀).1.genuine (ho.queued q₀ hq₀).2).oseqno
  have hretries := ho.retries q₀ hq₀
  have hmem : q₀.frame.oseqno ∈ between 256 h.iseqno 256 s.rseqno ↔
      ahead 256 (k % 256) (q₀.frame.sentNo % 256) < h.ackNo - k := by
    rw [hnumber, hack.iseqno, ho.rseqno,
      mem_between (hlt k) (hlt h.ackNo) (ahead_lt (hlt k) (hlt _)).le, ahead_mod hk hmax]
    exact and_iff_right (hlt _)
  refine ⟨q₀, hq₀, ?_, ?_⟩
  · split_ifs <;> rfl
  by_cases hold : q₀.frame.sentNo < k
  · -- it was cancelled before
    refine iff_of_true ?_ (hold.trans_le hk)
    split_ifs
    · exact (by decide : (-1 : ℤ) < 0)
    · exact hretries.mpr hold
  · have hge := Nat.not_lt.mp hold
    rw [ahead_mod hge (hsent.trans ho.room)] at hmem
    have hmem' : q₀.frame.oseqno ∈ between 256 h.iseqno 256 s.rseqno ↔
        q₀.frame.sentNo < h.ackNo := by
      rw [hmem]
      omega
    rw [← hmem']
    split_ifs with hin
    · exact iff_of_true (by decide : (-1 : ℤ) < 0) hin
    · exact iff_of_false (fun hneg => hold (hretries.mp hneg)) hin

/-- **An acknowledgement** in the window moves its beginning. -/
theorem Sending.acknowledged {k : ℕ} (ho : Sending k s s') (hack : Acks s' h) (hk : k ≤ h.ackNo) :
    Sending h.ackNo (s.acknowledged h) s' where
  oseqno := ho.oseqno
  rseqno := hack.iseqno
  iseqno := ho.iseqno
  acked := hack.le
  room := ho.room.trans_le (Nat.add_le_add_right hk 256)
  inOrder := ho.inOrder
  queued q hq := by
    obtain ⟨q₀, hq₀, hframe, -⟩ := ho.mem_acknowledged hack hk hq
    rw [hframe]
    exact ⟨(ho.queued q₀ hq₀).1.mono ⟨List.prefix_rfl, le_rfl⟩, (ho.queued q₀ hq₀).2⟩
  retries q hq := by
    obtain ⟨q₀, -, hframe, hiff⟩ := ho.mem_acknowledged hack hk hq
    rw [hframe]
    exact hiff
  kept n hkn hn := by
    refine (ho.kept n (hk.trans hkn) hn).imp_left fun ⟨q, hq, hqn⟩ => ?_
    rw [Session.acknowledged, foldl_cancel]
    refine ⟨_, List.mem_map_of_mem hq, ?_⟩
    split_ifs <;> exact hqn

/-- **The implicit acknowledgement** counts on to the frame the peer expects, and cancels those
before it. -/
theorem Linked.implicitAck (hl : Linked s s') (hv : Valid s' h) (hfresh : Fresh s h) :
    Linked (s.implicitAck h) s' ∧ Grows s (s.implicitAck h) ∧
      (∀ n, s.Room n → (s.implicitAck h).Room n) ∧
      (s.implicitAck h).iseqno = s.iseqno ∧ (s.implicitAck h).taken = s.taken ∧
      (s.implicitAck h).sent = s.sent := by
  obtain ⟨⟨k, ho⟩, k', hback⟩ := hl
  have hk : k ≤ s.sent.length := ho.acked.trans ho.inOrder.length_le
  have hack : h.ackNo ≤ s.sent.length := hv.acks.le.trans ho.inOrder.length_le
  unfold Session.implicitAck
  by_cases hinval : h.content.isCommand [commandInval] = true
  · rw [if_pos hinval]
    exact ⟨⟨⟨k, ho⟩, k', hback⟩, Grows.refl s, fun n hn => hn, rfl, rfl, rfl⟩
  rw [if_neg hinval]
  dsimp only
  have hlt : ∀ n, n % 256 < 256 := fun n => Nat.mod_lt n (by decide)
  have hfuel : ahead 256 (k % 256) (s.sent.length % 256) ≤ 256 := (ahead_lt (hlt k) (hlt _)).le
  have hfound := seek_found_iff (hlt k) (hlt s.sent.length) (hlt h.ackNo) hfuel
  rw [← ho.rseqno, ← ho.oseqno, ← hv.acks.iseqno] at hfound
  by_cases hin : ahead 256 s.rseqno h.iseqno ≤ ahead 256 s.rseqno s.oseqno
  · rw [if_pos (hfound.mpr hin)]
    have hkack : k ≤ h.ackNo := by
      rw [ho.rseqno, ho.oseqno, hv.acks.iseqno] at hin
      exact (ahead_mod_le_iff hk ho.room hack hfresh.ack).mp hin
    have hnew := ho.acknowledged hv.acks hkack
    refine ⟨⟨⟨_, hnew⟩, k', hback.receiver rfl rfl⟩, ⟨List.prefix_rfl, le_rfl⟩, fun n hn => ?_,
      rfl, rfl, rfl⟩
    have hroom := (ho.room_iff n).mp hn
    exact (hnew.room_iff n).mpr (hroom.trans_le (Nat.add_le_add_right hkack 256))
  · rw [if_neg (fun hc => hin (hfound.mp hc))]
    exact ⟨⟨⟨k, ho⟩, k', hback⟩, Grows.refl s, fun n hn => hn, rfl, rfl, rfl⟩

theorem Content.isCommand_mono {c : Content} {l m : List ℕ} (hlm : ∀ x ∈ l, x ∈ m)
    (hc : c.isCommand l = true) : c.isCommand m = true := by
  obtain ⟨htype, hsub⟩ := of_decide_eq_true hc
  exact decide_eq_true ⟨htype, hlm _ hsub⟩

/-- What is counted is an ordinary frame, and what is taken in the one expected. -/
theorem Valid.of_taken (hv : Valid s' h) (hexpected : ¬ s.unexpected h)
    (hcounted : ¬ h.content.uncounted) :
    h.content.orderless = false ∧ s.iseqno = h.oseqno := by
  have ho : h.content.orderless = false := by
    refine Bool.eq_false_iff.mpr fun hoff => hcounted ?_
    exact Content.isCommand_mono (by decide) (hv.command hoff).1
  refine ⟨ho, ?_⟩
  by_contra hne
  refine hexpected (decide_eq_true ⟨hne, Or.inr fun htx => ?_⟩)
  exact Bool.eq_false_iff.mp ho (Content.isCommand_mono (by decide) htx)

/-- **Taking a frame in**: it is the next one. -/
theorem Linked.take (hl : Linked s s') (hv : Valid s' h) (ho : h.content.orderless = false)
    (hfresh : Fresh s h) (hexpected : s.iseqno = h.oseqno) :
    Linked (s.take h) s' ∧ Grows s (s.take h) := by
  obtain ⟨⟨k, hout⟩, k', hback⟩ := hl
  obtain ⟨hnumber, hcontent⟩ := hv.genuine ho
  have hsent := hv.sentNo_lt ho
  -- its number is the one expected, not only modulo 256
  have hnext : h.sentNo = s.taken.length := by
    have hmod : h.sentNo % 256 = s.taken.length % 256 := by
      rw [← hnumber, ← hexpected, hback.iseqno]
    have hwindow := hback.room
    have hacked := hback.acked
    exact eq_of_mod_eq hmod (by omega) (hfresh.number ho)
  have hgrows : Grows s (s.take h) :=
    ⟨List.prefix_rfl, by rw [Session.take, List.length_append]; exact Nat.le_add_right _ _⟩
  refine ⟨⟨⟨k, hout.sender rfl rfl rfl rfl rfl hgrows.taken⟩, k', ?_⟩, hgrows⟩
  exact
    { hback with
      iseqno := by
        rw [Session.take, List.length_append, List.length_singleton, hback.iseqno, Nat.mod_add_mod]
      acked := hback.acked.trans hgrows.taken
      inOrder := by
        rw [hnext] at hcontent
        exact concat_prefix hback.inOrder hcontent }

/-- Sending replies one after the other. -/
theorem Linked.sendAll (hl : Linked s s') (clock : ℕ) {fs : List AstFrame}
    (hfs : ∀ f ∈ fs, f.Ordinary) (hroom : s.Room fs.length) (place : ℕ) :
    Does s s' (sendAll clock s fs place).1 (sendAll clock s fs place).2 := by
  induction fs generalizing s place with
  | nil => exact ⟨hl, Grows.refl s, fun h hh => absurd hh List.not_mem_nil⟩
  | cons f fs ih =>
      have hroom1 : s.Room 1 := by
        unfold Session.Room at hroom ⊢
        rw [List.length_cons] at hroom
        omega
      have hfirst := hl.sendCommand (hfs f List.mem_cons_self) hroom1 clock place
      refine hfirst.trans (ih hfirst.linked (fun g hg => hfs g (List.mem_cons_of_mem f hg)) ?_ _)
      exact hl.room_sendCommand hroom clock place

/-- What a request to send again asks for are frames of the schedule. -/
theorem mem_iaxHandleVnak {g : FullFrame} (hg : g ∈ iaxHandleVnak s h) :
    ∃ q ∈ s.schedq, q.frame = g := by
  unfold iaxHandleVnak at hg
  obtain ⟨q, hq, rfl⟩ := List.mem_map.mp hg
  rw [(StableInsert.perm_foldl_insertAfter _ _ _).mem_iff, List.append_nil] at hq
  exact ⟨q, List.mem_of_mem_filter hq, rfl⟩

/-- The ping time is nothing the other peer counts with. -/
theorem Session.sameNumbers_pingtime (s : Session) (pingtime : ℕ) :
    s.SameNumbers { s with pingtime := pingtime } := ⟨rfl, rfl, rfl, rfl, rfl, rfl, rfl⟩

/-- **The switch** of a frame. -/
theorem Linked.dispatch (hl : Linked s s') {reply : Reply}
    (hreply : ∀ c, ∀ f ∈ reply c, f.Ordinary) (hroom : s.Room (reply h.content).length)
    (clock place : ℕ) :
    Does s s' (dispatch reply s h clock place).1 (dispatch reply s h clock place).2 := by
  unfold Iax.dispatch
  split_ifs
  · refine ⟨hl, Grows.refl s, fun g hg => ?_⟩
    obtain ⟨k, ho⟩ := hl.out
    obtain ⟨g', hg', heq⟩ := List.mem_map.mp hg
    obtain ⟨q, hq, hframe⟩ := mem_iaxHandleVnak hg'
    rw [← Packet.full.inj heq, ← hframe]
    exact (ho.queued q hq).1
  · exact .same hl (s.sameNumbers_pingtime _) fun g hg => absurd hg List.not_mem_nil
  · exact hl.sendAll clock (hreply h.content) hroom place
  · exact ⟨hl, Grows.refl s, fun g hg => absurd hg List.not_mem_nil⟩

/-- **Taking in a frame** that is not too old. -/
theorem Linked.iaxHeaderToEvent (hl : Linked s s') {reply : Reply}
    (hreply : ∀ c, ∀ f ∈ reply c, f.Ordinary) (hv : Valid s' h) (hfresh : Fresh s h)
    (hroom : s.Room (reply h.content).length) (clock place : ℕ) :
    Does s s' (iaxHeaderToEvent reply s h clock place).1
      (iaxHeaderToEvent reply s h clock place).2 := by
  obtain ⟨hl₁, hgrows₁, hroom₁, hiseqno₁, htaken₁, hsent₁⟩ := hl.implicitAck hv hfresh
  have hd₁ : Does s s' (s.implicitAck h) [] :=
    ⟨hl₁, hgrows₁, fun g hg => absurd hg List.not_mem_nil⟩
  have hfresh₁ : Fresh (s.implicitAck h) h :=
    ⟨fun ho => htaken₁ ▸ hfresh.number ho, hsent₁ ▸ hfresh.ack⟩
  have hr := hroom₁ _ hroom
  unfold Iax.iaxHeaderToEvent
  generalize s.implicitAck h = s₁ at hl₁ hd₁ hfresh₁ hr
  dsimp only
  by_cases hout : s₁.unexpected h ∧ ¬ h.content.orderless
  · rw [if_pos hout]
    split_ifs
    · exact hd₁.trans (hl₁.sendNow (by decide) ..)
    · exact hd₁.trans (hl₁.sendNow (by decide) ..)
  rw [if_neg hout]
  -- what is taken in is the frame expected
  have hd₂ : Does s s' (if ¬ s₁.unexpected h ∧ ¬ h.content.uncounted then s₁.take h else s₁) [] ∧
      (if ¬ s₁.unexpected h ∧ ¬ h.content.uncounted then s₁.take h else s₁).Room
        (reply h.content).length := by
    split_ifs with htake
    · obtain ⟨ho, hexpected⟩ := hv.of_taken htake.1 htake.2
      obtain ⟨hl₂, hgrows₂⟩ := hl₁.take hv ho hfresh₁ hexpected
      exact ⟨⟨hl₂, hd₁.grows.trans hgrows₂, fun g hg => absurd hg List.not_mem_nil⟩, hr⟩
    · exact ⟨hd₁, hr⟩
  generalize (if ¬ s₁.unexpected h ∧ ¬ h.content.uncounted then s₁.take h else s₁) = s₂ at hd₂
  obtain ⟨hd₂, hr₂⟩ := hd₂
  have hd₃ := hd₂.trans (hd₂.linked.dispatch hreply hr₂ clock place)
  split_ifs
  · exact hd₃.trans (hd₃.linked.sendNow (by decide) ..)
  · exact hd₃

end Receive

/-! ## The timer -/

section Timer

variable {s s' : Session}

/-- A frame taken out of the schedule. -/
theorem mem_eraseIdx_or {q q' : Scheduled} {schedq : List Scheduled} {i : ℕ}
    (hq : schedq[i]? = some q) (hq' : q' ∈ schedq) : q' = q ∨ q' ∈ schedq.eraseIdx i := by
  obtain ⟨hi, rfl⟩ := List.getElem?_eq_some_iff.mp hq
  have hperm := List.getElem_cons_eraseIdx_perm hi
  exact List.mem_cons.mp (hperm.mem_iff.mpr hq')

/-- The schedule loses a frame, which is acknowledged, given up, or stays in another form. -/
theorem Linked.reschedule (hl : Linked s s') {q : Scheduled} {i : ℕ} (hq : s.schedq[i]? = some q)
    {schedq : List Scheduled} {givenUp : List ℕ}
    (hsub : ∀ q' ∈ schedq, q' ∈ s.schedq ∨ q'.frame.sentNo = q.frame.sentNo ∧
      Valid s q'.frame ∧ q'.frame.content.orderless = false ∧ (q'.retries < 0 ↔ q.retries < 0))
    (hkept : ∀ q' ∈ s.schedq.eraseIdx i, q' ∈ schedq)
    (hgone : q.retries < 0 ∨ (∃ q' ∈ schedq, q'.frame.sentNo = q.frame.sentNo) ∨
      q.frame.sentNo ∈ givenUp)
    (hup : ∀ n ∈ s.givenUp, n ∈ givenUp) :
    Linked { s with schedq := schedq, givenUp := givenUp } s' := by
  obtain ⟨⟨k, ho⟩, k', hback⟩ := hl
  have hqmem : q ∈ s.schedq := List.mem_of_getElem? hq
  refine ⟨⟨k, ?_⟩, k', hback.receiver rfl rfl⟩
  exact
    { ho with
      queued := fun q' hq' => by
        rcases hsub q' hq' with hq' | ⟨-, hvalid, hord, -⟩
        · exact ⟨(ho.queued q' hq').1.mono ⟨List.prefix_rfl, le_rfl⟩, (ho.queued q' hq').2⟩
        · exact ⟨hvalid.mono ⟨List.prefix_rfl, le_rfl⟩, hord⟩
      retries := fun q' hq' => by
        rcases hsub q' hq' with hq' | ⟨hno, -, -, hneg⟩
        · exact ho.retries q' hq'
        · rw [hneg, hno]
          exact ho.retries q hqmem
      kept := fun n hkn hn => by
        rcases ho.kept n hkn hn with ⟨q', hq', rfl⟩ | hn
        · rcases mem_eraseIdx_or hq hq' with rfl | hq'
          · rcases hgone with hneg | hstay | hup'
            · exact absurd ((ho.retries q' hqmem).mp hneg) (Nat.not_lt.mpr hkn)
            · exact Or.inl hstay
            · exact Or.inr hup'
          · exact Or.inl ⟨q', hkept q' hq', rfl⟩
        · exact Or.inr (hup n hn) }

/-- **When the time of a frame has come**, the session and its peer stay linked. -/
theorem Linked.iaxTimer (hl : Linked s s') (i place : ℕ) :
    Does s s' (iaxTimer s i place).1 (iaxTimer s i place).2 := by
  unfold Iax.iaxTimer
  cases hq : s.schedq[i]? with
  | none => exact ⟨hl, Grows.refl s, fun h hh => absurd hh List.not_mem_nil⟩
  | some q =>
      dsimp only
      have hqmem : q ∈ s.schedq := List.mem_of_getElem? hq
      have herase : ∀ q' ∈ s.schedq.eraseIdx i, q' ∈ s.schedq := fun q' hq' =>
        List.mem_of_mem_eraseIdx hq'
      obtain ⟨k, ho⟩ := hl.out
      have hvalid := (ho.queued q hqmem).1
      split_ifs with hneg hzero
      · refine ⟨?_, ⟨List.prefix_rfl, le_rfl⟩, fun h hh => absurd hh List.not_mem_nil⟩
        exact hl.reschedule hq (fun q' hq' => Or.inl (herase q' hq')) (fun q' hq' => hq')
          (Or.inl hneg) fun n hn => hn
      · refine ⟨?_, ⟨List.prefix_rfl, le_rfl⟩, fun h hh => absurd hh List.not_mem_nil⟩
        refine hl.reschedule hq (fun q' hq' => Or.inl (herase q' hq')) (fun q' hq' => hq')
          (Or.inr (Or.inr ?_)) fun n hn => List.mem_append_left _ hn
        exact List.mem_append_right _ List.mem_cons_self
      · have hagain : Valid s q.again.frame :=
          ⟨⟨hvalid.acks.iseqno, hvalid.acks.le⟩, hvalid.command,
            fun ho => ⟨(hvalid.genuine ho).oseqno, (hvalid.genuine ho).content⟩⟩
        refine ⟨?_, ⟨List.prefix_rfl, le_rfl⟩, fun h hh => ?_⟩
        · refine hl.reschedule hq (fun q' hq' => ?_) (fun q' hq' => mem_placeAt.mpr (Or.inr hq'))
            (Or.inr (Or.inl ⟨q.again, mem_placeAt.mpr (Or.inl rfl), rfl⟩)) fun n hn => hn
          rcases mem_placeAt.mp hq' with rfl | hq'
          · refine Or.inr ⟨rfl, hagain, (ho.queued q hqmem).2, ?_⟩
            exact iff_of_false (by unfold Scheduled.again; dsimp only; omega) hneg
          · exact Or.inl (herase q' hq')
        · rw [Packet.full.inj (List.mem_singleton.mp hh)]
          exact hagain.mono ⟨List.prefix_rfl, le_rfl⟩

end Timer

/-! ## Runs -/

section Run

variable {reply : Reply} {net net' : Net}

/-- **A party acts**: the invariant of the network is that of the two peers. -/
theorem Inv.after (hi : Inv net) {p : Bool} {r : Session × List Packet}
    (hd : Does (net.party p) (net.party (!p)) r.1 r.2) : Inv (net.after p r) where
  linked p' := by
    have hother : (!p) ≠ p := by cases p <;> exact Bool.noConfusion
    rcases eq_or_ne p' p with rfl | hne
    · rw [Net.after_party, Function.update_self, Function.update_of_ne hother]
      exact hd.linked
    · obtain rfl : p' = !p := Bool.eq_not_of_ne hne
      rw [Net.after_party, Function.update_of_ne hother, Bool.not_not, Function.update_self]
      exact ⟨hd.linked.back, hd.linked.out⟩
  wire p' h hh := by
    rcases List.mem_append.mp hh with hh | hh
    · have hv := hi.wire p' h hh
      rcases eq_or_ne (!p') p with heq | hne
      · rw [Net.after_party, heq, Function.update_self]
        exact (heq ▸ hv).mono hd.grows
      · rw [Net.after_party, Function.update_of_ne hne]
        exact hv
    · obtain ⟨packet, hpacket, heq⟩ := List.mem_map.mp hh
      obtain ⟨rfl, rfl⟩ := Prod.mk.inj heq
      rw [Bool.not_not, Net.after_party, Function.update_self]
      exact hd.valid h hpacket

theorem inv_start : Inv Net.start where
  linked _ := by
    have hstart : Sending 0 Session.new Session.new :=
      { oseqno := rfl
        rseqno := rfl
        iseqno := rfl
        acked := le_rfl
        room := by decide
        inOrder := List.prefix_rfl
        queued := fun q hq => absurd hq List.not_mem_nil
        retries := fun q hq => absurd hq List.not_mem_nil
        kept := fun n _ hn => absurd hn (Nat.not_lt_zero n) }
    exact ⟨⟨0, hstart⟩, 0, hstart⟩
  wire p h hh := absurd hh List.not_mem_nil

/-- **Every timely step** keeps the invariant. -/
theorem Inv.step (hreply : ∀ c, ∀ f ∈ reply c, f.Ordinary) (hi : Inv net) {e : Event}
    (ht : Timely reply net e) (hs : step reply net e = some net') : Inv net' := by
  cases e with
  | send p f clock place =>
      obtain rfl := Option.some.inj hs
      exact hi.after ((hi.linked p).sendCommand ht.1 ht.2 clock place)
  | deliver i clock place =>
      unfold Iax.step at hs
      dsimp only at hs
      cases hw : net.wire[i]? with
      | none => rw [hw] at hs; exact absurd hs (Option.some_ne_none _).symm
      | some x =>
          obtain ⟨p, packet⟩ := x
          rw [hw] at hs
          cases packet with
          | mini ts data => obtain rfl := Option.some.inj hs; exact hi
          | full h =>
              obtain rfl := Option.some.inj hs
              obtain ⟨hfresh, hroom⟩ := ht p h hw
              have hv := hi.wire p h (List.mem_of_getElem? hw)
              exact hi.after ((hi.linked p).iaxHeaderToEvent hreply hv hfresh hroom clock place)
  | timer p k place =>
      obtain rfl := Option.some.inj hs
      exact hi.after ((hi.linked p).iaxTimer k place)

/-- **Every timely run** keeps the invariant. -/
theorem inv_run (hreply : ∀ c, ∀ f ∈ reply c, f.Ordinary) {es : List Event}
    (ht : EventRun.StepsMeet (Iax.step reply) (Timely reply) Net.start es) :
    ∀ net ∈ EventRun.trail (Iax.step reply) Net.start es, Inv net :=
  EventRun.trail_invariant (fun _ _ _ hi htimely hs => hi.step hreply htimely hs) inv_start ht

/-- **Exactly once, in order.** Whatever the network loses, repeats or reorders, in every state of a
timely run the frames a session has taken in are the first of those its peer has sent, in the same
order. -/
theorem exactly_once_in_order (reply : Reply) (hreply : ∀ c, ∀ f ∈ reply c, f.Ordinary)
    (es : List Event) (ht : EventRun.StepsMeet (Iax.step reply) (Timely reply) Net.start es) :
    ∀ net ∈ EventRun.trail (Iax.step reply) Net.start es, ∀ p,
      (net.party (!p)).taken <+: (net.party p).sent := by
  intro net hnet p
  obtain ⟨k, ho⟩ := ((inv_run hreply ht) net hnet).linked p |>.out
  exact ho.inOrder

/-- No frame is answered but by an acknowledgement. -/
def silent : Reply := fun _ => []

theorem ordinary_silent : ∀ c, ∀ f ∈ silent c, f.Ordinary := fun _ _ hf =>
  absurd hf List.not_mem_nil

/-- A text is sent, lost, sent again, arrives twice, and its acknowledgement arrives. -/
def textRun : List Event :=
  [.send false ⟨frameText, 0, [104, 105]⟩ 5 0, .timer false 0 0, .deliver 1 7 0, .deliver 1 8 0,
    .deliver 2 9 0]

theorem timely_textRun :
    EventRun.StepsMeet (Iax.step silent) (Timely silent) Net.start textRun := by decide

theorem exactly_once_in_order_text :
    ∃ net ∈ EventRun.trail (Iax.step silent) Net.start textRun,
      (net.party true).taken.length = 1 ∧ (net.party true).taken <+: (net.party false).sent := by
  have hmem := List.getElem_mem (l := EventRun.trail (Iax.step silent) Net.start textRun) (n := 4)
    (by decide)
  exact ⟨_, hmem, by decide,
    exactly_once_in_order silent ordinary_silent textRun timely_textRun _ hmem false⟩

/-- **Nothing is dropped in silence.** In every state of a timely run, a frame the peer has not
taken in stands in the schedule with its number and retries left, unless all retries were made and
the application was told; and a frame is only cancelled once the peer has taken it in. -/
theorem kept_until_taken (reply : Reply) (hreply : ∀ c, ∀ f ∈ reply c, f.Ordinary)
    (es : List Event) (ht : EventRun.StepsMeet (Iax.step reply) (Timely reply) Net.start es) :
    ∀ net ∈ EventRun.trail (Iax.step reply) Net.start es, ∀ p,
      (∀ n c, (net.party p).sent[n]? = some c → (net.party (!p)).taken.length ≤ n →
        (∃ q ∈ (net.party p).schedq, 0 ≤ q.retries ∧ q.frame.oseqno = n % 256 ∧
          q.frame.content = c) ∨ n ∈ (net.party p).givenUp) ∧
      ∀ q ∈ (net.party p).schedq, q.retries < 0 →
        q.frame.sentNo < (net.party (!p)).taken.length := by
  intro net hnet p
  obtain ⟨k, ho⟩ := ((inv_run hreply ht) net hnet).linked p |>.out
  refine ⟨fun n c hc hn => ?_, fun q hq hneg => ?_⟩
  · have hkn := ho.acked.trans hn
    refine (ho.kept n hkn (List.getElem?_eq_some_iff.mp hc).1).imp_left ?_
    rintro ⟨q, hq, rfl⟩
    obtain ⟨hnumber, hcontent⟩ := (ho.queued q hq).1.genuine (ho.queued q hq).2
    refine ⟨q, hq, ?_, hnumber, Option.some.inj (hcontent.symm.trans hc)⟩
    by_contra hneg
    exact Nat.not_lt.mpr hkn ((ho.retries q hq).mp (not_le.mp hneg))
  · exact ((ho.retries q hq).mp hneg).trans_le ho.acked

theorem kept_until_taken_text :
    ∃ net ∈ EventRun.trail (Iax.step silent) Net.start textRun,
      (net.party false).schedq.length = 1 ∧
        ∀ q ∈ (net.party false).schedq, q.retries < 0 →
          q.frame.sentNo < (net.party true).taken.length := by
  have hmem := List.getElem_mem (l := EventRun.trail (Iax.step silent) Net.start textRun) (n := 5)
    (by decide)
  exact ⟨_, hmem, by decide,
    (kept_until_taken silent ordinary_silent textRun timely_textRun _ hmem false).2⟩

end Run

end Fgcom.Iax
