import Fgcom.Iax.Transport

/-! # What is lost is sent again

* **`catch_up`** — as long as retries are left, timers and deliveries can always bring a peer to all
  that was sent to it, whatever was lost before.
* **`vnak_in_order_iff`** — which frames a request to send again brings, and when they come in the
  order in which they were sent: the comparison of two numbers in `iax_handle_vnak` does not go
  round the circle, so not where the numbers wrap. -/

namespace Fgcom.Iax

open SequenceNumbers StableInsert

/-! ## A frame that is expected -/

section Expected

variable {s : Session} {h : FullFrame}

/-- What a session has taken in stays. -/
structure Session.SameTaken (s t : Session) : Prop where
  iseqno : t.iseqno = s.iseqno
  taken : t.taken = s.taken

theorem Session.SameTaken.trans {t u : Session} (h : s.SameTaken t) (h' : t.SameTaken u) :
    s.SameTaken u := ⟨h'.iseqno.trans h.iseqno, h'.taken.trans h.taken⟩

theorem sameTaken_implicitAck (s : Session) (h : FullFrame) : s.SameTaken (s.implicitAck h) := by
  unfold Session.implicitAck
  dsimp only
  split_ifs <;> exact ⟨rfl, rfl⟩

theorem sameTaken_sendCommand (s : Session) (f : AstFrame) (clock place : ℕ) :
    s.SameTaken (sendCommand s f clock place).1 := by
  rcases sent_sendCommand s f clock place with
    ⟨hsame, -⟩ | ⟨_, _, _, _, _, hiseqno, _, _, htaken, _⟩
  · exact ⟨hsame.iseqno, hsame.taken⟩
  · exact ⟨hiseqno, htaken⟩

theorem sameTaken_sendAll (clock : ℕ) (s : Session) (fs : List AstFrame) (place : ℕ) :
    s.SameTaken (sendAll clock s fs place).1 := by
  induction fs generalizing s place with
  | nil => exact ⟨rfl, rfl⟩
  | cons f fs ih => exact (sameTaken_sendCommand s f clock place).trans (ih _ _)

theorem sameTaken_dispatch (reply : Reply) (s : Session) (h : FullFrame) (clock place : ℕ) :
    s.SameTaken (dispatch reply s h clock place).1 := by
  unfold dispatch
  split_ifs
  · exact ⟨rfl, rfl⟩
  · exact ⟨(s.sameNumbers_pingtime _).iseqno, (s.sameNumbers_pingtime _).taken⟩
  · exact sameTaken_sendAll ..
  · exact ⟨rfl, rfl⟩

/-- **The frame expected** is taken in, whatever it acknowledges. -/
theorem sameTaken_iaxHeaderToEvent (reply : Reply) (hexpected : s.iseqno = h.oseqno)
    (ho : h.content.orderless = false) (clock place : ℕ) :
    (s.take h).SameTaken (iaxHeaderToEvent reply s h clock place).1 := by
  have hack := sameTaken_implicitAck s h
  unfold iaxHeaderToEvent
  generalize s.implicitAck h = s₁ at hack
  dsimp only
  have hin : ¬ s₁.unexpected h := fun hc => (of_decide_eq_true hc).1 (hack.iseqno.trans hexpected)
  have hcounted : ¬ h.content.uncounted := fun hc =>
    Bool.eq_false_iff.mp ho (Content.isCommand_mono (by decide) hc)
  have hboth : ¬ s₁.unexpected h ∧ ¬ h.content.uncounted := ⟨hin, hcounted⟩
  rw [if_neg fun hc => hin hc.1, if_pos hboth]
  have htake : (s.take h).SameTaken (s₁.take h) :=
    ⟨congrArg (fun n => (n + 1) % 256) hack.iseqno, congrArg (· ++ [h.content]) hack.taken⟩
  have hdispatch := htake.trans (sameTaken_dispatch reply (s₁.take h) h clock place)
  split_ifs
  · obtain ⟨hsame, -⟩ := iaxSend_now
      (dispatch reply (s₁.take h) h clock place).1 commandAck h.content.ts clock h.iseqno 0
    exact hdispatch.trans ⟨hsame.iseqno, hsame.taken⟩
  · exact hdispatch

end Expected

/-! ## Catching up -/

section CatchUp

variable {reply : Reply} {net : Net} {p : Bool}

/-- **A timer and a delivery**: the frame the peer expects is sent once more, and taken in. -/
theorem step_resend (reply : Reply) {i : ℕ} {q : Scheduled} (hq : (net.party p).schedq[i]? = some q)
    (hretries : 0 < q.retries) (hexpected : (net.party (!p)).iseqno = q.frame.oseqno)
    (ho : q.frame.content.orderless = false) :
    ∃ net', [Event.timer p i 0, Event.deliver net.wire.length 0 0].foldlM (step reply) net =
        some net' ∧
      (net'.party p).sent = (net.party p).sent ∧
      (net'.party p).schedq = placeAt 0 q.again ((net.party p).schedq.eraseIdx i) ∧
      (net'.party (!p)).iseqno = ((net.party (!p)).iseqno + 1) % 256 ∧
      (net'.party (!p)).taken = (net.party (!p)).taken ++ [q.frame.content] := by
  have hother : (!p) ≠ p := by cases p <;> exact Bool.noConfusion
  have htimer : iaxTimer (net.party p) i 0 =
      ({ net.party p with schedq := placeAt 0 q.again ((net.party p).schedq.eraseIdx i) },
        [.full q.again.frame]) := by
    unfold iaxTimer
    rw [hq]
    dsimp only
    rw [if_neg (by omega), if_neg (by omega)]
  have hkept := sameTaken_iaxHeaderToEvent (h := q.again.frame) reply hexpected ho 0 0
  -- the datagram is the last one of the network
  have hlast : (net.after p (iaxTimer (net.party p) i 0)).wire[net.wire.length]? =
      some (!p, .full q.again.frame) := by
    rw [htimer]
    exact List.getElem?_concat_length
  have hparty : (net.after p (iaxTimer (net.party p) i 0)).party (!p) = net.party (!p) := by
    rw [Net.after_party, Function.update_of_ne hother]
  refine ⟨(net.after p (iaxTimer (net.party p) i 0)).after (!p)
    (iaxHeaderToEvent reply (net.party (!p)) q.again.frame 0 0), ?_, ?_, ?_, ?_, ?_⟩
  · have hdeliver : step reply (net.after p (iaxTimer (net.party p) i 0))
        (.deliver net.wire.length 0 0) =
        some ((net.after p (iaxTimer (net.party p) i 0)).after (!p)
          (iaxHeaderToEvent reply (net.party (!p)) q.again.frame 0 0)) := by
      unfold step
      dsimp only
      rw [hlast]
      dsimp only
      rw [hparty]
    change (step reply (net.after p (iaxTimer (net.party p) i 0))
      (.deliver net.wire.length 0 0)).bind some = _
    rw [hdeliver]
    rfl
  · rw [Net.after_party, Function.update_of_ne (Ne.symm hother), Net.after_party,
      Function.update_self, htimer]
  · rw [Net.after_party, Function.update_of_ne (Ne.symm hother), Net.after_party,
      Function.update_self, htimer]
  · rw [Net.after_party, Function.update_self]
    exact hkept.iseqno
  · rw [Net.after_party, Function.update_self]
    exact hkept.taken

/-- What is missing stands in the schedule, with retries left. -/
structure Waiting (s s' : Session) : Prop where
  iseqno : s'.iseqno = s'.taken.length % 256
  inOrder : s'.taken <+: s.sent
  missing : ∀ n, s'.taken.length ≤ n → n < s.sent.length → ∃ q ∈ s.schedq,
    q.frame.sentNo = n ∧ 0 < q.retries ∧ Genuine s q.frame ∧ q.frame.content.orderless = false

/-- One frame less is missing. -/
theorem Waiting.next {s s' t t' : Session} (hw : Waiting s s') {i : ℕ} {q : Scheduled}
    (hq : s.schedq[i]? = some q) (hgenuine : Genuine s q.frame)
    (hnumber : q.frame.sentNo = s'.taken.length) (hsent : t.sent = s.sent)
    (hschedq : t.schedq = placeAt 0 q.again (s.schedq.eraseIdx i))
    (hiseqno : t'.iseqno = (s'.iseqno + 1) % 256)
    (htaken : t'.taken = s'.taken ++ [q.frame.content]) : Waiting t t' where
  iseqno := by
    rw [hiseqno, htaken, hw.iseqno, List.length_append, List.length_singleton, Nat.mod_add_mod]
  inOrder := by
    rw [htaken, hsent]
    exact concat_prefix hw.inOrder (hnumber ▸ hgenuine.content)
  missing n hn hlt := by
    rw [htaken, List.length_append, List.length_singleton] at hn
    rw [hsent] at hlt
    obtain ⟨q', hq', rfl, hretries, hg, ho⟩ := hw.missing n (by omega) hlt
    refine ⟨q', ?_, rfl, hretries, ⟨hg.oseqno, hsent ▸ hg.content⟩, ho⟩
    rw [hschedq]
    refine mem_placeAt.mpr (Or.inr ((mem_eraseIdx_or hq hq').resolve_left ?_))
    rintro rfl
    omega

/-- A timer or a delivery: the application gives nothing new to send. -/
def Event.Repeats : Event → Prop
  | .send .. => False
  | .deliver .. | .timer .. => True

/-- **Catching up**, from any state in which what is missing still has retries. -/
theorem Waiting.brings (hw : Waiting (net.party p) (net.party (!p))) :
    ∃ (es : List Event) (net' : Net), (∀ e ∈ es, e.Repeats) ∧
      es.foldlM (step reply) net = some net' ∧
      (net'.party (!p)).taken = (net.party p).sent ∧
      (net'.party p).sent = (net.party p).sent := by
  obtain ⟨d, hd⟩ : ∃ d, (net.party (!p)).taken.length + d = (net.party p).sent.length :=
    ⟨_, Nat.add_sub_of_le hw.inOrder.length_le⟩
  induction d generalizing net with
  | zero => exact ⟨[], net, by simp, rfl, hw.inOrder.eq_of_length hd, rfl⟩
  | succ d ih =>
      obtain ⟨q, hq, hnumber, hretries, hgenuine, ho⟩ := hw.missing _ le_rfl (by omega)
      obtain ⟨i, hi⟩ := List.mem_iff_getElem?.mp hq
      have hexpected : (net.party (!p)).iseqno = q.frame.oseqno := by
        rw [hw.iseqno, hgenuine.oseqno, hnumber]
      obtain ⟨net₁, hrun, hsent, hschedq, hiseqno, htaken⟩ :=
        step_resend reply hi hretries hexpected ho
      have hw₁ := hw.next hi hgenuine hnumber hsent hschedq hiseqno htaken
      have hlen : (net₁.party (!p)).taken.length + d = (net₁.party p).sent.length := by
        rw [htaken, hsent, List.length_append, List.length_singleton]
        omega
      obtain ⟨es, net', hrepeats, hrun', htaken', hsent'⟩ := ih hw₁ hlen
      refine ⟨[.timer p i 0, .deliver net.wire.length 0 0] ++ es, net', ?_, ?_,
        htaken'.trans hsent, hsent'.trans hsent⟩
      · simpa [Event.Repeats] using hrepeats
      · rw [List.foldlM_append, hrun]
        exact hrun'

/-- **Retries and deliveries always bring a peer up to date.** In every state of a timely run in
which every frame the peer has not taken in has a retry left, there are timers and deliveries after
which it has taken in all that was sent. -/
theorem catch_up (reply : Reply) (hreply : ∀ c, ∀ f ∈ reply c, f.Ordinary) (es : List Event)
    (ht : EventRun.StepsMeet (step reply) (Timely reply) Net.start es) :
    ∀ net ∈ EventRun.trail (step reply) Net.start es, ∀ p,
      (∀ n, (net.party (!p)).taken.length ≤ n → n < (net.party p).sent.length →
        ∃ q ∈ (net.party p).schedq, q.frame.sentNo = n ∧ 0 < q.retries) →
      ∃ (es' : List Event) (net' : Net), (∀ e ∈ es', e.Repeats) ∧
        es'.foldlM (step reply) net = some net' ∧
        (net'.party (!p)).taken = (net.party p).sent ∧
        (net'.party p).sent = (net.party p).sent := by
  intro net hnet p hmissing
  obtain ⟨k, ho⟩ := ((inv_run hreply ht) net hnet).linked p |>.out
  refine Waiting.brings ⟨ho.iseqno, ho.inOrder, fun n hn hlt => ?_⟩
  obtain ⟨q, hq, hnumber, hretries⟩ := hmissing n hn hlt
  obtain ⟨hvalid, hord⟩ := ho.queued q hq
  exact ⟨q, hq, hnumber, hretries, hvalid.genuine hord, hord⟩

theorem catch_up_text :
    ∃ net ∈ EventRun.trail (step silent) Net.start textRun, (net.party true).taken = [] ∧
      ∃ (es' : List Event) (net' : Net), (∀ e ∈ es', e.Repeats) ∧
        es'.foldlM (step silent) net = some net' ∧
        (net'.party true).taken = (net.party false).sent ∧
        (net'.party false).sent = (net.party false).sent := by
  have hmem := List.getElem_mem (l := EventRun.trail (step silent) Net.start textRun) (n := 2)
    (by decide)
  refine ⟨_, hmem, by decide,
    catch_up silent ordinary_silent textRun timely_textRun _ hmem false fun n _ hn => ?_⟩
  obtain rfl : n = 0 := Nat.lt_one_iff.mp hn
  exact ⟨_, List.mem_cons_self, by decide⟩

end CatchUp

/-! ## What is asked for again -/

section Vnak

variable {s s' : Session} {h : FullFrame}

/-- Cancelling leaves the frames as they are. -/
theorem frames_implicitAck (s : Session) (h : FullFrame) :
    (s.implicitAck h).schedq.map Scheduled.frame = s.schedq.map Scheduled.frame := by
  unfold Session.implicitAck
  dsimp only
  split_ifs
  · rfl
  · rw [foldl_cancel, List.map_map]
    refine List.map_congr_left fun q _ => ?_
    rw [Function.comp_apply]
    split_ifs <;> rfl
  · rfl

/-- An acknowledgement in the window moves its beginning to the frame the peer expects. -/
theorem Linked.implicitAck_number (hl : Linked s s') (hv : Valid s' h) (hfresh : Fresh s h)
    (hin : (s.implicitAck h).rseqno = h.iseqno) : Sending h.ackNo (s.implicitAck h) s' := by
  obtain ⟨hl₁, -, -, -, -, hsent⟩ := hl.implicitAck hv hfresh
  obtain ⟨k, ho⟩ := hl₁.out
  have hmod : k % 256 = h.ackNo % 256 := by rw [← ho.rseqno, hin, hv.acks.iseqno]
  have hk := ho.acked.trans ho.inOrder.length_le
  have hack := hv.acks.le.trans ho.inOrder.length_le
  have hroom := ho.room
  have hold := hfresh.ack
  rw [hsent] at hk hack hroom
  obtain rfl : k = h.ackNo := eq_of_mod_eq hmod (by omega) (by omega)
  exact ho

/-- Once the window begins at the number asked for, every frame of the session is sent once more:
also one that was acknowledged just before. -/
theorem iaxHandleVnak_eq (hrseqno : s.rseqno = h.iseqno) (hlt : h.iseqno < 256) :
    iaxHandleVnak s h = (s.schedq.foldl
      (fun list q => insertAfter (byKey fun q => (q.frame.oseqno : ℤ) - s.rseqno) q list)
      []).map Scheduled.frame := by
  unfold iaxHandleVnak
  dsimp only
  rw [List.filter_eq_self.mpr fun q _ => decide_eq_true ?_]
  rw [hrseqno, ahead_self hlt]
  exact Nat.zero_le _

/-- So what goes out is what stands in the schedule. -/
theorem perm_iaxHandleVnak (hin : (s.implicitAck h).rseqno = h.iseqno) (hlt : h.iseqno < 256) :
    (iaxHandleVnak (s.implicitAck h) h).Perm (s.schedq.map Scheduled.frame) := by
  rw [iaxHandleVnak_eq hin hlt, ← frames_implicitAck s h]
  refine List.Perm.map _ ((perm_foldl_insertAfter _ _ _).trans ?_)
  rw [List.append_nil]

/-- They go out in the order of their numbers, which do not go round the circle. -/
theorem pairwise_iaxHandleVnak (s : Session) (h : FullFrame) :
    (iaxHandleVnak s h).Pairwise fun f g => f.oseqno ≤ g.oseqno := by
  unfold iaxHandleVnak
  dsimp only
  have hsorted := pairwise_foldl_insertAfter
    (byKey fun q : Scheduled => (q.frame.oseqno : ℤ) - s.rseqno)
    (s.schedq.filter fun q =>
      ahead 256 s.rseqno h.iseqno ≤ ahead 256 s.rseqno q.frame.oseqno) List.Pairwise.nil
  refine List.pairwise_map.mpr (hsorted.imp fun {q q'} hle => ?_)
  change (q.frame.oseqno : ℤ) - s.rseqno ≤ (q'.frame.oseqno : ℤ) - s.rseqno at hle
  omega

/-- **In the order of their numbers** frames stand as they were sent if and only if the numbers have
not wrapped among them. -/
theorem in_order_iff {k : ℕ} {fs : List FullFrame}
    (hnumber : ∀ f ∈ fs, f.oseqno = f.sentNo % 256)
    (hwindow : ∀ f ∈ fs, k ≤ f.sentNo ∧ f.sentNo < k + 256)
    (hsorted : fs.Pairwise fun f g => f.oseqno ≤ g.oseqno) :
    (fs.Pairwise fun f g => f.sentNo ≤ g.sentNo) ↔
      ∀ f ∈ fs, ∀ g ∈ fs, f.sentNo / 256 = g.sentNo / 256 := by
  refine ⟨fun hsent f hf g hg => ?_, fun hcycle => ?_⟩
  · -- a later one with a smaller number would stand in front
    have hboth : fs.Pairwise fun f g => f.sentNo / 256 = g.sentNo / 256 := by
      refine (hsorted.and hsent).imp_of_mem fun {f g} hf hg hfg => ?_
      obtain ⟨hle, hle'⟩ := hfg
      rw [hnumber f hf, hnumber g hg] at hle
      have hwf := hwindow f hf
      have hwg := hwindow g hg
      omega
    exact List.Pairwise.forall_of_forall_of_flip
      (R := fun f g : FullFrame => f.sentNo / 256 = g.sentNo / 256) (fun _ _ => rfl) hboth
      (hboth.imp Eq.symm) hf hg
  · refine hsorted.imp_of_mem fun {f g} hf hg hle => ?_
    rw [hnumber f hf, hnumber g hg] at hle
    have := hcycle f hf g hg
    omega

/-- A request to send again has no information elements. -/
theorem Valid.parses_of_vnak (hv : Valid s' h) (hvnak : h.content.isCommand [commandVnak] = true) :
    h.content.parses = true := by
  have hdata := (hv.command (Content.isCommand_mono (by decide) hvnak)).2
  unfold Content.parses
  rw [hdata]
  exact decide_eq_true (Or.inr rfl)

/-- A request to send again is answered with the frames and then, at most, an acknowledgement. -/
theorem iaxHeaderToEvent_vnak (reply : Reply) (s : Session)
    (hvnak : h.content.isCommand [commandVnak] = true) (hparses : h.content.parses = true)
    (clock place : ℕ) :
    ∃ answer, (iaxHeaderToEvent reply s h clock place).2 =
        (iaxHandleVnak (s.implicitAck h) h).map .full ++ answer ∧
      ∀ g, .full g ∈ answer → g.content.orderless = true := by
  have ho : h.content.orderless = true := Content.isCommand_mono (by decide) hvnak
  have hu : h.content.uncounted = true := Content.isCommand_mono (by decide) hvnak
  unfold iaxHeaderToEvent
  generalize s.implicitAck h = s₁
  dsimp only
  rw [if_neg fun hc => hc.2 ho]
  have htake : (if ¬ s₁.unexpected h ∧ ¬ h.content.uncounted then s₁.take h else s₁) = s₁ :=
    if_neg fun hc => hc.2 hu
  rw [htake]
  have hdispatch : dispatch reply s₁ h clock place =
      (s₁, (iaxHandleVnak s₁ h).map .full) := by
    unfold dispatch
    rw [if_neg (not_not.mpr hparses), if_pos hvnak]
  rw [hdispatch]
  split_ifs
  · refine ⟨_, rfl, fun g hg => ?_⟩
    obtain ⟨-, hout⟩ := iaxSend_now s₁ commandAck h.content.ts clock h.iseqno 0
    rw [hout g hg]
    exact (answer_content (by decide) _).2
  · exact ⟨[], (List.append_nil _).symm, fun g hg => absurd hg List.not_mem_nil⟩

/-- **A request to send again** that is not too old brings every frame in the schedule once more,
those acknowledged already among them; and the others come in the order in which they were sent if
and only if their numbers have not wrapped at 256. -/
theorem vnak_in_order_iff (reply : Reply) (hreply : ∀ c, ∀ f ∈ reply c, f.Ordinary)
    (es : List Event) (ht : EventRun.StepsMeet (step reply) (Timely reply) Net.start es) :
    ∀ net ∈ EventRun.trail (step reply) Net.start es, ∀ p h clock place,
      (p, .full h) ∈ net.wire → h.content.isCommand [commandVnak] = true →
      Fresh (net.party p) h → ((net.party p).implicitAck h).rseqno = h.iseqno →
      ∃ (again : List FullFrame) (answer : List Packet),
        (iaxHeaderToEvent reply (net.party p) h clock place).2 = again.map .full ++ answer ∧
        (∀ g, .full g ∈ answer → g.content.orderless = true) ∧
        again.Perm ((net.party p).schedq.map Scheduled.frame) ∧
        ((again.filter fun f => h.ackNo ≤ f.sentNo).Pairwise (fun f g => f.sentNo ≤ g.sentNo) ↔
          ∀ q ∈ (net.party p).schedq, h.ackNo ≤ q.frame.sentNo →
            ∀ q' ∈ (net.party p).schedq, h.ackNo ≤ q'.frame.sentNo →
              q.frame.sentNo / 256 = q'.frame.sentNo / 256) := by
  intro net hnet p h clock place hh hvnak hfresh hin
  have hi := (inv_run hreply ht) net hnet
  have hv := hi.wire p h hh
  have ho := (hi.linked p).implicitAck_number hv hfresh hin
  obtain ⟨answer, hout, hanswer⟩ :=
    iaxHeaderToEvent_vnak reply (net.party p) hvnak (hv.parses_of_vnak hvnak) clock place
  have hlt : h.iseqno < 256 := by
    rw [hv.acks.iseqno]
    exact Nat.mod_lt _ (by decide)
  have hperm := perm_iaxHandleVnak hin hlt
  refine ⟨_, answer, hout, hanswer, hperm, ?_⟩
  -- what is sent again is genuine, and what is not acknowledged stands in the window
  have hmem : ∀ f, f ∈ iaxHandleVnak ((net.party p).implicitAck h) h →
      f.oseqno = f.sentNo % 256 ∧ f.sentNo < h.ackNo + 256 := by
    intro f hf
    obtain ⟨q, hq, rfl⟩ := mem_iaxHandleVnak hf
    obtain ⟨hvalid, hord⟩ := ho.queued q hq
    exact ⟨(hvalid.genuine hord).oseqno, (hvalid.sentNo_lt hord).trans ho.room⟩
  rw [in_order_iff (k := h.ackNo) (fun f hf => (hmem f (List.mem_of_mem_filter hf)).1)
    (fun f hf => ⟨of_decide_eq_true (List.mem_filter.mp hf).2,
      (hmem f (List.mem_of_mem_filter hf)).2⟩)
    ((pairwise_iaxHandleVnak _ h).sublist List.filter_sublist)]
  have hiff : ∀ f, f ∈ (iaxHandleVnak ((net.party p).implicitAck h) h).filter
      (fun f => h.ackNo ≤ f.sentNo) ↔
        ∃ q ∈ (net.party p).schedq, h.ackNo ≤ q.frame.sentNo ∧ q.frame = f := by
    intro f
    rw [List.mem_filter, hperm.mem_iff, List.mem_map, decide_eq_true_iff]
    constructor
    · rintro ⟨⟨q, hq, rfl⟩, hle⟩
      exact ⟨q, hq, hle, rfl⟩
    · rintro ⟨q, hq, hle, rfl⟩
      exact ⟨⟨q, hq, rfl⟩, hle⟩
  constructor
  · exact fun hall q hq hle q' hq' hle' =>
      hall _ ((hiff _).mpr ⟨q, hq, hle, rfl⟩) _ ((hiff _).mpr ⟨q', hq', hle', rfl⟩)
  · intro hall f hf g hg
    obtain ⟨q, hq, hle, rfl⟩ := (hiff f).mp hf
    obtain ⟨q', hq', hle', rfl⟩ := (hiff g).mp hg
    exact hall q hq hle q' hq' hle'

/-- The first of two texts is lost, and the second asks for it. -/
def lossRun : List Event :=
  [.send false ⟨frameText, 0, [104]⟩ 5 0, .send false ⟨frameText, 0, [105]⟩ 6 1, .deliver 1 7 0]

theorem vnak_in_order_iff_loss :
    ∃ net ∈ EventRun.trail (step silent) Net.start lossRun, ∃ h, (false, .full h) ∈ net.wire ∧
      h.content.isCommand [commandVnak] = true ∧
      ∃ (again : List FullFrame) (answer : List Packet),
        (iaxHeaderToEvent silent (net.party false) h 8 0).2 = again.map .full ++ answer ∧
        again.Perm ((net.party false).schedq.map Scheduled.frame) := by
  have hmem := List.getElem_mem (l := EventRun.trail (step silent) Net.start lossRun) (n := 3)
    (by decide)
  generalize hnet : (EventRun.trail (step silent) Net.start lossRun)[3] = net at hmem
  have hwire : net.wire[2]? = some (false, .full
      ((Session.new.wrap ⟨frameIax, commandVnak, []⟩ 7 (some 0)))) := by
    rw [← hnet]
    decide
  have hh := List.mem_of_getElem? hwire
  refine ⟨net, hmem, _, hh, by decide, ?_⟩
  obtain ⟨again, answer, hout, -, hperm, -⟩ := vnak_in_order_iff silent ordinary_silent lossRun
    (by decide) net hmem false _ 8 0 hh (by decide) (by rw [← hnet]; decide)
    (by rw [← hnet]; decide)
  exact ⟨again, answer, hout, hperm⟩

end Vnak

end Fgcom.Iax
