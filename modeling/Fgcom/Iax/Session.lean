import Fgcom.Iax.Elements
import Fgcom.Lib.SequenceNumbers
import Fgcom.Lib.StableInsert

/-! # Full frames between two peers

The transport of `iax.c`: how a session numbers, repeats, acknowledges and takes in full frames.

* **`iaxSend`** (`iax_send`) — a frame gets the next sequence number and is kept in the schedule
  until it is acknowledged; what answers another frame at once gets the number it is told.
* **`iaxHeaderToEvent`** (`iax_header_to_event`) — the number of the frame the peer expects next
  acknowledges all before it, and the frame itself is taken in only if it is the one expected.
* **`iaxHandleVnak`** (`iax_handle_vnak`) — what the peer asks for is sent once more.
* **`iaxTimer`** — the branch for frames of `iax_get_event`: a frame whose time has come.

Only what the transport reads of a session is here. `sent`, `taken` and `givenUp`, and `sentNo` and
`ackNo` of a frame, are not in the code, and nothing reads them: they count on where the code's
numbers wrap at 256. -/

namespace Fgcom.Iax

open SequenceNumbers StableInsert

/-! ## Frames -/

/-- `AST_FRAME_DTMF`. -/
def frameDtmf : ℕ := 1

/-- `AST_FRAME_VOICE`. -/
def frameVoice : ℕ := 2

/-- `AST_FRAME_CONTROL`. -/
def frameControl : ℕ := 4

/-- `AST_FRAME_IAX`. -/
def frameIax : ℕ := 6

/-- `AST_FRAME_TEXT`. -/
def frameText : ℕ := 7

/-- `AST_FRAME_IMAGE`. -/
def frameImage : ℕ := 8

/-- `AST_FRAME_HTML`. -/
def frameHtml : ℕ := 9

/-- `AST_FRAME_CNG`. -/
def frameCng : ℕ := 10

/-- `IAX_COMMAND_PONG`. -/
def commandPong : ℕ := 3

/-- `IAX_COMMAND_ACK`. -/
def commandAck : ℕ := 4

/-- `IAX_COMMAND_INVAL`. -/
def commandInval : ℕ := 10

/-- `IAX_COMMAND_VNAK`. -/
def commandVnak : ℕ := 18

/-- `IAX_COMMAND_TXCNT`. -/
def commandTxcnt : ℕ := 23

/-- `IAX_COMMAND_TXACC`. -/
def commandTxacc : ℕ := 24

/-- `IAX_COMMAND_TXREADY`. -/
def commandTxready : ℕ := 25

/-- `IAX_COMMAND_TXREL`. -/
def commandTxrel : ℕ := 26

/-- The loop of `compress_subclass`: the only power of two in the number, `none` if it is not the
only one. -/
def onlyPower (subclass : ℕ) : ℕ → ℕ → Option ℕ → Option (Option ℕ)
  | 0, _, power => some power
  | fuel + 1, x, power =>
      if subclass.testBit x then
        if power.isSome then none else onlyPower subclass fuel (x + 1) (some x)
      else onlyPower subclass fuel (x + 1) power

/-- `compress_subclass`, for a subclass that is not negative. -/
def compressSubclass (subclass : ℕ) : ℕ :=
  if subclass < 128 then subclass
  else
    match onlyPower subclass 31 0 none with
    | none => 0
    | some none => 255
    | some (some power) => power ||| 128

/-- `uncompress_subclass`. -/
def uncompressSubclass (csub : ℕ) : ℕ := if csub &&& 128 ≠ 0 then 2 ^ (csub % 32) else csub

/-- `struct ast_frame`, what is sent of it. -/
structure AstFrame where
  type : ℕ
  subclass : ℕ
  data : List UInt8
deriving DecidableEq

/-- What a full frame says: `struct ast_iax2_full_hdr` without call and sequence numbers. -/
structure Content where
  type : ℕ
  csub : ℕ
  ts : ℕ
  data : List UInt8
deriving DecidableEq

/-- The subclass of a frame received. -/
def Content.subclass (c : Content) : ℕ := uncompressSubclass c.csub

/-- One of the commands of the protocol. -/
def Content.isCommand (c : Content) (commands : List ℕ) : Bool :=
  c.type = frameIax ∧ c.subclass ∈ commands

/-- A full frame on its way. -/
structure FullFrame where
  content : Content
  oseqno : ℕ
  iseqno : ℕ
  retrans : Bool
  sentNo : ℕ
  ackNo : ℕ
deriving DecidableEq

/-- A datagram. A mini frame has no numbers. -/
inductive Packet
  | full (frame : FullFrame)
  | mini (ts : ℕ) (data : List UInt8)
deriving DecidableEq

/-! ## Sessions -/

/-- `struct iax_frame` in the schedule. -/
structure Scheduled where
  frame : FullFrame
  retries : ℤ
  retrytime : ℤ
deriving DecidableEq

/-- `struct iax_session`, what the transport reads, and its frames in the schedule. -/
structure Session where
  oseqno : ℕ
  rseqno : ℕ
  iseqno : ℕ
  aseqno : ℕ
  pingtime : ℕ
  lastsent : ℕ
  svoiceformat : ℤ
  schedq : List Scheduled
  sent : List Content
  taken : List Content
  givenUp : List ℕ

/-- `iax_session_new`. -/
def Session.new : Session where
  oseqno := 0
  rseqno := 0
  iseqno := 0
  aseqno := 0
  pingtime := 100
  lastsent := 0
  svoiceformat := -1
  schedq := []
  sent := []
  taken := []
  givenUp := []

/-- `maxretries`. -/
def maxretries : ℤ := 10

/-- `MIN_RETRY_TIME`. -/
def minRetryTime : ℤ := 10

/-- `MAX_RETRY_TIME`. -/
def maxRetryTime : ℤ := 4000

/-- Retry after twice the ping time, which is unsigned, has passed, within limits. -/
def retrytimeOf (pingtime : ℕ) : ℤ :=
  let t := Int.bmod (2 * pingtime) (2 ^ 32)
  let t := if t < minRetryTime then minRetryTime else t
  if t > maxRetryTime then maxRetryTime else t

/-- Where a frame stands among those of its session depends on its time, which is given. -/
def placeAt (place : ℕ) (f : Scheduled) (schedq : List Scheduled) : List Scheduled :=
  schedq.take place ++ f :: schedq.drop place

/-- The time stamp of a frame: the given one, or the one `calc_timestamp` makes from the clock. -/
def stamp (ts clock : ℕ) : ℕ := if ts ≠ 0 then ts else clock

/-- What the frame says on the wire. -/
def AstFrame.content (f : AstFrame) (fts : ℕ) : Content :=
  ⟨f.type % 256, compressSubclass f.subclass, fts, f.data⟩

/-- The frame as it stands in the buffer: with the number given, or else the next one. -/
def Session.wrap (s : Session) (f : AstFrame) (fts : ℕ) (seqno : Option ℕ) : FullFrame where
  content := f.content fts
  oseqno := seqno.getD s.oseqno
  iseqno := s.iseqno
  retrans := false
  sentNo := s.sent.length
  ackNo := s.taken.length

/-- The numbers after a full frame. -/
def Session.numbered (s : Session) (f : AstFrame) (fts : ℕ) (seqno : Option ℕ) : Session :=
  { s with
    aseqno := s.iseqno
    svoiceformat := if f.type = frameVoice then f.subclass else s.svoiceformat
    oseqno := if seqno = none then (s.oseqno + 1) % 256 else s.oseqno
    sent := if seqno = none then s.sent ++ [f.content fts] else s.sent }

/-- `iax_send`: the session, and what goes out. `seqno` is `none` for -1. Acknowledgements, which
have no retries, are always sent at once. -/
def iaxSend (s : Session) (f : AstFrame) (ts clock : ℕ) (seqno : Option ℕ) (now : Bool)
    (place : ℕ) : Session × List Packet :=
  let fts := stamp ts clock
  let sendmini := fts / 65536 = s.lastsent / 65536 ∧ f.type = frameVoice ∧
    (f.subclass : ℤ) = s.svoiceformat
  let s := { s with lastsent := if ts = 0 ∧ f.type ≠ frameIax then fts else s.lastsent }
  if fts = 0 then (s, [])
  else if sendmini then (s, [.mini (fts % 65536) f.data])
  else
    let fr := s.wrap f fts seqno
    let s := s.numbered f fts seqno
    if now then (s, [.full fr])
    else
      ({ s with schedq := placeAt place ⟨fr, maxretries, retrytimeOf s.pingtime⟩ s.schedq },
        [.full fr])

/-- `send_command`, and what other functions send that way. -/
def sendCommand (s : Session) (f : AstFrame) (clock place : ℕ) : Session × List Packet :=
  iaxSend s f 0 clock none false place

/-- `send_command_immediate` with `IAX_COMMAND_ACK`, as an answer to `h`. -/
def sendAck (s : Session) (h : FullFrame) (clock : ℕ) : Session × List Packet :=
  iaxSend s ⟨frameIax, commandAck, []⟩ h.content.ts clock (some h.iseqno) true 0

/-- `iax2_vnak`. -/
def iax2Vnak (s : Session) (clock : ℕ) : Session × List Packet :=
  iaxSend s ⟨frameIax, commandVnak, []⟩ 0 clock (some s.iseqno) true 0

/-! ## Taking frames in -/

/-- Cancel the transmission of the frames with the number `x`. -/
def cancel (x : ℕ) (schedq : List Scheduled) : List Scheduled :=
  schedq.map fun q => if q.frame.oseqno = x then { q with retries := -1 } else q

/-- `iax_header_to_event`, the implicit acknowledgement: the number the peer expects next must be in
the window of what is not yet acknowledged. -/
def Session.implicitAck (s : Session) (h : FullFrame) : Session :=
  if h.content.isCommand [commandInval] then s
  else
    let x := seek 256 s.oseqno h.iseqno 256 s.rseqno
    if x ≠ s.oseqno ∨ s.oseqno = h.iseqno then
      { s with
        schedq := (between 256 h.iseqno 256 s.rseqno).foldl (fun q x => cancel x q) s.schedq
        rseqno := h.iseqno }
    else s

/-- `iax_handle_vnak`: the frames of the session from the number on that the peer expects, in the
order in which they are sent once more. -/
def iaxHandleVnak (s : Session) (h : FullFrame) : List FullFrame :=
  let behind (q : Scheduled) : Prop :=
    ahead 256 s.rseqno h.iseqno ≤ ahead 256 s.rseqno q.frame.oseqno
  let key (q : Scheduled) : ℤ := (q.frame.oseqno : ℤ) - s.rseqno
  ((s.schedq.filter fun q => behind q).foldl
    (fun list q => insertAfter (byKey key) q list) []).map Scheduled.frame

/-- The first condition of the check of the order: not the frame expected, and not one of a transfer
to a session that has just begun. -/
def Session.unexpected (s : Session) (h : FullFrame) : Bool :=
  s.iseqno ≠ h.oseqno ∧ (s.iseqno ≠ 0 ∨
    ¬ h.content.isCommand [commandTxready, commandTxrel, commandTxcnt, commandTxacc])

/-- The commands whose order does not matter. -/
def Content.orderless (c : Content) : Bool :=
  c.isCommand [commandAck, commandInval, commandTxready, commandTxrel, commandTxcnt, commandTxacc,
    commandVnak]

/-- The commands that are not counted. -/
def Content.uncounted (c : Content) : Bool :=
  c.isCommand [commandAck, commandInval, commandTxcnt, commandTxacc, commandVnak]

/-- A frame that is taken in. -/
def Session.take (s : Session) (h : FullFrame) : Session :=
  { s with iseqno := (s.iseqno + 1) % 256, taken := s.taken ++ [h.content] }

/-- The frames `iax_header_to_event` knows what to do with; for the others it returns early. -/
def Content.known (c : Content) : Bool :=
  c.type ∈ [frameDtmf, frameVoice, frameCng, frameIax, frameImage, frameText] ∨
    (c.type = frameControl ∧ c.subclass ∈ [3, 4, 5, 8]) ∨
    (c.type = frameHtml ∧ c.csub ∈ [1, 16, 18, 19, 20])

/-- The information elements of a command can be read; other frames have none. The event that holds
them has a spare byte at its end. -/
def Content.parses (c : Content) : Bool :=
  c.type ≠ frameIax ∨ (iaxParseIes (c.data ++ [0]) c.data.length).map Parsed.ret = some 0

/-- The replies a command gets at once, sent one after the other. -/
def sendAll (clock : ℕ) : Session → List AstFrame → ℕ → Session × List Packet
  | s, [], _ => (s, [])
  | s, f :: fs, place =>
      let r := sendCommand s f clock place
      let r' := sendAll clock r.1 fs (place + 1)
      (r'.1, r.2 ++ r'.2)

/-- The frames `iax_header_to_event` answers to itself: `iax_auth_reply` and
`iax_regauth_reply`. -/
abbrev Reply := Content → List AstFrame

/-- The switch of `iax_header_to_event`, as far as it sends frames or changes the ping time. -/
def dispatch (reply : Reply) (s : Session) (h : FullFrame) (clock place : ℕ) :
    Session × List Packet :=
  if ¬ h.content.parses then (s, [])
  else if h.content.isCommand [commandVnak] then (s, (iaxHandleVnak s h).map .full)
  else if h.content.isCommand [commandPong] then
    ({ s with
        pingtime := (2 * s.pingtime + (clock + 2 ^ 32 - h.content.ts) % 2 ^ 32) % 2 ^ 32 / 3 }, [])
  else sendAll clock s (reply h.content) place

/-- `iax_header_to_event`, from a peer: the session, and what goes out. -/
def iaxHeaderToEvent (reply : Reply) (s : Session) (h : FullFrame) (clock place : ℕ) :
    Session × List Packet :=
  let s := s.implicitAck h
  if s.unexpected h ∧ ¬ h.content.orderless then
    -- out of order: seen already, or one is missing
    if ahead 256 h.oseqno s.iseqno < 128 then sendAck s h clock else iax2Vnak s clock
  else
    let s := if ¬ s.unexpected h ∧ ¬ h.content.uncounted then s.take h else s
    let r := dispatch reply s h clock place
    if h.content.known ∧ r.1.aseqno ≠ r.1.iseqno then
      let r' := sendAck r.1 h clock
      (r'.1, r.2 ++ r'.2)
    else r

/-! ## The timer -/

/-- A frame that is sent once more: one retry less, and four times as long until the next. -/
def Scheduled.again (q : Scheduled) : Scheduled where
  frame := { q.frame with retrans := true }
  retries := q.retries - 1
  retrytime := if q.retrytime * 4 > maxRetryTime then maxRetryTime else q.retrytime * 4

/-- `iax_get_event` when the time of a frame has come: an acknowledged frame goes, one without
retries is given up, and the others are sent once more. -/
def iaxTimer (s : Session) (k place : ℕ) : Session × List Packet :=
  match s.schedq[k]? with
  | none => (s, [])
  | some q =>
      let s := { s with schedq := s.schedq.eraseIdx k }
      if q.retries < 0 then (s, [])
      else if q.retries = 0 then ({ s with givenUp := s.givenUp ++ [q.frame.sentNo] }, [])
      else
        ({ s with schedq := placeAt place q.again s.schedq }, [.full q.again.frame])

end Fgcom.Iax
