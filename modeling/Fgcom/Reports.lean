import Fgcom.Client
import Fgcom.Lib.Printf
import Fgcom.Lib.Record
import Fgcom.Options
import Mathlib.Algebra.Order.BigOperators.Group.List
import Mathlib.Data.Int.Bitwise
import Mathlib.Data.List.Flatten

/-! # The reports of the library's events

`iaxc_callback` is called by the VoIP library with every event. One formatter for each type writes a
record into `rep_buf`, its fields behind tabs, and hands it to `report`.

* **`iaxcCallback`** — the dispatcher, with what it prints, reports and leaves behind.
* **`Decodes`** — a record is one line, and between its tabs stand the letter of the event and the
  values of its fields.
* **`callback_decodable_iff`** — an event gives one such record unless it is a `NETSTAT` event,
  whose branch runs into the next one, or has a tab or a line end in one of its texts.
* **`run_decodable`** — one record for each event of a run. -/

namespace Fgcom.Reports

open DecimalText Printf Record Strto

/-! ## Events -/

/-- An `int`. -/
abbrev CInt : Type := {z : ℤ // IntRange z}

/-- `IAXC_EVENT_BUFSIZ`. -/
def iaxcEventBufsiz : ℕ := 256

/-- A C string in one of the buffers of an event. -/
abbrev EventText : Type := {s : List Char // s.length < iaxcEventBufsiz ∧ '\x00' ∉ s}

/-- A `float`, passed on as the `double` of the same value. -/
abbrev Level : Type := {x : FloatValue // x.AtMost (2 ^ 128)}

/-- `struct iaxc_netstat`. -/
structure Netstat where
  jitter : CInt
  losspct : CInt
  losscnt : CInt
  packets : CInt
  delay : CInt
  dropped : CInt
  ooo : CInt
  deriving DecidableEq

/-- `IAXC_EVENT_TEXT`, `IAXC_EVENT_LEVELS`, `IAXC_EVENT_STATE`, `IAXC_EVENT_NETSTAT` and
`IAXC_EVENT_REGISTRATION`: the types with a handler. -/
def handledTypes : List ℤ := [1, 2, 3, 4, 7]

/-- `iaxc_event`: its type, with the member of the union that belongs to the type. -/
inductive IaxcEvent
  | levels (input output : Level)
  | text (type callNo : CInt) (message : EventText)
  | state (callNo state format : CInt) (remote remoteName localEnd localContext : EventText)
  | netstat (callNo rtt : CInt) (here there : Netstat)
  | registration (id reply msgcount : CInt)
  /-- Any other type; what is in the union is not looked at. -/
  | other (type : {t : CInt // t.val ∉ handledTypes})
  deriving DecidableEq

/-! ## The code -/

/-- What the callback works on: of the options `username` and `debug`; `last_state` and `connected`;
what has gone to the standard output; and the texts handed to `report`, in order. -/
structure Console where
  username : List Char
  debug : Bool
  lastState : ℤ
  connected : Bool
  stdout : List Char
  reports : List (List Char)
  deriving DecidableEq

/-- `std::cout << line << std::endl`. -/
def Console.printLine (line : List Char) (g : Console) : Console :=
  { g with stdout := g.stdout ++ line ++ ['\n'] }

/-- `MX_REPORT_BUF`. -/
def mxReportBuf : ℕ := 1024

/-- `delim`. -/
def delim : Char := '\t'

/-- The `char *` `map`, without the null pointer at its end. -/
def stateNames : List (List Char) :=
  ["unknown".toList, "active".toList, "outgoing".toList, "ringing".toList, "complete".toList,
    "selected".toList, "busy".toList, "transfer".toList]

/-- The loop of `map_state` over the rest of `map`, from the bit `i` on: `strcat` to `states`, with
a comma once `next` is set. -/
def mapStateLoop (state : ℤ) : List (List Char) → ℕ → Bool → List Char → List Char
  | [], _, _, states => states
  | name :: names, i, next, states =>
      if state.testBit i then
        mapStateLoop state names (i + 1) true ((if next then states ++ [','] else states) ++ name)
      else mapStateLoop state names (i + 1) next states

/-- `map_state`. -/
def mapState (state : ℤ) : List Char :=
  if state = 0 then "free".toList else mapStateLoop state stateNames 0 false []

/-- `report`. -/
def report (text : List Char) (g : Console) : Console :=
  let g := { g with reports := g.reports ++ [text] }
  if g.debug then g.printLine text else g

/-- `snprintf` of a record into `rep_buf`, and `report`. -/
def reportRecord (letter : Char) (fields : List (List Char)) (g : Console) : Console :=
  report ((record delim [letter] fields).take (mxReportBuf - 1)) g

/-- `%x` of an `int`. -/
def printUnsigned (z : ℤ) : List Char := printHex (z % 2 ^ 32).toNat

/-- `event_state`: `"S%c0x%x%c%s%c%.50s%c%.50s%c%.50s%c%.50s"`. -/
def eventState (state : CInt) (remote remoteName localEnd localContext : EventText) (g : Console) :
    Console :=
  let g := { g with lastState := state }
  let g := if state.val = 0 then { g with connected := false } else g
  reportRecord 'S'
    ["0x".toList ++ printUnsigned state, mapState state, remote.val.take 50,
      remoteName.val.take 50, localEnd.val.take 50, localContext.val.take 50] g

/-- `event_text`: `"T%c%d%c%.200s"`. The message is printed as it is. -/
def eventText (type : CInt) (message : EventText) (g : Console) : Console :=
  reportRecord 'T' [printInt type, message.val.take 200] (g.printLine message)

/-- The reason `event_register` reports: `IAXC_REGISTRATION_REPLY_ACK` is 18,
`IAXC_REGISTRATION_REPLY_REJ` 30 and `IAXC_REGISTRATION_REPLY_TIMEOUT` 6. -/
def registerReason (reply : ℤ) : List Char :=
  if reply = 18 then "accepted".toList
  else if reply = 30 then "denied".toList
  else if reply = 6 then "timeout".toList
  else "unknown".toList

/-- `event_register`: `"R%c%d%c%s%c%d"`. -/
def eventRegister (id reply count : CInt) (g : Console) : Console :=
  let g :=
    if reply.val = 30 ∧ g.username ≠ "guest".toList then g.printLine "Registering denied".toList
    else g
  reportRecord 'R' [printInt id, registerReason reply, printInt count] g

/-- The seven `%d` for one side of a call. -/
def printNetstat (stat : Netstat) : List (List Char) :=
  [printInt stat.jitter, printInt stat.losspct, printInt stat.losscnt, printInt stat.packets,
    printInt stat.delay, printInt stat.dropped, printInt stat.ooo]

/-- `event_netstats`: `"N"` and sixteen `"%c%d"`. -/
def eventNetstats (callNo rtt : CInt) (here there : Netstat) (g : Console) : Console :=
  reportRecord 'N'
    ([printInt callNo, printInt rtt] ++ printNetstat here ++ printNetstat there) g

/-- `event_level`: `"L%c%.1f%c%.1f"`. -/
def eventLevel (input output : Level) (g : Console) : Console :=
  reportRecord 'L' [printFixed 1 input, printFixed 1 output] g

/-- `event_unknown`: `"U%c%d"`. -/
def eventUnknown (type : CInt) (g : Console) : Console := reportRecord 'U' [printInt type] g

/-- `iaxc_callback`. -/
def iaxcCallback (g : Console) : IaxcEvent → Console
  | .levels input output => eventLevel input output g
  | .text type _ message => eventText type message g
  | .state _ state _ remote remoteName localEnd localContext =>
      eventState state remote remoteName localEnd localContext g
  | .netstat callNo rtt here there =>
      -- no `break`: the first three numbers of the union are taken for a registration
      eventRegister callNo rtt here.jitter (eventNetstats callNo rtt here there g)
  | .registration id reply msgcount => eventRegister id reply msgcount g
  | .other type => eventUnknown type g

/-! ## What a report should say -/

/-- A value of an event, the way its handler reports it. -/
inductive Field
  /-- `%d`. -/
  | int (z : CInt)
  /-- `0x%x`. -/
  | unsigned (z : CInt)
  /-- The names of the bits that are set. -/
  | states (z : CInt)
  /-- `%.ns`. -/
  | string (precision : ℕ) (s : EventText)
  /-- The kind of the reply. -/
  | reason (reply : CInt)
  /-- `%.1f`. -/
  | level (x : Level)
  deriving DecidableEq

/-- What `%.1f` keeps of a number: a finite value to half a tenth, and an infinity. -/
def Level.ReadAs (x : Level) (y : Numeral) : Prop :=
  match x.val, y with
  | .finite neg magnitude, .finite q => |q - signed neg magnitude| ≤ 1 / 20
  | .inf neg, .infinite neg' => neg' = neg
  | .nan _, .nan => True
  | _, _ => False

/-- A text gives back a value: a number reads as the number, the bit pattern of an `int` as the
`int`; a string stands for itself up to its precision. -/
def Field.Shows : Field → List Char → Prop
  | .int z, text => Denotes text z
  | .unsigned z, text => ∃ v, Denotes text v ∧ v.bmod (2 ^ 32) = z
  | .states z, text =>
      if z.val = 0 then text = "free".toList
      else ∀ i (h : i < stateNames.length), stateNames[i] ∈ text.splitOn ',' ↔ z.val.testBit i
  | .string precision s, text => text = s.val.take precision
  | .reason reply, text =>
      (text = "accepted".toList ↔ reply.val = 18) ∧ (text = "denied".toList ↔ reply.val = 30) ∧
        (text = "timeout".toList ↔ reply.val = 6)
  | .level x, text => ∃ y, IsFloat text y ∧ x.ReadAs y

/-- The letter of an event. -/
def IaxcEvent.letter : IaxcEvent → Char
  | .levels .. => 'L'
  | .text .. => 'T'
  | .state .. => 'S'
  | .netstat .. => 'N'
  | .registration .. => 'R'
  | .other _ => 'U'

/-- The values of one side of a call. -/
def Netstat.fields (stat : Netstat) : List Field :=
  [.int stat.jitter, .int stat.losspct, .int stat.losscnt, .int stat.packets, .int stat.delay,
    .int stat.dropped, .int stat.ooo]

/-- The values the handler of an event is given. -/
def IaxcEvent.fields : IaxcEvent → List Field
  | .levels input output => [.level input, .level output]
  | .text type _ message => [.int type, .string 200 message]
  | .state _ bits _ remote remoteName localEnd localContext =>
      [.unsigned bits, .states bits, .string 50 remote, .string 50 remoteName,
        .string 50 localEnd, .string 50 localContext]
  | .netstat callNo rtt here there => [.int callNo, .int rtt] ++ here.fields ++ there.fields
  | .registration id reply msgcount => [.int id, .reason reply, .int msgcount]
  | .other type => [.int type]

/-- **A record is decodable as an event**: it is one line, and between its tabs stand the letter of
the event and the values of its fields. -/
def Decodes (e : IaxcEvent) (r : List Char) : Prop :=
  '\n' ∉ r ∧
    ∃ texts, r.splitOn delim = [e.letter] :: texts ∧ List.Forall₂ Field.Shows e.fields texts

/-- The callback reports exactly one record for an event, decodable as this event. -/
def Decodable (g : Console) (e : IaxcEvent) : Prop :=
  ∃ r, (iaxcCallback g e).reports = g.reports ++ [r] ∧ Decodes e r

/-- A text on one line that does not shift the fields. -/
def Plain (s : List Char) : Prop := delim ∉ s ∧ '\n' ∉ s

instance (s : List Char) : Decidable (Plain s) := inferInstanceAs (Decidable (_ ∧ _))

/-- The events that come through: not `NETSTAT`, and plain as far as their texts are printed. -/
def IaxcEvent.Readable : IaxcEvent → Prop
  | .netstat .. => False
  | .text _ _ message => Plain (message.val.take 200)
  | .state _ _ _ remote remoteName localEnd localContext =>
      Plain (remote.val.take 50) ∧ Plain (remoteName.val.take 50) ∧ Plain (localEnd.val.take 50) ∧
        Plain (localContext.val.take 50)
  | .levels .. | .registration .. | .other _ => True

/-! ## What the formatters print -/

/-- The text of a value. -/
def Field.print : Field → List Char
  | .int z => printInt z
  | .unsigned z => "0x".toList ++ printUnsigned z
  | .states z => mapState z
  | .string precision s => s.val.take precision
  | .reason reply => registerReason reply
  | .level x => printFixed 1 x

/-- The most characters the text of a value takes. -/
def Field.width : Field → ℕ
  | .int _ => 11
  | .unsigned _ => 10
  | .states _ => 64
  | .string precision _ => precision
  | .reason _ => 8
  | .level _ => 42

theorem plain_iff {s : List Char} : Plain s ↔ ∀ c ∈ s, c ≠ delim ∧ c ≠ '\n' :=
  ⟨fun h _ hc => ⟨fun heq => h.1 (heq ▸ hc), fun heq => h.2 (heq ▸ hc)⟩,
    fun h => ⟨fun hc => (h _ hc).1 rfl, fun hc => (h _ hc).2 rfl⟩⟩

/-- A digit is neither a tab nor a line end. -/
theorem plain_of_isDigit {c : Char} (hc : c.isDigit = true) : c ≠ delim ∧ c ≠ '\n' := by
  constructor <;> rintro rfl <;> exact absurd hc (by decide)

/-! ### The states of a call -/

/-- What the rest of the loop appends to the names found so far. -/
def joinStates : Bool → List (List Char) → List Char
  | true, names => record ',' [] names
  | false, [] => []
  | false, name :: names => record ',' name names

/-- The names of the bits that are set, from the bit `i` on. -/
def setNames (state : ℤ) (names : List (List Char)) (i : ℕ) : List (List Char) :=
  ((names.zipIdx i).filter fun x => state.testBit x.2).map Prod.fst

/-- The loop appends the names of the bits that are set. -/
theorem mapStateLoop_eq (state : ℤ) (names : List (List Char)) (i : ℕ) (next : Bool)
    (states : List Char) :
    mapStateLoop state names i next states
      = states ++ joinStates next (setNames state names i) := by
  induction names generalizing i next states with
  | nil => cases next <;> exact (List.append_nil states).symm
  | cons name names ih =>
      have hset : setNames state (name :: names) i
          = if state.testBit i then name :: setNames state names (i + 1)
            else setNames state names (i + 1) := by
        unfold setNames
        rw [List.zipIdx_cons, List.filter_cons]
        split <;> rfl
      rw [mapStateLoop, hset]
      split
      · rw [ih]
        cases next <;> simp [joinStates, record]
      · exact ih _ _ _

/-- A name is written exactly if its bit is set. -/
theorem mem_setNames_iff {state : ℤ} {names : List (List Char)} (hnames : names.Nodup) {i : ℕ}
    (hi : i < names.length) : names[i] ∈ setNames state names 0 ↔ state.testBit i := by
  unfold setNames
  rw [List.mem_map]
  constructor
  · rintro ⟨⟨name, j⟩, hmem, hname⟩
    obtain ⟨hzip, hbit⟩ := List.mem_filter.mp hmem
    obtain rfl : name = names[i] := hname
    have hj := List.mem_zipIdx_iff_getElem?.mp hzip
    obtain rfl : j = i := (List.getElem?_inj (List.getElem?_eq_some_iff.mp hj).1 hnames).mp
      (hj.trans (List.getElem?_eq_getElem hi).symm)
    exact hbit
  · intro hbit
    exact ⟨(names[i], i), List.mem_filter.mpr
      ⟨List.mem_zipIdx_iff_getElem?.mpr (List.getElem?_eq_getElem hi), hbit⟩, rfl⟩

/-- The names written stand in `map` in this order. -/
theorem setNames_sublist (state : ℤ) (names : List (List Char)) (i : ℕ) :
    (setNames state names i).Sublist names := by
  have hsub := (List.filter_sublist (l := names.zipIdx i) (p := fun x => state.testBit x.2)).map
    Prod.fst
  rwa [List.zipIdx_map_fst] at hsub

/-- **The names are read back from the states.** -/
theorem shows_mapState (z : CInt) : (Field.states z).Shows (mapState z) := by
  have hcomma : ∀ name ∈ stateNames, ',' ∉ name := by decide
  have hempty : ∀ name ∈ stateNames, name ≠ [] := by decide
  show if _ then _ else _
  unfold mapState
  split
  · rfl
  · intro i hi
    rw [mapStateLoop_eq, List.nil_append, ← mem_setNames_iff (by decide) hi]
    cases hset : setNames z.val stateNames 0 with
    | nil =>
        have hne := hempty _ (List.getElem_mem hi)
        simp [joinStates, hne]
    | cons name names =>
        have hsub : ∀ n ∈ name :: names, ',' ∉ n := fun n hn =>
          hcomma n ((setNames_sublist z stateNames 0).subset (hset ▸ hn))
        rw [joinStates, splitOn_record_of_notMem (hsub name List.mem_cons_self)
          fun n hn => hsub n (List.mem_cons_of_mem name hn)]

/-- The states are part of the list of all names. -/
theorem mapState_sublist {state : ℤ} (hstate : state ≠ 0) :
    (mapState state).Sublist (record ',' [] stateNames) := by
  have hall : (record ',' [] (setNames state stateNames 0)).Sublist (record ',' [] stateNames) :=
    (setNames_sublist state stateNames 0).flatMap _
  rw [mapState, if_neg hstate, mapStateLoop_eq, List.nil_append]
  refine List.Sublist.trans ?_ hall
  cases setNames state stateNames 0 with
  | nil => exact List.nil_sublist _
  | cons name names => exact List.sublist_cons_self ',' _

/-! ### The texts of the values -/

/-- **Every text gives back its value.** -/
theorem shows_print (f : Field) : f.Shows f.print := by
  cases f with
  | int z => exact denotes_printInt z
  | unsigned z =>
      have hread : Denotes ("0x".toList ++ printUnsigned z) (z.val % 2 ^ 32).toNat :=
        denotes_printHex _
      refine ⟨_, hread, ?_⟩
      have hbits : (z.val % (2 ^ 32 : ℕ)).bmod (2 ^ 32) = z := by
        rw [Int.emod_bmod, bmod_eq_self_iff.mpr z.property]
      rw [Int.toNat_of_nonneg (Int.emod_nonneg _ (by decide))]
      exact hbits
  | states z => exact shows_mapState z
  | string precision s => rfl
  | reason reply =>
      show (registerReason reply = _ ↔ _) ∧ (registerReason reply = _ ↔ _) ∧
        (registerReason reply = _ ↔ _)
      unfold registerReason
      split_ifs <;> simp_all
  | level x =>
      obtain ⟨x, hx⟩ := x
      cases x with
      | finite neg magnitude =>
          obtain ⟨q, hq, hle⟩ := isFloat_printFixed Nat.one_pos neg magnitude
          refine ⟨.finite q, hq, hle.trans_eq (by norm_num)⟩
      | inf neg => exact ⟨.infinite neg, isFloat_printFixed_inf 1 neg, rfl⟩
      | nan neg => exact ⟨.nan, isFloat_printFixed_nan 1 neg, trivial⟩

/-- Only a string can hold a tab or a line end. -/
theorem plain_print {f : Field} (hf : ∀ precision s, f ≠ .string precision s) : Plain f.print := by
  cases f with
  | int z =>
      refine plain_iff.mpr fun c hc => ?_
      rcases isDigit_or_of_mem_printInt hc with hdigit | rfl
      · exact plain_of_isDigit hdigit
      · decide
  | unsigned z =>
      have hprefix : Plain "0x".toList := by decide
      exact plain_iff.mpr (List.forall_mem_append.mpr
        ⟨plain_iff.mp hprefix, forall_mem_toDigits (by decide) (by decide) _⟩)
  | states z =>
      by_cases hz : z.val = 0
      · rw [Field.print, mapState, if_pos hz]
        decide
      · have hall : Plain (record ',' [] stateNames) := by decide
        exact plain_iff.mpr fun c hc => plain_iff.mp hall c ((mapState_sublist hz).subset hc)
  | string precision s => exact absurd rfl (hf precision s)
  | reason reply =>
      show Plain (registerReason reply)
      unfold registerReason
      split_ifs <;> decide
  | level x =>
      have hother : Plain "-.infa".toList := by decide
      exact plain_iff.mpr
        (forall_mem_printFixed (fun c => plain_of_isDigit) (plain_iff.mp hother) x.val)

/-- The text of a value is no longer than its width. -/
theorem length_print_le (f : Field) : f.print.length ≤ f.width := by
  cases f with
  | int z => exact length_printInt_le z.property.1 z.property.2
  | unsigned z =>
      have hlt : (z.val % 2 ^ 32).toNat < 16 ^ 8 := by omega
      have hlen := (Nat.length_toDigits_le_iff (by decide : 1 < 16) (by decide : 0 < 8)).mpr hlt
      rw [Field.print, List.length_append]
      exact Nat.add_le_add_left hlen 2
  | states z =>
      by_cases hz : z.val = 0
      · rw [Field.print, mapState, if_pos hz]
        show 4 ≤ 64
        decide
      · exact (mapState_sublist hz).length_le
  | string precision s => exact List.length_take_le _ _
  | reason reply =>
      show (registerReason reply).length ≤ 8
      unfold registerReason
      split_ifs <;> decide
  | level x =>
      have hdigits : 2 ^ 128 < 10 ^ 39 := by decide
      exact length_printFixed_le Nat.one_pos (by decide) hdigits x.property

/-! ## What is reported -/

/-- The record of an event. -/
def recordOf (e : IaxcEvent) : List Char := record delim [e.letter] (e.fields.map Field.print)

/-- What an event gives to `report`: its record, and behind that of a `NETSTAT` event the record of
the registration that its first three numbers make. -/
def reportedBy : IaxcEvent → List (List Char)
  | .netstat callNo rtt here there =>
      [recordOf (.netstat callNo rtt here there), recordOf (.registration callNo rtt here.jitter)]
  | e => [recordOf e]

/-- The record of an event fits the buffer. -/
theorem length_recordOf_le (e : IaxcEvent) : (recordOf e).length ≤ mxReportBuf - 1 := by
  have hsum : ((e.fields.map Field.print).map fun text => text.length + 1).sum
      ≤ (e.fields.map fun f => f.width + 1).sum := by
    rw [List.map_map]
    exact List.sum_le_sum fun f _ => Nat.add_le_add_right (length_print_le f) 1
  have hwidth : (e.fields.map fun f => f.width + 1).sum ≤ 308 := by
    cases e <;> simp [IaxcEvent.fields, Netstat.fields, Field.width]
  rw [recordOf, length_record]
  exact (Nat.add_le_add_left (hsum.trans hwidth) 1).trans (by decide)

section Reported

variable (g : Console)

@[simp] theorem reports_printLine (line : List Char) : (g.printLine line).reports = g.reports := rfl

/-- `report` takes the text as it is, and leaves the texts before it. -/
@[simp] theorem reports_report (text : List Char) :
    (report text g).reports = g.reports ++ [text] := by
  unfold report
  simp only
  split <;> rfl

/-- The record of an event is printed whole. -/
theorem reports_reportRecord (e : IaxcEvent) :
    (reportRecord e.letter (e.fields.map Field.print) g).reports = g.reports ++ [recordOf e] := by
  rw [reportRecord, reports_report]
  exact congrArg (fun r => g.reports ++ [r]) (List.take_of_length_le (length_recordOf_le e))

/-- `event_register` reports one record, whatever else it prints. -/
theorem reports_eventRegister (id reply count : CInt) :
    (eventRegister id reply count g).reports
      = g.reports ++ [recordOf (.registration id reply count)] := by
  refine (reports_reportRecord _ (.registration id reply count)).trans ?_
  split <;> rfl

/-- **What the callback reports**, event by event. -/
theorem reports_iaxcCallback (e : IaxcEvent) :
    (iaxcCallback g e).reports = g.reports ++ reportedBy e := by
  cases e with
  | levels input output => exact reports_reportRecord g (.levels input output)
  | text type callNo message => exact reports_reportRecord _ (.text type callNo message)
  | state callNo state format remote remoteName localEnd localContext =>
      refine (reports_reportRecord _
        (.state callNo state format remote remoteName localEnd localContext)).trans ?_
      split <;> rfl
  | netstat callNo rtt here there =>
      refine (reports_eventRegister _ callNo rtt here.jitter).trans ?_
      have hnetstat : (eventNetstats callNo rtt here there g).reports = _ :=
        reports_reportRecord g (.netstat callNo rtt here there)
      rw [hnetstat, List.append_assoc]
      rfl
  | registration id reply msgcount => exact reports_eventRegister g id reply msgcount
  | other type => exact reports_reportRecord g (.other type)

end Reported

/-! ## Which events come through -/

/-- A record decodes exactly if all its texts are plain. -/
theorem decodes_recordOf_iff (e : IaxcEvent) :
    Decodes e (recordOf e) ↔ ∀ f ∈ e.fields, Plain f.print := by
  have hletter : delim ∉ [e.letter] ∧ '\n' ∉ [e.letter] := by
    have hupper : e.letter.isUpper = true := by cases e <;> rfl
    rw [List.mem_singleton, List.mem_singleton]
    constructor <;> intro heq <;> rw [← heq] at hupper <;> exact absurd hupper (by decide)
  constructor
  · rintro ⟨hline, texts, hsplit, hshows⟩ f hf
    have hlen : ((recordOf e).splitOn delim).length = (e.fields.map Field.print).length + 1 := by
      rw [hsplit, List.length_cons, List.length_map, hshows.length_eq]
    have htext := List.mem_map_of_mem (f := Field.print) hf
    refine ⟨(length_splitOn_record_iff hletter.1).mp hlen _ htext, fun hmem => hline ?_⟩
    exact List.mem_append_right _
      (List.mem_flatMap.mpr ⟨f.print, htext, List.mem_cons_of_mem delim hmem⟩)
  · intro hplain
    have hplain' : ∀ text ∈ e.fields.map Field.print, Plain text := by
      rw [List.forall_mem_map]
      exact hplain
    refine ⟨?_, e.fields.map Field.print,
      splitOn_record_of_notMem hletter.1 fun text htext => (hplain' text htext).1, ?_⟩
    · intro hmem
      rcases List.mem_append.mp hmem with hmem | hmem
      · exact hletter.2 hmem
      · obtain ⟨text, htext, hmem⟩ := List.mem_flatMap.mp hmem
        rcases List.mem_cons.mp hmem with heq | hmem
        · exact absurd heq (by decide)
        · exact (hplain' text htext).2 hmem
    · rw [List.forall₂_map_right_iff]
      exact List.forall₂_same.mpr fun f _ => shows_print f

/-- Only the strings have to be looked at. -/
theorem plain_print_iff (f : Field) :
    Plain f.print ↔
      match f with
      | .string precision s => Plain (s.val.take precision)
      | _ => True := by
  cases f with
  | string precision s => exact Iff.rfl
  | _ => exact iff_of_true (plain_print fun _ _ => Field.noConfusion) trivial

/-- The events that come through report one record, with plain texts. -/
theorem readable_iff (e : IaxcEvent) :
    e.Readable ↔ reportedBy e = [recordOf e] ∧ ∀ f ∈ e.fields, Plain f.print := by
  simp only [plain_print_iff]
  cases e <;> simp [IaxcEvent.Readable, IaxcEvent.fields, reportedBy]

variable (g : Console)

/-- **Which events give one decodable record**: all but `NETSTAT`, whose branch runs into that of a
registration, as long as their texts have no tab and no line end in the part that is printed. -/
theorem callback_decodable_iff (e : IaxcEvent) : Decodable g e ↔ e.Readable := by
  rw [readable_iff, ← decodes_recordOf_iff]
  unfold Decodable
  rw [reports_iaxcCallback]
  constructor
  · rintro ⟨r, hr, hdecodes⟩
    have hone : reportedBy e = [r] := List.append_cancel_left hr
    have hown : reportedBy e = [recordOf e] := by
      cases e with
      | netstat => exact absurd (congrArg List.length hone) (Nat.succ_ne_self 1)
      | _ => rfl
    obtain rfl : r = recordOf e := by rw [hone] at hown; exact List.singleton_inj.mp hown
    exact ⟨hown, hdecodes⟩
  · rintro ⟨hone, hdecodes⟩
    exact ⟨recordOf e, by rw [hone], hdecodes⟩

/-- A silent client under the account of a guest. -/
def guestConsole : Console where
  username := "guest".toList
  debug := false
  lastState := 0
  connected := false
  stdout := []
  reports := []

/-- Network statistics of a call that has just been set up. -/
def zeroNetstat : IaxcEvent :=
  let zero : CInt := ⟨0, by decide⟩
  let stat : Netstat := ⟨zero, zero, zero, zero, zero, zero, zero⟩
  .netstat zero zero stat stat

/-- A text message with a record of its own in the second line. -/
def forgedText : IaxcEvent :=
  .text ⟨1, by decide⟩ ⟨0, by decide⟩ ⟨"hi\nR\t1\taccepted\t0".toList, by decide⟩

/-- Network statistics give a second record, of a registration nobody made; a text message gives a
line of its own, or pieces more than it has fields. -/
theorem callback_not_decodable :
    ((iaxcCallback guestConsole zeroNetstat).reports
        = [("N" ++ String.join (List.replicate 16 "\t0")).toList, "R\t0\tunknown\t0".toList] ∧
      ¬ Decodable guestConsole zeroNetstat) ∧
    (iaxcCallback guestConsole forgedText).reports
        = ["T\t1\thi\nR\t1\taccepted\t0".toList] ∧
      ¬ Decodable guestConsole forgedText := by
  have hnetstat : (iaxcCallback guestConsole zeroNetstat).reports
      = [("N" ++ String.join (List.replicate 16 "\t0")).toList, "R\t0\tunknown\t0".toList] := by
    decide
  have htext : (iaxcCallback guestConsole forgedText).reports
      = ["T\t1\thi\nR\t1\taccepted\t0".toList] := by decide
  refine ⟨⟨hnetstat, ?_⟩, htext, ?_⟩
  · rintro ⟨r, hr, -⟩
    rw [hnetstat] at hr
    exact absurd (congrArg List.length hr) (Nat.succ_ne_self 1)
  · rintro ⟨r, hr, hline, -⟩
    rw [htext] at hr
    obtain rfl := List.singleton_inj.mp hr
    exact hline (by decide)

/-! ## Runs, and the client -/

/-- **What a run reports**: the records of its events, in order. -/
theorem reports_foldl (es : List IaxcEvent) :
    (es.foldl iaxcCallback g).reports = g.reports ++ es.flatMap reportedBy := by
  induction es generalizing g with
  | nil => exact (List.append_nil _).symm
  | cons e es ih =>
      rw [List.foldl_cons, ih, reports_iaxcCallback, List.flatMap_cons, List.append_assoc]

/-- **A run of events that come through**: one record each, decodable as the event it is for. -/
theorem run_decodable {es : List IaxcEvent} (h : ∀ e ∈ es, e.Readable) :
    ∃ rs, (es.foldl iaxcCallback g).reports = g.reports ++ rs ∧ List.Forall₂ Decodes es rs := by
  refine ⟨es.flatMap reportedBy, reports_foldl g es, ?_⟩
  induction es with
  | nil => exact .nil
  | cons e es ih =>
      obtain ⟨hone, hplain⟩ := (readable_iff e).mp (h e List.mem_cons_self)
      rw [List.flatMap_cons, hone]
      exact .cons ((decodes_recordOf_iff e).mpr hplain)
        (ih fun e' he' => h e' (List.mem_cons_of_mem e he'))

section Client

variable {R : Type}

/-- What an event does to the client: `eventState` for a state of a call. -/
def onClient : IaxcEvent → Client R → Client R
  | .state _ bits .. => Fgcom.eventState bits
  | _ => id

@[simp] theorem connected_report (text : List Char) :
    (report text g).connected = g.connected := by
  unfold report
  simp only
  split <;> rfl

/-- **The flag `connected`** goes with the one of the client, event by event. -/
theorem connected_iaxcCallback {s : Client R} (h : g.connected = s.connected) (e : IaxcEvent) :
    (iaxcCallback g e).connected = (onClient e s).connected := by
  have hregister : ∀ (id reply count : CInt) (g : Console),
      (eventRegister id reply count g).connected = g.connected := by
    intro id reply count g
    refine (connected_report _ _).trans ?_
    split <;> rfl
  cases e with
  | state callNo bits format remote remoteName localEnd localContext =>
      refine (connected_report _ _).trans ?_
      show _ = (Fgcom.eventState bits.val s).connected
      unfold Fgcom.eventState
      by_cases hfree : bits.val = 0
      · rw [if_pos hfree, if_pos hfree]
      · rw [if_neg hfree, if_neg hfree]
        exact h
  | netstat callNo rtt here there =>
      exact (hregister _ _ _ _).trans ((connected_report g _).trans h)
  | registration id reply msgcount => exact (hregister id reply msgcount g).trans h
  | levels input output => exact (connected_report g _).trans h
  | text type callNo message => exact (connected_report _ _).trans h
  | other type => exact (connected_report g _).trans h

end Client

end Fgcom.Reports
