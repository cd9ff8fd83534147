/-
# What the limits of a request bound

`parse` tests two limits.  The size test counts the bytes that are buffered at
the moment, and lines that have been taken are no longer buffered.  The count
test counts the names under which header lines are stored, and a repeated name
is stored once.  Here the loop keeps a tally of what it has taken for a request,
so that the tests can be compared with what they are meant to bound.
-/

import EpollHttpServer.Http.Framing
import EpollHttpServer.Http.Rounds
import EpollHttpServer.Lib.Machine

namespace EpollHttpServer.Http

open EpollHttpServer.Lib

/-- A request with the bytes and the header lines that have been taken for it. -/
structure Tally where
  request : HttpRequest
  consumed : ℕ
  headerLines : ℕ

namespace Tally

open HttpRequest

def fresh : Tally where
  request := .fresh
  consumed := 0
  headerLines := 0

/-- The tally when the request has become `r'`. -/
def advance (t : Tally) (r' : HttpRequest) : Tally where
  request := r'
  consumed := t.consumed + (t.request.buf.length - r'.buf.length)
  headerLines := t.headerLines

/-- The tally after an accepted line: it was a header line if the parser
expected headers before it and still does. -/
def acceptLine (t : Tally) (r' : HttpRequest) : Tally :=
  { t.advance r' with
    headerLines :=
      if t.request.state = .kExpectHeaders ∧ r'.state = .kExpectHeaders then t.headerLines + 1
      else t.headerLines }

/-- One round of the loop in `parse`, with its tally. -/
def pass (t : Tally) : Pass Tally (Bool × Tally) :=
  match t.request.pass with
  | .again r' => .again (t.acceptLine r')
  | .done (verdict, r') => .done (verdict, t.advance r')

theorem pass_cases (t : Tally) :
    (∃ r', t.request.pass = .again r' ∧ t.pass = .again (t.acceptLine r')) ∨
      ∃ verdict r', t.request.pass = .done (verdict, r') ∧
        t.pass = .done (verdict, t.advance r') := by
  cases hpass : t.request.pass with
  | again r' => exact .inl ⟨r', rfl, by rw [pass, hpass]⟩
  | done result =>
      obtain ⟨verdict, r'⟩ := result
      exact .inr ⟨verdict, r', rfl, by rw [pass, hpass]⟩

theorem pass_again {t t' : Tally} (hpass : t.pass = .again t') :
    ∃ r', t.request.pass = .again r' ∧ t' = t.acceptLine r' := by
  obtain ⟨r', hround, htally⟩ | ⟨verdict, r', hround, htally⟩ := t.pass_cases
  · rw [htally] at hpass
    cases hpass
    exact ⟨r', hround, rfl⟩
  · rw [htally] at hpass
    cases hpass

theorem pass_done {t : Tally} {result : Bool × Tally} (hpass : t.pass = .done result) :
    ∃ verdict r', t.request.pass = .done (verdict, r') ∧ result = (verdict, t.advance r') := by
  obtain ⟨r', hround, htally⟩ | ⟨verdict, r', hround, htally⟩ := t.pass_cases
  · rw [htally] at hpass
    cases hpass
  · rw [htally] at hpass
    cases hpass
    exact ⟨verdict, r', hround, rfl⟩

def loop : Loop Tally (Bool × Tally) where
  pass := pass
  variant t := t.request.buf.length
  decreases := by
    intro t t' hpass
    obtain ⟨r', hround, rfl⟩ := pass_again hpass
    exact pass_decreases hround

def push (t : Tally) (data : Bytes) : Tally :=
  { t with request := t.request.push data }

/-- `parse`, with its tally. -/
def parse (t : Tally) (data : Bytes) : Bool × Tally :=
  if kMaxRequestSize < t.request.buf.length + data.length then (false, t)
  else loop.run (t.push data)

/-- The tally does not change what the parser does. -/
theorem parse_request (t : Tally) (data : Bytes) :
    t.request.parse data = ((t.parse data).1, (t.parse data).2.request) := by
  by_cases hsize : kMaxRequestSize < t.request.buf.length + data.length
  · rw [parse_of_too_large hsize, parse, if_pos hsize]
  · rw [parse, if_neg hsize, parse_eq_feed (not_lt.mp hsize)]
    apply Loop.run_related (L := parser.toLoop) (K := loop) (R := fun r t => r = t.request)
      (Q := fun result result' => result = (result'.1, result'.2.request))
    · intro r t hsame
      subst hsame
      obtain ⟨r', hround, htally⟩ | ⟨verdict, r', hround, htally⟩ := t.pass_cases
      · show Pass.Related _ _ t.request.pass t.pass
        rw [hround, htally]
        rfl
      · show Pass.Related _ _ t.request.pass t.pass
        rw [hround, htally]
        rfl
    · rfl

end Tally

/-! ## What has been given -/

/-- The header lines at the front of a stream, as far as they are complete. -/
def givenLines (s : Bytes) : List Bytes :=
  (behindLine s).elim [] headLines

/-- The bytes of the request, or all bytes as long as it is not complete, fit
the size limit. -/
def SizeFits (s : Bytes) : Prop :=
  s.length ≤ kMaxRequestSize ∨
    ∃ (m : RequestText) (rest : Bytes), s = m.bytes ++ rest ∧ m.bytes.length ≤ kMaxRequestSize

/-- There are no more header lines than the count limit, or none of them repeats
a name. -/
def CountFits (s : Bytes) : Prop :=
  (givenLines s).length ≤ kMaxHeaderCount ∨ ((givenLines s).map headerName).Nodup

/-- Whether the request at the front of a stream fits can be computed. -/
theorem exists_text_iff (s : Bytes) (size : ℕ) :
    (∃ (m : RequestText) (rest : Bytes), s = m.bytes ++ rest ∧ m.bytes.length ≤ size) ↔
      (HttpRequest.parser.run (HttpRequest.fresh.push s)).1 = true ∧
        (HttpRequest.parser.run (HttpRequest.fresh.push s)).2.gotAll = true ∧
        s.length ≤ size + (HttpRequest.parser.run (HttpRequest.fresh.push s)).2.buf.length := by
  constructor
  · rintro ⟨m, rest, rfl, hsize⟩
    rw [HttpRequest.run_ofText, List.length_append]
    exact ⟨rfl, rfl, Nat.add_le_add_right hsize _⟩
  · rintro ⟨haccepts, hgot, hsize⟩
    obtain ⟨m, rest, rfl⟩ := HttpRequest.exists_text haccepts hgot
    rw [HttpRequest.run_ofText, List.length_append] at hsize
    exact ⟨m, rest, rfl, Nat.le_of_add_le_add_right hsize⟩

instance : DecidablePred SizeFits := fun s =>
  let _ := decidable_of_iff _ (exists_text_iff s kMaxRequestSize).symm
  inferInstanceAs (Decidable (_ ∨ _))

instance : DecidablePred CountFits := fun _ => inferInstanceAs (Decidable (_ ∨ _))

/-! ## What has been read -/

/-- Complete lines are the first lines of a head, whatever comes behind them. -/
theorem prefix_headLines {lines : List Bytes}
    (hlines : ∀ line ∈ lines, line ≠ [] ∧ ¬ crlf <:+: line) (rest : Bytes) :
    lines <+: headLines (RequestText.linesBytes lines ++ rest) := by
  induction lines with
  | nil => exact List.nil_prefix
  | cons line lines ih =>
      obtain ⟨hne, honeLine⟩ := hlines line (List.mem_cons_self ..)
      obtain ⟨hpos, hline, hrest⟩ := HttpRequest.split_complete_line honeLine
        (RequestText.linesBytes lines ++ rest)
      rw [RequestText.linesBytes_cons, List.append_assoc, List.append_assoc,
        headLines_of_find hpos, hline, if_neg hne, hrest, List.cons_prefix_cons]
      exact ⟨rfl, ih fun other hmem => hlines other (List.mem_cons_of_mem line hmem)⟩

/-- The tally has taken this request line and these header lines. -/
structure LinesTaken (t : Tally) (line : Bytes) (lines : List Bytes) : Prop where
  oneLine : ¬ crlf <:+: line
  headerLines : ∀ other ∈ lines, other ≠ [] ∧ ¬ crlf <:+: other
  names : t.request.headers.keys.toFinset = (lines.map headerName).toFinset
  few : HeaderMap.size t.request.headers ≤ kMaxHeaderCount
  number : t.headerLines = lines.length

/-- How far into the bytes `given` for a request the parser has read. -/
inductive HeadRead (given : Bytes) (t : Tally) : Prop where
  | start (hstate : t.request.state = .kExpectRequestLine) (hbuf : t.request.buf = given)
      (hheaders : t.request.headers = ∅) (hnumber : t.headerLines = 0)
  | lines (line : Bytes) (lines : List Bytes) (rest : Bytes)
      (hstate : t.request.state ≠ .kExpectRequestLine)
      (hgiven : given = line ++ (crlf ++ (RequestText.linesBytes lines ++ rest)))
      (hbuf : t.request.state = .kExpectHeaders → t.request.buf = rest)
      (htaken : LinesTaken t line lines)

namespace HeadRead

open HttpRequest

variable {given : Bytes} {t : Tally}

theorem of_start (hread : HeadRead given t) (hstate : t.request.state = .kExpectRequestLine) :
    t.request.buf = given ∧ t.request.headers = ∅ ∧ t.headerLines = 0 := by
  cases hread with
  | start _ hbuf hheaders hnumber => exact ⟨hbuf, hheaders, hnumber⟩
  | lines _ _ _ hbehind => exact absurd hstate hbehind

theorem of_headers (hread : HeadRead given t) (hstate : t.request.state = .kExpectHeaders) :
    ∃ line lines,
      given = line ++ (crlf ++ (RequestText.linesBytes lines ++ t.request.buf)) ∧
        LinesTaken t line lines := by
  cases hread with
  | start hstart =>
      rw [hstate] at hstart
      cases hstart
  | lines line lines rest _ hgiven hbuf htaken =>
      exact ⟨line, lines, hbuf hstate ▸ hgiven, htaken⟩

theorem push (hread : HeadRead given t) (piece : Bytes) :
    HeadRead (given ++ piece) (t.push piece) := by
  cases hread with
  | start hstate hbuf hheaders hnumber =>
      exact .start hstate (congrArg (· ++ piece) hbuf) hheaders hnumber
  | lines line lines rest hstate hgiven hbuf htaken =>
      apply HeadRead.lines line lines (rest ++ piece)
      · exact hstate
      · rw [hgiven]
        simp only [List.append_assoc]
      · intro hheaders
        exact congrArg (· ++ piece) (hbuf hheaders)
      · exact ⟨htaken.oneLine, htaken.headerLines, htaken.names, htaken.few, htaken.number⟩

theorem requestLine (hread : HeadRead given t) {line rest : Bytes}
    (hstate : t.request.state = .kExpectRequestLine)
    (hbuf : t.request.buf = line ++ (crlf ++ rest)) (hline : IsRequestLine line) :
    HeadRead given (t.acceptLine
      { t.request.storeRequestLine line with buf := rest, state := .kExpectHeaders }) := by
  obtain ⟨hgiven, hheaders, hnumber⟩ := hread.of_start hstate
  have hnames : (t.request.storeRequestLine line).headers = ∅ := hheaders
  apply HeadRead.lines line [] rest State.noConfusion (hgiven.symm.trans hbuf) fun _ => rfl
  constructor
  · exact hline.oneLine
  · intro other hmem
    cases hmem
  · show (t.request.storeRequestLine line).headers.keys.toFinset = _
    rw [hnames]
    rfl
  · show HeaderMap.size (t.request.storeRequestLine line).headers ≤ _
    rw [hnames]
    exact Nat.zero_le _
  · simp [Tally.acceptLine, hstate, hnumber]

theorem headerLine (hread : HeadRead given t) {line rest : Bytes}
    (hstate : t.request.state = .kExpectHeaders)
    (hbuf : t.request.buf = line ++ (crlf ++ rest)) (hvalid : IsHeaderLine line)
    (hcount : HeaderMap.size (t.request.storeHeader line).headers ≤ kMaxHeaderCount) :
    HeadRead given (t.acceptLine { t.request.storeHeader line with buf := rest }) := by
  obtain ⟨first, lines, hgiven, htaken⟩ := hread.of_headers hstate
  have hstays : (t.request.storeHeader line).state = .kExpectHeaders := hstate
  apply HeadRead.lines first (lines ++ [line]) rest
  · show (t.request.storeHeader line).state ≠ _
    rw [hstays]
    exact State.noConfusion
  · rw [hgiven, hbuf]
    simp [RequestText.linesBytes]
  · intro _
    rfl
  · constructor
    · exact htaken.oneLine
    · intro other hmem
      rcases List.mem_append.mp hmem with hearlier | hlast
      · exact htaken.headerLines other hearlier
      · rw [List.mem_singleton.mp hlast]
        exact ⟨hvalid.nonempty, hvalid.oneLine⟩
    · show (t.request.storeHeaders [line]).headers.keys.toFinset = _
      rw [keys_storeHeaders, htaken.names, List.map_append, List.toFinset_append]
    · exact hcount
    · simp [Tally.acceptLine, hstate, hstays, htaken.number]

theorem blankLine (hread : HeadRead given t)
    (hstate : t.request.state = .kExpectHeaders) (r' : HttpRequest)
    (hstate' : r'.state = .kExpectBody ∨ r'.state = .kGotAll)
    (hheaders : r'.headers = t.request.headers) :
    HeadRead given (t.acceptLine r') := by
  obtain ⟨first, lines, hgiven, htaken⟩ := hread.of_headers hstate
  have hleft : r'.state ≠ .kExpectRequestLine ∧ r'.state ≠ .kExpectHeaders := by
    obtain hbody | hdone := hstate'
    · rw [hbody]
      exact ⟨State.noConfusion, State.noConfusion⟩
    · rw [hdone]
      exact ⟨State.noConfusion, State.noConfusion⟩
  apply HeadRead.lines first lines t.request.buf hleft.1 hgiven fun hback => absurd hback hleft.2
  constructor
  · exact htaken.oneLine
  · exact htaken.headerLines
  · exact hheaders ▸ htaken.names
  · exact hheaders ▸ htaken.few
  · simp [Tally.acceptLine, hleft.2, htaken.number]

theorem body (hread : HeadRead given t) (hstate : t.request.state = .kExpectBody) :
    HeadRead given (t.advance (finish t.request)) := by
  cases hread with
  | start hstart =>
      rw [hstate] at hstart
      cases hstart
  | lines line lines rest _ hgiven _ htaken =>
      exact .lines line lines rest State.noConfusion hgiven State.noConfusion
        ⟨htaken.oneLine, htaken.headerLines, htaken.names, htaken.few, htaken.number⟩

/-- A round that goes on has read one line further. -/
theorem again (hread : HeadRead given t) {r' : HttpRequest}
    (hpass : t.request.pass = .again r') : HeadRead given (t.acceptLine r') := by
  cases round_of_pass hpass with
  | requestLine line rest hstate hbuf hline => exact hread.requestLine hstate hbuf hline
  | blankLine rest hstate hbuf =>
      apply hread.blankLine hstate
      · by_cases hlength : 0 < t.request.contentLength
        · exact .inl (if_pos hlength)
        · exact .inr (if_neg hlength)
      · rfl
  | headerLine line rest hstate hbuf hvalid hcount =>
      exact hread.headerLine hstate hbuf hvalid hcount

/-- A round that leaves the loop without a rejection has read no further line. -/
theorem done (hread : HeadRead given t) {r' : HttpRequest}
    (hpass : t.request.pass = .done (true, r')) : HeadRead given (t.advance r') := by
  cases round_of_pass hpass with
  | waits =>
      cases hread with
      | start hstate hbuf hheaders hnumber => exact .start hstate hbuf hheaders hnumber
      | lines line lines rest hstate hgiven hbuf htaken =>
          exact .lines line lines rest hstate hgiven hbuf
            ⟨htaken.oneLine, htaken.headerLines, htaken.names, htaken.few, htaken.number⟩
  | body hstate => exact hread.body hstate

/-- Without repeated names the count test bounds the header lines. -/
theorem headerLines_le (hread : HeadRead given t)
    (hfits : CountFits given) : t.headerLines ≤ kMaxHeaderCount := by
  cases hread with
  | start _ _ _ hnumber =>
      rw [hnumber]
      exact Nat.zero_le _
  | lines line lines rest _ hsplit _ htaken =>
      have hfirst : lines <+: givenLines given := by
        rw [givenLines, hsplit, behindLine_append htaken.oneLine]
        exact prefix_headLines htaken.headerLines rest
      rw [htaken.number]
      obtain hfew | hdistinct := hfits
      · exact hfirst.length_le.trans hfew
      · have hnodup : (lines.map headerName).Nodup :=
          hdistinct.sublist (hfirst.sublist.map headerName)
        have hcard := List.toFinset_card_of_nodup hnodup
        rw [← htaken.names, ← HeaderMap.size_eq_card, List.length_map] at hcard
        rw [← hcard]
        exact htaken.few

end HeadRead

open HttpRequest

/-- What is no longer buffered has been consumed. -/
theorem consumed_advance {t : Tally} {r' : HttpRequest} {size : ℕ}
    (hbytes : t.consumed + t.request.buf.length = size)
    (hbuf : r'.buf.length ≤ t.request.buf.length) :
    (t.advance r').consumed + r'.buf.length = size := by
  simp only [Tally.advance]
  omega

/-- An accepted call takes bytes of the buffer, and lines of what was given. -/
theorem taken_parse {given piece : Bytes} {t t' : Tally}
    (hbytes : t.consumed + t.request.buf.length = given.length) (hread : HeadRead given t)
    (hparse : t.parse piece = (true, t')) :
    t'.consumed + t'.request.buf.length = (given ++ piece).length ∧
      HeadRead (given ++ piece) t' := by
  unfold Tally.parse at hparse
  split at hparse
  · cases hparse
  · let Taken (t : Tally) : Prop :=
      t.consumed + t.request.buf.length = (given ++ piece).length ∧ HeadRead (given ++ piece) t
    have hloop : (Tally.loop.run (t.push piece)).1 = true →
        Taken (Tally.loop.run (t.push piece)).2 := by
      apply Loop.run_invariant (L := Tally.loop) (I := Taken)
        (Q := fun result => result.1 = true → Taken result.2)
      · intro t t' hbefore hpass
        obtain ⟨r', hround, rfl⟩ := Tally.pass_again hpass
        exact ⟨consumed_advance hbefore.1 (pass_decreases hround).le, hbefore.2.again hround⟩
      · intro t result hbefore hpass haccepts
        obtain ⟨verdict, r', hround, rfl⟩ := Tally.pass_done hpass
        have htrue : verdict = true := haccepts
        subst htrue
        exact ⟨consumed_advance hbefore.1 (pass_done_buf_length_le hround),
          hbefore.2.done hround⟩
      · refine ⟨?_, hread.push piece⟩
        simp only [Tally.push, push_buf, List.length_append]
        omega
    rw [hparse] at hloop
    exact hloop rfl

/-- Every byte that was given has been taken or is buffered, and the request is
what one call would have made of all of them. -/
structure Account (given : Bytes) (t : Tally) : Prop where
  bytes : t.consumed + t.request.buf.length = given.length
  head : HeadRead given t
  parsed : parser.run (fresh.push given) = (true, t.request)

namespace Account

variable {given : Bytes} {t : Tally}

theorem fresh : Account [] .fresh where
  bytes := rfl
  head := .start rfl rfl rfl rfl
  parsed := run_fresh

/-- An accepted call keeps the account. -/
theorem parse (haccount : Account given t) {piece : Bytes} {t' : Tally}
    (hparse : t.parse piece = (true, t')) : Account (given ++ piece) t' := by
  have hrequest := t.parse_request piece
  rw [hparse] at hrequest
  have haccepts : (t.request.parse piece).1 = true := by rw [hrequest]
  have hfeed := (parse_of_accepts haccepts).2
  obtain ⟨hbytes, hhead⟩ := taken_parse haccount.bytes haccount.head hparse
  refine ⟨hbytes, hhead, ?_⟩
  have happend := parser.feed_append .fresh given piece
  have hgiven : parser.feed .fresh given = (true, t.request) := haccount.parsed
  rw [hgiven] at happend
  exact happend.trans (hfeed.symm.trans hrequest)

/-- What has been consumed when the bytes of a request are there is that request. -/
theorem consumed_of_text (haccount : Account given t) {m : RequestText} {rest : Bytes}
    (hgiven : given = m.bytes ++ rest) : t.consumed = m.bytes.length := by
  have hrequest : t.request = ofText m rest := by
    have hrun := haccount.parsed
    rw [hgiven, run_ofText] at hrun
    exact (Prod.mk.inj hrun).2.symm
  have hbytes := haccount.bytes
  rw [hrequest, hgiven, List.length_append] at hbytes
  exact Nat.add_right_cancel hbytes

theorem consumed_le (haccount : Account given t) (hfits : SizeFits given) :
    t.consumed ≤ kMaxRequestSize := by
  obtain hall | ⟨m, rest, hgiven, hsize⟩ := hfits
  · exact ((Nat.le_add_right ..).trans haccount.bytes.le).trans hall
  · exact (haccount.consumed_of_text hgiven).le.trans hsize

theorem headerLines_le (haccount : Account given t) (hfits : CountFits given) :
    t.headerLines ≤ kMaxHeaderCount :=
  haccount.head.headerLines_le hfits

end Account

/-! ## Runs -/

/-- A request that is being parsed, with the bytes it has been given. -/
structure Feeding where
  tally : Tally
  given : Bytes

namespace Feeding

open HttpRequest

def start : Feeding where
  tally := .fresh
  given := []

/-- Calls of `parse`, as long as they are accepted, and of `reset()`. -/
def feeding : Machine Feeding Call where
  init f := f = start
  step f
    | .parse piece =>
      match f.tally.parse piece with
      | (true, t') => some ⟨t', f.given ++ piece⟩
      | (false, _) => none
    | .reset => some start

/-- The calls that give a request no more than the limits are meant to allow. -/
def withinLimits : Machine.Discipline Feeding Call
  | f, .parse piece => SizeFits (f.given ++ piece) ∧ CountFits (f.given ++ piece)
  | _, .reset => True

instance (f : Feeding) (call : Call) : Decidable (withinLimits f call) :=
  match call with
  | .parse piece =>
    inferInstanceAs (Decidable (SizeFits (f.given ++ piece) ∧ CountFits (f.given ++ piece)))
  | .reset => inferInstanceAs (Decidable True)

/-- Both limits hold of what has been taken for the request. -/
def Bounded (f : Feeding) : Prop :=
  f.tally.consumed ≤ kMaxRequestSize ∧ f.tally.headerLines ≤ kMaxHeaderCount

instance : DecidablePred Bounded := fun _ => inferInstanceAs (Decidable (_ ∧ _))

/-- A request with 65 header lines that all have the same name. -/
def repeatedName : Bytes :=
  literal "GET / HTTP/1.1\r\n" ++ (List.replicate 65 (literal "a:\r\n")).flatten

/-- All of its header lines are accepted. -/
theorem limits_exceeded : ¬ ∀ f, feeding.Reachable f → f.Bounded := by
  intro hall
  obtain ⟨f, hreach, hmany⟩ :=
    Machine.exists_reachable_of_run (M := feeding) (P := fun f => ¬ f.Bounded) Machine.anyStep
      [.parse repeatedName] rfl (Machine.follows_anyStep ..) (by decide +kernel)
  exact hmany (hall f hreach)

/-- **When the limits bound a request.** In every run of accepted calls since a
request was constructed or reset in which the bytes given for it fit the size
limit at every call, its own bytes once it is complete, and which gives it no
more header lines than the count limit unless their names are all different: at
most `kMaxRequestSize` bytes and at most `kMaxHeaderCount` header lines have
been taken for the request. -/
theorem limits_bound_requests {f : Feeding}
    (hreach : feeding.ReachableWhere withinLimits f) : f.Bounded := by
  suffices hkept : Account f.given f.tally ∧ f.Bounded from hkept.2
  apply hreach.invariant (I := fun f => Account f.given f.tally ∧ f.Bounded)
  · intro f hinit
    rw [show f = start from hinit]
    exact ⟨.fresh, Nat.zero_le _, Nat.zero_le _⟩
  · intro f call f' hbefore hok hstep
    cases call with
    | reset =>
        cases hstep
        exact ⟨.fresh, Nat.zero_le _, Nat.zero_le _⟩
    | parse piece =>
        obtain ⟨hsize, hcount⟩ := hok
        simp only [feeding] at hstep
        split at hstep
        · next t' hparse =>
          cases hstep
          have hafter := hbefore.1.parse hparse
          exact ⟨hafter, hafter.consumed_le hsize, hafter.headerLines_le hcount⟩
        · cases hstep

/-- A request that arrives in two pieces, with the beginning of another. -/
theorem limits_bound_requests_two_pieces :
    ∃ f : Feeding, f.tally.request.gotAll = true ∧ f.Bounded := by
  obtain ⟨f, hreach, hgot⟩ :=
    Machine.exists_reachable_of_run (M := feeding) (P := fun f => f.tally.request.gotAll = true)
      withinLimits
      [.reset, .parse (literal "GET / HTTP/1.1\r\na:\r\nA"), .parse (literal ":\r\n\r\nGET")]
      rfl (by decide +kernel) (by decide +kernel)
  exact ⟨f, hgot, limits_bound_requests hreach⟩

end Feeding

end EpollHttpServer.Http
