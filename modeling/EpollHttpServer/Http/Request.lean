/-
# The incremental request parser

`HttpRequest` is a state machine over an internal buffer: `parse` appends the
bytes of one `read` and then goes round a loop that takes one line, or the
body, off the front of the buffer.  The model keeps the loop: one round is
`pass`, and every round that goes on has erased a line from the buffer.

The line parsers return their verdict together with the request they leave
behind, because both assign fields before they reject.
-/

import EpollHttpServer.Lib.Loop
import EpollHttpServer.Http.Text

namespace EpollHttpServer.Http

open EpollHttpServer.Lib

/-- The parser states, in the order a request passes through them. -/
inductive State where
  | kExpectRequestLine
  | kExpectHeaders
  | kExpectBody
  | kGotAll
  deriving DecidableEq, Repr

/-- Bytes that may be buffered for one request. -/
def kMaxRequestSize : ℕ := 64 * 1024

/-- Distinct header names that a request may have. -/
def kMaxHeaderCount : ℕ := 64

structure HttpRequest where
  state : State
  buf : Bytes
  method : Bytes
  path : Bytes
  version : Bytes
  headers : HeaderMap
  body : Bytes
  contentLength : ℕ
  deriving DecidableEq

/-- `"HTTP/"`, which every accepted version starts with. -/
def httpSlash : Bytes := literal "HTTP/"

/-- The key of the only header the parser itself reads. -/
def contentLengthKey : Bytes := literal "content-length"

def connectionKey : Bytes := literal "connection"

/-- The value without leading blanks; a value of blanks only is kept whole,
because `find_first_not_of` finds nothing to cut at. -/
def trimLeft (value : Bytes) : Bytes :=
  match value.findIdx? fun b => b ≠ space ∧ b ≠ tab with
  | none => value
  | some start => value.drop start

/-- A path that starts with a slash. -/
def normalizePath (path : Bytes) : Bytes :=
  match path with
  | [] => [slash]
  | b :: rest => if b = slash then b :: rest else slash :: b :: rest

namespace HttpRequest

/-- A request that nothing has been parsed into. -/
def fresh : HttpRequest where
  state := .kExpectRequestLine
  buf := []
  method := []
  path := []
  version := []
  headers := ∅
  body := []
  contentLength := 0

/-- `reset()` clears every field, so it does not depend on the request. -/
def reset (_ : HttpRequest) : HttpRequest := fresh

def gotAll (r : HttpRequest) : Bool :=
  r.state = .kGotAll

/-- Parse `"GET /path HTTP/1.1"`: the method ends at the first space and the
version starts after the last one. -/
def parseRequestLine (r : HttpRequest) (line : Bytes) : Bool × HttpRequest :=
  match find [space] line, rfind space line with
  | some pos1, some pos2 =>
    if pos2 = pos1 then (false, r)
    else
      let version := line.drop (pos2 + 1)
      let r' := { r with
        method := line.take pos1
        path := normalizePath ((line.drop (pos1 + 1)).take (pos2 - pos1 - 1))
        version := version }
      (decide (find httpSlash version = some 0), r')
  | _, _ => (false, r)

/-- Parse `"Key: Value"`.  The value is stored before a bad content length is
rejected. -/
def parseHeader (r : HttpRequest) (line : Bytes) : Bool × HttpRequest :=
  match find [colon] line with
  | none => (false, r)
  | some colonPos =>
    let key := lowered (line.take colonPos)
    let value := trimLeft (line.drop (colonPos + 1))
    let r' := { r with headers := r.headers.insert key value }
    if key = contentLengthKey then
      match strtol value with
      | none => (false, r')
      | some len =>
        if len < 0 then (false, r') else (true, { r' with contentLength := len.toNat })
    else (true, r')

/-- One round of the loop in `parse`. -/
def pass (r : HttpRequest) : Pass HttpRequest (Bool × HttpRequest) :=
  match r.state with
  | .kExpectRequestLine =>
    match find crlf r.buf with
    | none => .done (true, r)
    | some pos =>
      match parseRequestLine { r with buf := r.buf.drop (pos + 2) } (r.buf.take pos) with
      | (false, r') => .done (false, r')
      | (true, r') => .again { r' with state := .kExpectHeaders }
  | .kExpectHeaders =>
    match find crlf r.buf with
    | none => .done (true, r)
    | some pos =>
      let line := r.buf.take pos
      let r' := { r with buf := r.buf.drop (pos + 2) }
      if line = [] then
        .again { r' with state := if 0 < r.contentLength then .kExpectBody else .kGotAll }
      else
        match parseHeader r' line with
        | (false, r'') => .done (false, r'')
        | (true, r'') =>
          if kMaxHeaderCount < HeaderMap.size r''.headers then .done (false, r'')
          else .again r''
  | .kExpectBody =>
    if r.contentLength ≤ r.buf.length then
      .done (true, { r with
        body := r.buf.take r.contentLength
        buf := r.buf.drop r.contentLength
        state := .kGotAll })
    else .done (true, r)
  | .kGotAll => .done (true, r)

/-- More bytes behind the buffered ones, `buf_.append(data, len)`. -/
def push (r : HttpRequest) (data : Bytes) : HttpRequest :=
  { r with buf := r.buf ++ data }

@[simp] theorem push_state (r : HttpRequest) (data : Bytes) : (r.push data).state = r.state := rfl
@[simp] theorem push_buf (r : HttpRequest) (data : Bytes) :
    (r.push data).buf = r.buf ++ data := rfl

/-! ## The line parsers leave the buffer and the state alone -/

/-- Neither what is buffered nor the state matters to the request line. -/
theorem parseRequestLine_frame (r : HttpRequest) (line buf : Bytes) (state : State) :
    parseRequestLine { r with state := state, buf := buf } line =
      ((r.parseRequestLine line).1,
        { (r.parseRequestLine line).2 with state := state, buf := buf }) := by
  unfold parseRequestLine
  split
  · split <;> rfl
  · rfl

/-- Neither what is buffered nor the state matters to a header line. -/
theorem parseHeader_frame (r : HttpRequest) (line buf : Bytes) (state : State) :
    parseHeader { r with state := state, buf := buf } line =
      ((r.parseHeader line).1, { (r.parseHeader line).2 with state := state, buf := buf }) := by
  unfold parseHeader
  split
  · rfl
  · dsimp only
    split
    · split
      · rfl
      · split <;> rfl
    · rfl

theorem parseRequestLine_buf (r : HttpRequest) (line : Bytes) :
    (r.parseRequestLine line).2.buf = r.buf :=
  congrArg (·.2.buf) (parseRequestLine_frame r line r.buf r.state)

theorem parseRequestLine_state (r : HttpRequest) (line : Bytes) :
    (r.parseRequestLine line).2.state = r.state :=
  congrArg (·.2.state) (parseRequestLine_frame r line r.buf r.state)

theorem parseRequestLine_headers (r : HttpRequest) (line : Bytes) :
    (r.parseRequestLine line).2.headers = r.headers := by
  unfold parseRequestLine
  split
  · split <;> rfl
  · rfl

theorem parseHeader_buf (r : HttpRequest) (line : Bytes) :
    (r.parseHeader line).2.buf = r.buf :=
  congrArg (·.2.buf) (parseHeader_frame r line r.buf r.state)

theorem parseHeader_state (r : HttpRequest) (line : Bytes) :
    (r.parseHeader line).2.state = r.state :=
  congrArg (·.2.state) (parseHeader_frame r line r.buf r.state)

theorem parseRequestLine_push (r : HttpRequest) (line more : Bytes) :
    (r.push more).parseRequestLine line =
      ((r.parseRequestLine line).1, (r.parseRequestLine line).2.push more) := by
  rw [push, parseRequestLine_frame r line (r.buf ++ more) r.state, push, parseRequestLine_buf]
  rw [← parseRequestLine_state r line]

theorem parseHeader_push (r : HttpRequest) (line more : Bytes) :
    (r.push more).parseHeader line =
      ((r.parseHeader line).1, (r.parseHeader line).2.push more) := by
  rw [push, parseHeader_frame r line (r.buf ++ more) r.state, push, parseHeader_buf]
  rw [← parseHeader_state r line]

/-! ## What one round does -/

/-- The request once its head is complete and its body has been cut off the
buffer. -/
def finish (r : HttpRequest) : HttpRequest :=
  { r with
    body := r.buf.take r.contentLength
    buf := r.buf.drop r.contentLength
    state := .kGotAll }

/-- The request waits for a line, for more of its body, or for nothing. -/
inductive Idle (r : HttpRequest) : Prop where
  | line (hstate : r.state = .kExpectRequestLine ∨ r.state = .kExpectHeaders)
      (hnone : ¬ crlf <:+: r.buf)
  | body (hstate : r.state = .kExpectBody) (hshort : r.buf.length < r.contentLength)
  | complete (hstate : r.state = .kGotAll)

/-- The branches of one round, each with its result. -/
inductive Branch (r : HttpRequest) : Pass HttpRequest (Bool × HttpRequest) → Prop where
  | waits (hidle : Idle r) : Branch r (.done (true, r))
  | requestLine (pos : ℕ) (r' : HttpRequest) (hstate : r.state = .kExpectRequestLine)
      (hpos : find crlf r.buf = some pos)
      (hparse : parseRequestLine { r with buf := r.buf.drop (pos + 2) } (r.buf.take pos) =
        (true, r')) : Branch r (.again { r' with state := .kExpectHeaders })
  | badRequestLine (pos : ℕ) (r' : HttpRequest) (hstate : r.state = .kExpectRequestLine)
      (hpos : find crlf r.buf = some pos)
      (hparse : parseRequestLine { r with buf := r.buf.drop (pos + 2) } (r.buf.take pos) =
        (false, r')) : Branch r (.done (false, r'))
  | blankLine (pos : ℕ) (hstate : r.state = .kExpectHeaders) (hpos : find crlf r.buf = some pos)
      (hblank : r.buf.take pos = []) : Branch r (.again { r with
        buf := r.buf.drop (pos + 2)
        state := if 0 < r.contentLength then .kExpectBody else .kGotAll })
  | headerLine (pos : ℕ) (r' : HttpRequest) (hstate : r.state = .kExpectHeaders)
      (hpos : find crlf r.buf = some pos) (hne : r.buf.take pos ≠ [])
      (hparse : parseHeader { r with buf := r.buf.drop (pos + 2) } (r.buf.take pos) = (true, r'))
      (hcount : HeaderMap.size r'.headers ≤ kMaxHeaderCount) : Branch r (.again r')
  | oneTooMany (pos : ℕ) (r' : HttpRequest) (hstate : r.state = .kExpectHeaders)
      (hpos : find crlf r.buf = some pos) (hne : r.buf.take pos ≠ [])
      (hparse : parseHeader { r with buf := r.buf.drop (pos + 2) } (r.buf.take pos) = (true, r'))
      (hcount : kMaxHeaderCount < HeaderMap.size r'.headers) : Branch r (.done (false, r'))
  | badHeader (pos : ℕ) (r' : HttpRequest) (hstate : r.state = .kExpectHeaders)
      (hpos : find crlf r.buf = some pos) (hne : r.buf.take pos ≠ [])
      (hparse : parseHeader { r with buf := r.buf.drop (pos + 2) } (r.buf.take pos) = (false, r')) :
      Branch r (.done (false, r'))
  | body (hstate : r.state = .kExpectBody) (hall : r.contentLength ≤ r.buf.length) :
      Branch r (.done (true, finish r))

theorem pass_of_gotAll {r : HttpRequest} (hstate : r.state = .kGotAll) :
    r.pass = .done (true, r) := by
  simp [pass, hstate]

/-- A round waits for the rest of a line. -/
theorem pass_unfinished {r : HttpRequest}
    (hstate : r.state = .kExpectRequestLine ∨ r.state = .kExpectHeaders)
    (hnone : ¬ crlf <:+: r.buf) : r.pass = .done (true, r) := by
  have hpos : find crlf r.buf = none := find_eq_none_iff.mpr hnone
  obtain hstate | hstate := hstate
  · simp [pass, hstate, hpos]
  · simp [pass, hstate, hpos]

theorem pass_body {r : HttpRequest} (hstate : r.state = .kExpectBody)
    (hall : r.contentLength ≤ r.buf.length) : r.pass = .done (true, finish r) := by
  simp [pass, hstate, hall, finish]

theorem pass_short {r : HttpRequest} (hstate : r.state = .kExpectBody)
    (hshort : ¬ r.contentLength ≤ r.buf.length) : r.pass = .done (true, r) := by
  simp [pass, hstate, hshort]

theorem branch_requestLine {r : HttpRequest} (hstate : r.state = .kExpectRequestLine) :
    Branch r r.pass := by
  cases hpos : find crlf r.buf with
  | none =>
      have hnone := find_eq_none_iff.mp hpos
      rw [pass_unfinished (.inl hstate) hnone]
      exact .waits (.line (.inl hstate) hnone)
  | some pos =>
      cases hparse : parseRequestLine { r with buf := r.buf.drop (pos + 2) } (r.buf.take pos) with
      | mk verdict r' =>
          have hline := hparse
          rw [hstate] at hline
          cases verdict with
          | false =>
              have hpass : r.pass = .done (false, r') := by simp [pass, hstate, hpos, hline]
              rw [hpass]
              exact .badRequestLine pos r' hstate hpos hparse
          | true =>
              have hpass : r.pass = .again { r' with state := .kExpectHeaders } := by
                simp [pass, hstate, hpos, hline]
              rw [hpass]
              exact .requestLine pos r' hstate hpos hparse

theorem branch_headers {r : HttpRequest} (hstate : r.state = .kExpectHeaders) :
    Branch r r.pass := by
  cases hpos : find crlf r.buf with
  | none =>
      have hnone := find_eq_none_iff.mp hpos
      rw [pass_unfinished (.inr hstate) hnone]
      exact .waits (.line (.inr hstate) hnone)
  | some pos =>
      by_cases hblank : r.buf.take pos = []
      · have hpass : r.pass = .again { r with
            buf := r.buf.drop (pos + 2)
            state := if 0 < r.contentLength then .kExpectBody else .kGotAll } := by
          simp [pass, hstate, hpos, hblank]
        rw [hpass]
        exact .blankLine pos hstate hpos hblank
      · cases hparse : parseHeader { r with buf := r.buf.drop (pos + 2) } (r.buf.take pos) with
        | mk verdict r' =>
            have hline := hparse
            rw [hstate] at hline
            cases verdict with
            | false =>
                have hpass : r.pass = .done (false, r') := by
                  simp [pass, hstate, hpos, hblank, hline]
                rw [hpass]
                exact .badHeader pos r' hstate hpos hblank hparse
            | true =>
                by_cases hmany : kMaxHeaderCount < HeaderMap.size r'.headers
                · have hpass : r.pass = .done (false, r') := by
                    simp [pass, hstate, hpos, hblank, hline, hmany]
                  rw [hpass]
                  exact .oneTooMany pos r' hstate hpos hblank hparse hmany
                · have hpass : r.pass = .again r' := by
                    simp [pass, hstate, hpos, hblank, hline, hmany]
                  rw [hpass]
                  exact .headerLine pos r' hstate hpos hblank hparse (not_lt.mp hmany)

/-- Every round takes one of the branches.  What a round does to the buffer, to the
state and to the stored text is derived from this by cases. -/
theorem pass_branch (r : HttpRequest) : Branch r r.pass := by
  cases hstate : r.state with
  | kExpectRequestLine => exact branch_requestLine hstate
  | kExpectHeaders => exact branch_headers hstate
  | kExpectBody =>
      by_cases hall : r.contentLength ≤ r.buf.length
      · rw [pass_body hstate hall]
        exact .body hstate hall
      · rw [pass_short hstate hall]
        exact .waits (.body hstate (not_le.mp hall))
  | kGotAll =>
      rw [pass_of_gotAll hstate]
      exact .waits (.complete hstate)

theorem branch_of_pass {r : HttpRequest} {result : Pass HttpRequest (Bool × HttpRequest)}
    (hpass : r.pass = result) : Branch r result :=
  hpass ▸ pass_branch r

/-- What a round that ends with `result` has done to the buffer: erased a line
from its front if the loop goes on, and otherwise some bytes. -/
def BufferTaken (buf : Bytes) : Pass HttpRequest (Bool × HttpRequest) → Prop
  | .again r' => ∃ pos, find crlf buf = some pos ∧ r'.buf = buf.drop (pos + 2)
  | .done (_, r') => ∃ count, r'.buf = buf.drop count

theorem pass_buf (r : HttpRequest) : BufferTaken r.buf r.pass := by
  have hbranch := r.pass_branch
  generalize r.pass = result at hbranch
  have hline (pos : ℕ) :=
    parseRequestLine_buf { r with buf := r.buf.drop (pos + 2) } (r.buf.take pos)
  have hheader (pos : ℕ) := parseHeader_buf { r with buf := r.buf.drop (pos + 2) } (r.buf.take pos)
  cases hbranch with
  | waits => exact ⟨0, rfl⟩
  | requestLine pos r' _ hpos hparse => exact ⟨pos, hpos, by simpa [hparse] using hline pos⟩
  | badRequestLine pos r' _ _ hparse => exact ⟨pos + 2, by simpa [hparse] using hline pos⟩
  | blankLine pos _ hpos => exact ⟨pos, hpos, rfl⟩
  | headerLine pos r' _ hpos _ hparse => exact ⟨pos, hpos, by simpa [hparse] using hheader pos⟩
  | oneTooMany pos r' _ _ _ hparse | badHeader pos r' _ _ _ hparse =>
      exact ⟨pos + 2, by simpa [hparse] using hheader pos⟩
  | body => exact ⟨r.contentLength, rfl⟩

/-- Behind a line there is less than before it, by its terminator at least. -/
theorem length_behind_line {buf : Bytes} {pos : ℕ} (hpos : find crlf buf = some pos) :
    (buf.drop (pos + 2)).length + 2 ≤ buf.length := by
  have hle := find_le hpos
  rw [length_crlf] at hle
  rw [List.length_drop]
  omega

/-- A round that goes on has erased a line from the buffer. -/
theorem room_of_again {r r' : HttpRequest} (hpass : r.pass = .again r') :
    r'.buf.length + 2 ≤ r.buf.length := by
  have htaken := r.pass_buf
  rw [hpass] at htaken
  obtain ⟨pos, hpos, hbuf⟩ := htaken
  rw [hbuf]
  exact length_behind_line hpos

theorem pass_decreases {r r' : HttpRequest} (hpass : r.pass = .again r') :
    r'.buf.length < r.buf.length := by
  have hroom := room_of_again hpass
  omega

/-- A line that is complete is the same line when more bytes follow. -/
theorem complete_line_append {buf : Bytes} {pos : ℕ} (hpos : find crlf buf = some pos)
    (more : Bytes) :
    find crlf (buf ++ more) = some pos ∧ (buf ++ more).take pos = buf.take pos ∧
      (buf ++ more).drop (pos + 2) = buf.drop (pos + 2) ++ more := by
  have hle := find_le hpos
  rw [length_crlf] at hle
  exact ⟨find_append hpos more, List.take_append_of_le_length (by omega),
    List.drop_append_of_le_length hle⟩

/-- More input behind the buffer, seen by one round. -/
def pushPass (more : Bytes) : Pass HttpRequest (Bool × HttpRequest) →
    Pass HttpRequest (Bool × HttpRequest)
  | .again r => .again (r.push more)
  | .done (verdict, r) => .done (verdict, r.push more)

/-- In every state a round takes its decision on a complete line, or on a
complete body, that more input does not change; otherwise it waits where it is. -/
theorem pass_push (r : HttpRequest) (more : Bytes) :
    (r.push more).pass = pushPass more r.pass ∨ r.pass = .done (true, r) := by
  cases hstate : r.state with
  | kExpectRequestLine =>
      cases hpos : find crlf r.buf with
      | none => exact .inr (by simp [pass, hstate, hpos])
      | some pos =>
          obtain ⟨hfind, hline, hrest⟩ := complete_line_append hpos more
          have hparse := parseRequestLine_push { r with buf := r.buf.drop (pos + 2) }
            (r.buf.take pos) more
          simp only [push] at hparse
          left
          simp only [pass, push, hstate, hpos, hfind, hline, hrest]
          rw [hstate] at hparse
          rw [hparse]
          cases parseRequestLine _ _ with
          | mk verdict r' => cases verdict <;> rfl
  | kExpectHeaders =>
      cases hpos : find crlf r.buf with
      | none => exact .inr (by simp [pass, hstate, hpos])
      | some pos =>
          obtain ⟨hfind, hline, hrest⟩ := complete_line_append hpos more
          have hparse := parseHeader_push { r with buf := r.buf.drop (pos + 2) }
            (r.buf.take pos) more
          simp only [push] at hparse
          left
          simp only [pass, push, hstate, hpos, hfind, hline, hrest]
          by_cases hblank : r.buf.take pos = []
          · simp [hblank, pushPass, push]
          · rw [hstate] at hparse
            simp only [hblank, if_false, hparse]
            cases parseHeader _ _ with
            | mk verdict r' =>
                cases verdict with
                | false => rfl
                | true =>
                    dsimp only
                    split <;> rfl
  | kExpectBody =>
      by_cases hall : r.contentLength ≤ r.buf.length
      · left
        have hlonger : r.contentLength ≤ r.buf.length + more.length := by omega
        simp [pass, hstate, hall, hlonger, pushPass, push,
          List.take_append_of_le_length hall, List.drop_append_of_le_length hall]
      · exact .inr (by simp [pass, hstate, hall])
  | kGotAll => exact .inr (by simp [pass, hstate])

/-- A round that waits has left a request that waits. -/
theorem pass_of_waits {r r' : HttpRequest} (hpass : r.pass = .done (true, r')) :
    r' = r ∨ r'.state = .kGotAll := by
  cases branch_of_pass hpass with
  | waits => exact .inl rfl
  | body => exact .inr rfl

/-- A round that rejects has not completed the request. -/
theorem pass_of_rejects {r r' : HttpRequest} (hpass : r.pass = .done (false, r')) :
    r'.gotAll = false := by
  suffices hkept : r'.state = r.state ∧ r.state ≠ .kGotAll by
    rw [gotAll, hkept.1]
    exact decide_eq_false hkept.2
  have hline (pos : ℕ) :=
    parseRequestLine_state { r with buf := r.buf.drop (pos + 2) } (r.buf.take pos)
  have hheader (pos : ℕ) :=
    parseHeader_state { r with buf := r.buf.drop (pos + 2) } (r.buf.take pos)
  cases branch_of_pass hpass with
  | badRequestLine pos r' hstate _ hparse =>
      exact ⟨by simpa [hparse] using hline pos, by simp [hstate]⟩
  | oneTooMany pos r' hstate _ _ hparse | badHeader pos r' hstate _ _ hparse =>
      exact ⟨by simpa [hparse] using hheader pos, by simp [hstate]⟩

/-- The parser as an incremental consumer: the loop of `parse` over the buffer
that `parse` appends to. -/
def parser : Incremental HttpRequest UInt8 where
  pass := pass
  variant r := r.buf.length
  decreases := pass_decreases
  push := push
  push_nil r := by simp [push]
  push_push r first second := by simp [push, List.append_assoc]
  again_push := by
    intro r r' more hpass
    rcases pass_push r more with hpush | hwaits
    · rw [hpush, hpass]
      rfl
    · rw [hwaits] at hpass
      cases hpass
  reject_push := by
    intro r r' more hpass
    rcases pass_push r more with hpush | hwaits
    · rw [hpush, hpass]
      rfl
    · rw [hwaits] at hpass
      cases hpass
  wait_push := by
    intro r r' more hpass
    rcases pass_of_waits hpass with rfl | hgot
    · rfl
    · rcases pass_push r more with hpush | hwaits
      · rw [hpush, hpass, pass_of_gotAll (r := r'.push more) hgot]
        rfl
      · rw [hwaits] at hpass
        cases hpass
        rfl

theorem run_of_again {r r' : HttpRequest} (hpass : r.pass = .again r') :
    parser.run r = parser.run r' :=
  Loop.run_of_again (L := parser.toLoop) hpass

theorem run_of_done {r : HttpRequest} {result : Bool × HttpRequest}
    (hpass : r.pass = .done result) : parser.run r = result :=
  Loop.run_of_done (L := parser.toLoop) hpass

/-- `parse`: `true` while the bytes so far are fine, `false` on a protocol
error.  A request that would grow too large is rejected before it is touched. -/
def parse (r : HttpRequest) (data : Bytes) : Bool × HttpRequest :=
  if kMaxRequestSize < r.buf.length + data.length then (false, r)
  else parser.feed r data

/-- A completed request swallows whatever fits behind it. -/
theorem parse_of_gotAll {r : HttpRequest} {data : Bytes} (hgot : r.gotAll = true)
    (hsize : r.buf.length + data.length ≤ kMaxRequestSize) :
    r.parse data = (true, r.push data) := by
  have hstate : (r.push data).state = .kGotAll := by simpa [gotAll] using hgot
  rw [parse, if_neg (not_lt.mpr hsize)]
  exact run_of_done (pass_of_gotAll hstate)

theorem parse_of_too_large {r : HttpRequest} {data : Bytes}
    (hsize : kMaxRequestSize < r.buf.length + data.length) : r.parse data = (false, r) :=
  if_pos hsize

/-- No bytes undo the completion of a request. -/
theorem gotAll_parse {r : HttpRequest} (hgot : r.gotAll = true) (data : Bytes) :
    (r.parse data).2.gotAll = true := by
  by_cases hsize : kMaxRequestSize < r.buf.length + data.length
  · rw [parse_of_too_large hsize]
    exact hgot
  · rw [parse_of_gotAll hgot (not_lt.mp hsize)]
    exact hgot

/-- A request that is not complete after a call was not complete before it. -/
theorem not_gotAll_of_parse {r : HttpRequest} (data : Bytes)
    (hnot : (r.parse data).2.gotAll = false) : r.gotAll = false := by
  by_contra hgot
  rw [gotAll_parse (Bool.eq_true_of_not_eq_false hgot)] at hnot
  cases hnot

/-- The loop does not complete a request that it rejects. -/
theorem run_rejects_not_gotAll (r : HttpRequest) (hrejects : (parser.run r).1 = false) :
    (parser.run r).2.gotAll = false := by
  refine Loop.run_induction (L := parser.toLoop)
    (P := fun _ result => result.1 = false → result.2.gotAll = false) ?_ ?_ r hrejects
  · rintro r ⟨verdict, r'⟩ hpass hverdict
    subst hverdict
    exact pass_of_rejects hpass
  · intro r r' _ ih
    exact ih

/-- Rejected bytes leave a completed request completed, and no other. -/
theorem parse_rejects_gotAll {r : HttpRequest} {data : Bytes}
    (hrejects : (r.parse data).1 = false) : (r.parse data).2.gotAll = true → r.gotAll = true := by
  intro hgot
  unfold parse at hrejects hgot
  split at hgot
  · exact hgot
  · next hsize =>
    rw [if_neg hsize] at hrejects
    have hnot : (parser.feed r data).2.gotAll = false :=
      run_rejects_not_gotAll (r.push data) hrejects
    rw [hnot] at hgot
    exact absurd hgot Bool.false_ne_true

/-- `getHeader`, for a key in any spelling. -/
def getHeader (r : HttpRequest) (key : Bytes) : Bytes :=
  HeaderMap.valueOf r.headers (lowered key)

/-- Whether the connection is to be kept: the default of HTTP/1.1 is to keep
it and the default of every other version is to close it. -/
def keepAlive (r : HttpRequest) : Bool :=
  let conn := r.getHeader connectionKey
  if r.version = literal "HTTP/1.1" then decide (conn ≠ literal "close")
  else decide (conn = literal "keep-alive")

example : (fresh.parse (literal "GET / HTTP/1.1\r\nA: b\r\n\r\n")).2.getHeader (literal "a") =
    literal "b" := by decide +kernel

end HttpRequest

end EpollHttpServer.Http
