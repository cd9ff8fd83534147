/-
# The language the parser accepts

A request is a request line, header lines and a body.  `RequestText` is the
grammar, written without positions, states or a buffer; a value of that type is
a well-formed request and nothing else.  The parser accepts a stream exactly
when it begins with the bytes of such a value, and what it stores are the parts
of that value.

Both directions go through `storeHeaders`, the effect of the header lines on a
request once each of them has been accepted.
-/

import EpollHttpServer.Http.Rounds

namespace EpollHttpServer.Http

open EpollHttpServer.Lib

/-- A request as text. -/
structure RequestText where
  requestLine : Bytes
  headerLines : List Bytes
  body : Bytes
  requestLine_oneLine : ¬ crlf <:+: requestLine
  /-- Method, target and version are separated by spaces. -/
  requestLine_spaces : 2 ≤ requestLine.count space
  requestLine_version : httpSlash <+: afterLast space requestLine
  headerLines_valid : ∀ line ∈ headerLines, IsHeaderLine line
  /-- Repeated names count once. -/
  headerLines_names : (headerLines.map headerName).toFinset.card ≤ kMaxHeaderCount
  body_length : body.length = declaredLength headerLines

namespace RequestText

/-- The lines of a head, each with its terminator. -/
def linesBytes (lines : List Bytes) : Bytes :=
  lines.flatMap (· ++ crlf)

@[simp]
theorem linesBytes_nil : linesBytes [] = [] := rfl

@[simp]
theorem linesBytes_cons (line : Bytes) (lines : List Bytes) :
    linesBytes (line :: lines) = line ++ crlf ++ linesBytes lines := rfl

/-- What a request looks like on the wire. -/
def bytes (m : RequestText) : Bytes :=
  m.requestLine ++ crlf ++ linesBytes m.headerLines ++ crlf ++ m.body

/-- The value of a header, for a key in any spelling. -/
def header (m : RequestText) (key : Bytes) : Bytes :=
  (lastLine m.headerLines (lowered key)).elim [] headerValue

end RequestText

namespace HttpRequest

/-! ## The whole loop -/

/-- Behind the blank line the loop waits for the body and then takes it. -/
theorem run_blankLine {r : HttpRequest} {rest : Bytes}
    (hstate : r.state = .kExpectHeaders) (hbuf : r.buf = crlf ++ rest) (hbody : r.body = []) :
    parser.run r =
      if r.contentLength ≤ rest.length then (true, finish { r with buf := rest })
      else (true, { r with buf := rest, state := .kExpectBody }) := by
  rw [run_of_again (pass_blankLine hstate hbuf)]
  by_cases hpos : 0 < r.contentLength
  · by_cases hall : r.contentLength ≤ rest.length
    · exact run_of_done (by simp [pass, hpos, hall, finish])
    · exact run_of_done (by simp [pass, hpos, hall])
  · have hzero : r.contentLength = 0 := by omega
    refine run_of_done ?_
    simp [pass, hzero, finish, hbody]

/-- Valid header lines are stored one after the other. -/
theorem run_headerLines {r : HttpRequest} {lines : List Bytes} {tail : Bytes}
    (hstate : r.state = .kExpectHeaders)
    (hbuf : r.buf = RequestText.linesBytes lines ++ tail)
    (hvalid : ∀ line ∈ lines, IsHeaderLine line)
    (hcount : HeaderMap.size (r.storeHeaders lines).headers ≤ kMaxHeaderCount) :
    parser.run r = parser.run { r.storeHeaders lines with buf := tail } := by
  induction lines generalizing r with
  | nil =>
      have hsame : r = { r with buf := tail } := by
        rw [RequestText.linesBytes_nil, List.nil_append] at hbuf
        rw [← hbuf]
      rw [storeHeaders_nil, ← hsame]
  | cons line lines ih =>
      have hline := hvalid line (List.mem_cons_self ..)
      have hbuf' : r.buf = line ++ (crlf ++ (RequestText.linesBytes lines ++ tail)) := by
        rw [hbuf, RequestText.linesBytes_cons, List.append_assoc, List.append_assoc]
      rw [storeHeaders_cons] at hcount ⊢
      have hfirst := (size_le_size_storeHeaders (r.storeHeader line) lines).trans hcount
      rw [run_of_again (pass_headerLine hstate hbuf' hline hfirst)]
      have hmoved := storeHeaders_setBuf (r.storeHeader line) lines
        (RequestText.linesBytes lines ++ tail)
      rw [ih (r := { r.storeHeader line with buf := _ }) hstate rfl
        (fun other hmem => hvalid other (List.mem_cons_of_mem line hmem))
        (by rw [hmoved]; exact hcount), hmoved]

/-- What the loop has read when it completes a request from the header state:
valid lines, the blank line, and at least the declared number of bytes. -/
theorem exists_headerLines {r : HttpRequest} (hstate : r.state = .kExpectHeaders)
    (hbody : r.body = []) (hcount : HeaderMap.size r.headers ≤ kMaxHeaderCount)
    (haccepts : (parser.run r).1 = true) (hgot : (parser.run r).2.gotAll = true) :
    ∃ lines tail, r.buf = RequestText.linesBytes lines ++ (crlf ++ tail) ∧
      (∀ line ∈ lines, IsHeaderLine line) ∧
      HeaderMap.size (r.storeHeaders lines).headers ≤ kMaxHeaderCount ∧
      (r.storeHeaders lines).contentLength ≤ tail.length := by
  induction hn : r.buf.length using Nat.strongRecOn generalizing r with
  | _ n ih =>
      subst hn
      cases hpass : r.pass with
      | done result =>
          rw [run_of_done hpass] at haccepts hgot
          cases round_of_pass hpass with
          | waits => simp [gotAll, hstate] at hgot
          | badRequestLine | oneTooMany | badHeader => cases haccepts
          | body hother =>
              rw [hstate] at hother
              cases hother
      | again r' =>
          cases round_of_pass hpass with
          | requestLine _ _ hother =>
              rw [hstate] at hother
              cases hother
          | blankLine rest _ hblank =>
              refine ⟨[], rest, by simpa using hblank, by simp, hcount, ?_⟩
              by_contra hshort
              rw [storeHeaders_nil] at hshort
              rw [run_blankLine hstate hblank hbody, if_neg hshort] at hgot
              simp [gotAll] at hgot
          | headerLine line rest _ hline hvalid hfits =>
              rw [run_of_again hpass] at haccepts hgot
              obtain ⟨lines, tail, hbuf, hlines, hsize, hlong⟩ :=
                ih _ (pass_decreases hpass) (r := { r.storeHeader line with buf := rest })
                  hstate hbody hfits haccepts hgot rfl
              rw [storeHeaders_setBuf] at hsize hlong
              refine ⟨line :: lines, tail, ?_, ?_, hsize, hlong⟩
              · dsimp only at hbuf
                rw [hline, hbuf, RequestText.linesBytes_cons, List.append_assoc, List.append_assoc]
              · intro other hmem
                rcases List.mem_cons.mp hmem with rfl | hmem
                · exact hvalid
                · exact hlines other hmem

/-- The request that the parser stores for a text. -/
def ofText (m : RequestText) (rest : Bytes) : HttpRequest :=
  { (fresh.storeRequestLine m.requestLine).storeHeaders m.headerLines with
    body := m.body
    buf := rest
    state := .kGotAll }

/-- The names of the stored headers are those of the lines. -/
theorem size_storeHeaders {r : HttpRequest} (hempty : r.headers = ∅) (lines : List Bytes) :
    HeaderMap.size (r.storeHeaders lines).headers = (lines.map headerName).toFinset.card := by
  rw [HeaderMap.size_eq_card, keys_storeHeaders, hempty]
  simp

theorem contentLength_storeHeaders_fresh {r : HttpRequest} (hzero : r.contentLength = 0)
    (lines : List Bytes) : (r.storeHeaders lines).contentLength = declaredLength lines := by
  rw [contentLength_storeHeaders, hzero]
  rfl

/-- Completeness: the parser takes the text of a request, stores its parts and
leaves the rest in the buffer. -/
theorem run_ofText (m : RequestText) (rest : Bytes) :
    parser.run (fresh.push (m.bytes ++ rest)) = (true, ofText m rest) := by
  have hbytes : m.bytes ++ rest = m.requestLine ++
      (crlf ++ (RequestText.linesBytes m.headerLines ++ (crlf ++ (m.body ++ rest)))) := by
    simp [RequestText.bytes]
  let stored := fresh.storeRequestLine m.requestLine
  let expecting (buf : Bytes) : HttpRequest :=
    { stored with buf := buf, state := .kExpectHeaders }
  have hmoved (buf : Bytes) : (expecting buf).storeHeaders m.headerLines =
      { stored.storeHeaders m.headerLines with buf := buf, state := .kExpectHeaders } :=
    storeHeaders_move stored m.headerLines buf .kExpectHeaders
  have hlength : (stored.storeHeaders m.headerLines).contentLength = m.body.length := by
    rw [contentLength_storeHeaders_fresh rfl, m.body_length]
  have hnames (buf : Bytes) :
      HeaderMap.size ((expecting buf).storeHeaders m.headerLines).headers ≤ kMaxHeaderCount := by
    rw [size_storeHeaders rfl]
    exact m.headerLines_names
  calc
    parser.run (fresh.push (m.bytes ++ rest)) =
        parser.run (expecting
          (RequestText.linesBytes m.headerLines ++ (crlf ++ (m.body ++ rest)))) := by
      rw [hbytes]
      exact run_of_again (pass_requestLine rfl rfl
        m.requestLine_oneLine m.requestLine_spaces m.requestLine_version)
    _ = parser.run { stored.storeHeaders m.headerLines with
          buf := crlf ++ (m.body ++ rest), state := .kExpectHeaders } := by
      rw [run_headerLines rfl rfl m.headerLines_valid (hnames _), hmoved]
    _ = (true, ofText m rest) := by
      rw [run_blankLine rfl rfl (storeHeaders_parts _ _).2.2.2]
      simp [hlength, finish, ofText, stored]

/-- Soundness: a stream on which the parser completes a request begins with the
text of one. -/
theorem exists_text {s : Bytes} (haccepts : (parser.run (fresh.push s)).1 = true)
    (hgot : (parser.run (fresh.push s)).2.gotAll = true) :
    ∃ (m : RequestText) (rest : Bytes), s = m.bytes ++ rest := by
  cases hpass : (fresh.push s).pass with
  | done result =>
      rw [run_of_done hpass] at haccepts hgot
      cases round_of_pass hpass with
      | waits => cases hgot
      | badRequestLine | oneTooMany | badHeader => cases haccepts
      | body hother => cases hother
  | again r' =>
      rw [run_of_again hpass] at haccepts hgot
      cases round_of_pass hpass with
      | blankLine _ hother | headerLine _ _ hother => cases hother
      | requestLine line rest _ hs hline =>
          obtain ⟨lines, tail, hbuf, hvalid, hcount, hlong⟩ :=
            exists_headerLines rfl rfl (Nat.zero_le _) haccepts hgot
          rw [size_storeHeaders rfl] at hcount
          rw [contentLength_storeHeaders_fresh rfl] at hlong
          let m : RequestText :=
            { requestLine := line
              headerLines := lines
              body := tail.take (declaredLength lines)
              requestLine_oneLine := hline.oneLine
              requestLine_spaces := hline.spaces
              requestLine_version := hline.version
              headerLines_valid := hvalid
              headerLines_names := hcount
              body_length := List.length_take_of_le hlong }
          refine ⟨m, tail.drop (declaredLength lines), ?_⟩
          have hsplit : s = line ++ (crlf ++ rest) := hs
          dsimp only at hbuf
          rw [hsplit, hbuf]
          simp [m, RequestText.bytes]

/-- The text of the request that has been accepted, and its body. -/
theorem text_of_accepts {pieces : List Bytes} (haccepts : (fresh.parseAll pieces).1 = true)
    (hgot : (fresh.parseAll pieces).2.gotAll = true) :
    (∃ (m : RequestText) (rest : Bytes), pieces.flatten = m.bytes ++ rest) ∧
      ∀ (m : RequestText) (rest : Bytes), pieces.flatten = m.bytes ++ rest →
        (fresh.parseAll pieces).2.body = m.body := by
  obtain ⟨hrun, hview⟩ := parseAll_fresh_of_accepts haccepts
  have hcomplete : (parser.run (fresh.push pieces.flatten)).2.gotAll = true :=
    (congrArg View.gotAll hview).trans hgot
  refine ⟨exists_text hrun hcomplete, ?_⟩
  intro m rest htext
  have hbody : (parser.run (fresh.push pieces.flatten)).2.body =
      (fresh.parseAll pieces).2.body := congrArg View.body hview
  rw [← hbody, htext, run_ofText]
  rfl

/-- **The parser accepts exactly its grammar and extracts exactly the parts.**
A fresh request completes on a stream of at most 64 KB if and only if the
stream begins with the text of a request; then every field is the part of the
text it is named after and the bytes behind the request are still buffered. -/
theorem parse_accepts_exactly_grammar (s : Bytes) (hsize : s.length ≤ kMaxRequestSize) :
    ((fresh.parse s).1 = true ∧ (fresh.parse s).2.gotAll = true ↔
      ∃ (m : RequestText) (rest : Bytes), s = m.bytes ++ rest) ∧
    ∀ (m : RequestText) (rest : Bytes), s = m.bytes ++ rest →
      (fresh.parse s).2.method = beforeFirst space m.requestLine ∧
      (fresh.parse s).2.path =
        normalizePath (beforeLast space (afterFirst space m.requestLine)) ∧
      (fresh.parse s).2.version = afterLast space m.requestLine ∧
      (∀ key, (fresh.parse s).2.getHeader key = m.header key) ∧
      (fresh.parse s).2.body = m.body ∧
      (fresh.parse s).2.buf = rest := by
  have hfeed : fresh.parse s = parser.run (fresh.push s) :=
    if_neg (by simpa [fresh] using hsize)
  refine ⟨⟨?_, ?_⟩, ?_⟩
  · rintro ⟨haccepts, hgot⟩
    rw [hfeed] at haccepts hgot
    exact exists_text haccepts hgot
  · rintro ⟨m, rest, rfl⟩
    rw [hfeed, run_ofText]
    exact ⟨rfl, rfl⟩
  · rintro m rest rfl
    rw [hfeed, run_ofText]
    have hframe := storeHeaders_parts (fresh.storeRequestLine m.requestLine) m.headerLines
    refine ⟨hframe.1, hframe.2.1, hframe.2.2.1, fun key => ?_, rfl, rfl⟩
    exact valueOf_storeHeaders _ _ _

/-- A request with a repeated content length: the last one counts. -/
theorem parse_accepts_repeated_length :
    ∃ (m : RequestText) (rest : Bytes),
      literal "PUT a HTTP/1.0\r\ncontent-length: 7\r\nCONTENT-LENGTH: 2\r\n\r\nabc" =
        m.bytes ++ rest :=
  (parse_accepts_exactly_grammar
    (literal "PUT a HTTP/1.0\r\ncontent-length: 7\r\nCONTENT-LENGTH: 2\r\n\r\nabc")
    (by decide)).1.mp (by decide +kernel)

end HttpRequest

end EpollHttpServer.Http
