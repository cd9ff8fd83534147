/-
# Everything a round of the parser can do

One round of the loop in `parse` waits, takes a line that it accepts, takes a
line that it rejects, or takes the body.  `Round` says for each of these what
was at the front of the buffer and what the request is afterwards.  Statements
about whole runs of the loop are derived from it, by induction over the rounds.

A line is taken off the buffer before it is looked at, so a rejected line is
gone, and the request is left in the state in which it expected that line.
-/

import EpollHttpServer.Http.Lines
import EpollHttpServer.Http.Segmentation

namespace EpollHttpServer.Http

open EpollHttpServer.Lib

/-- A request line that the parser accepts. -/
structure IsRequestLine (line : Bytes) : Prop where
  oneLine : ¬ crlf <:+: line
  spaces : 2 ≤ line.count space
  version : httpSlash <+: afterLast space line

namespace HttpRequest

/-- What a rejected line has not changed. -/
structure Kept (r r' : HttpRequest) (rest : Bytes) : Prop where
  buf : r'.buf = rest
  state : r'.state = r.state
  contentLength : r'.contentLength = r.contentLength
  body : r'.body = r.body

/-- One round of the loop, with its result. -/
inductive Round (r : HttpRequest) : Pass HttpRequest (Bool × HttpRequest) → Prop where
  | waits (hidle : Idle r) : Round r (.done (true, r))
  | requestLine (line rest : Bytes) (hstate : r.state = .kExpectRequestLine)
      (hbuf : r.buf = line ++ (crlf ++ rest)) (hline : IsRequestLine line) :
      Round r (.again { r.storeRequestLine line with buf := rest, state := .kExpectHeaders })
  | badRequestLine (line rest : Bytes) (r' : HttpRequest)
      (hstate : r.state = .kExpectRequestLine) (hbuf : r.buf = line ++ (crlf ++ rest))
      (honeLine : ¬ crlf <:+: line) (hinvalid : ¬ IsRequestLine line) (hkept : Kept r r' rest) :
      Round r (.done (false, r'))
  | blankLine (rest : Bytes) (hstate : r.state = .kExpectHeaders) (hbuf : r.buf = crlf ++ rest) :
      Round r (.again { r with
        buf := rest
        state := if 0 < r.contentLength then .kExpectBody else .kGotAll })
  | headerLine (line rest : Bytes) (hstate : r.state = .kExpectHeaders)
      (hbuf : r.buf = line ++ (crlf ++ rest)) (hvalid : IsHeaderLine line)
      (hcount : HeaderMap.size (r.storeHeader line).headers ≤ kMaxHeaderCount) :
      Round r (.again { r.storeHeader line with buf := rest })
  | oneTooMany (line rest : Bytes) (hstate : r.state = .kExpectHeaders)
      (hbuf : r.buf = line ++ (crlf ++ rest)) (hvalid : IsHeaderLine line)
      (hcount : kMaxHeaderCount < HeaderMap.size (r.storeHeader line).headers) :
      Round r (.done (false, { r.storeHeader line with buf := rest }))
  | badHeader (line rest : Bytes) (r' : HttpRequest) (hstate : r.state = .kExpectHeaders)
      (hbuf : r.buf = line ++ (crlf ++ rest)) (hne : line ≠ []) (honeLine : ¬ crlf <:+: line)
      (hinvalid : ¬ IsHeaderLine line) (hkept : Kept r r' rest) : Round r (.done (false, r'))
  | body (hstate : r.state = .kExpectBody) (hall : r.contentLength ≤ r.buf.length) :
      Round r (.done (true, finish r))

/-- A rejected request line leaves everything but the parts it has stored. -/
theorem kept_of_bad_requestLine {r r' : HttpRequest} {line rest : Bytes}
    (hparse : parseRequestLine { r with buf := rest } line = (false, r')) : Kept r r' rest := by
  by_cases hspaces : 2 ≤ line.count space
  · rw [parseRequestLine_of_spaces _ hspaces] at hparse
    rw [← (Prod.mk.inj hparse).2]
    exact ⟨rfl, rfl, rfl, rfl⟩
  · rw [parseRequestLine_of_few_spaces _ hspaces] at hparse
    rw [← (Prod.mk.inj hparse).2]
    exact ⟨rfl, rfl, rfl, rfl⟩

/-- A request line that is accepted is one. -/
theorem isRequestLine_of_parse {r r' : HttpRequest} {line : Bytes} (honeLine : ¬ crlf <:+: line)
    (hparse : r.parseRequestLine line = (true, r')) :
    IsRequestLine line ∧ r' = r.storeRequestLine line := by
  by_cases hspaces : 2 ≤ line.count space
  · rw [parseRequestLine_of_spaces _ hspaces] at hparse
    obtain ⟨hversion, hstored⟩ := Prod.mk.inj hparse
    exact ⟨⟨honeLine, hspaces, of_decide_eq_true hversion⟩, hstored.symm⟩
  · rw [parseRequestLine_of_few_spaces _ hspaces] at hparse
    cases hparse

/-- A header line that is accepted is one, and has been stored. -/
theorem storeHeader_of_parse {r r' : HttpRequest} {line : Bytes} (hne : line ≠ [])
    (honeLine : ¬ crlf <:+: line) (hparse : r.parseHeader line = (true, r')) :
    IsHeaderLine line ∧ r' = r.storeHeader line := by
  have hvalid := isHeaderLine_of_parseHeader hne honeLine hparse
  rw [parseHeader_of_valid _ hvalid] at hparse
  exact ⟨hvalid, (Prod.mk.inj hparse).2.symm⟩

/-- A request line that is rejected is none. -/
theorem not_isRequestLine_of_parse {r r' : HttpRequest} {line : Bytes}
    (hparse : r.parseRequestLine line = (false, r')) : ¬ IsRequestLine line := by
  intro hvalid
  rw [parseRequestLine_of_spaces _ hvalid.spaces, decide_eq_true hvalid.version] at hparse
  cases hparse

/-- A header line that is rejected is none. -/
theorem not_isHeaderLine_of_parse {r r' : HttpRequest} {line : Bytes}
    (hparse : r.parseHeader line = (false, r')) : ¬ IsHeaderLine line := by
  intro hvalid
  rw [parseHeader_of_valid _ hvalid] at hparse
  cases hparse

/-- A rejected header line may have been stored, but not its number. -/
theorem kept_of_bad_header {r r' : HttpRequest} {line rest : Bytes}
    (hparse : parseHeader { r with buf := rest } line = (false, r')) : Kept r r' rest := by
  unfold parseHeader at hparse
  split at hparse
  · cases hparse
    exact ⟨rfl, rfl, rfl, rfl⟩
  · dsimp only at hparse
    split at hparse
    · split at hparse
      · cases hparse
        exact ⟨rfl, rfl, rfl, rfl⟩
      · split at hparse
        · cases hparse
          exact ⟨rfl, rfl, rfl, rfl⟩
        · cases hparse
    · cases hparse

/-- The step lemma of the parser. -/
theorem pass_round (r : HttpRequest) : Round r r.pass := by
  have hbranch := r.pass_branch
  generalize r.pass = result at hbranch
  cases hbranch with
  | waits hidle => exact .waits hidle
  | requestLine pos r' hstate hpos hparse =>
      obtain ⟨hsplit, honeLine⟩ := exists_complete_line hpos
      obtain ⟨hvalid, rfl⟩ := isRequestLine_of_parse honeLine hparse
      exact .requestLine _ _ hstate hsplit hvalid
  | badRequestLine pos r' hstate hpos hparse =>
      obtain ⟨hsplit, honeLine⟩ := exists_complete_line hpos
      exact .badRequestLine _ _ r' hstate hsplit honeLine (not_isRequestLine_of_parse hparse)
        (kept_of_bad_requestLine hparse)
  | blankLine pos hstate hpos hblank =>
      obtain ⟨hsplit, -⟩ := exists_complete_line hpos
      rw [hblank, List.nil_append] at hsplit
      exact .blankLine _ hstate hsplit
  | headerLine pos r' hstate hpos hne hparse hcount =>
      obtain ⟨hsplit, honeLine⟩ := exists_complete_line hpos
      obtain ⟨hvalid, rfl⟩ := storeHeader_of_parse hne honeLine hparse
      exact .headerLine _ _ hstate hsplit hvalid hcount
  | oneTooMany pos r' hstate hpos hne hparse hcount =>
      obtain ⟨hsplit, honeLine⟩ := exists_complete_line hpos
      obtain ⟨hvalid, rfl⟩ := storeHeader_of_parse hne honeLine hparse
      exact .oneTooMany _ _ hstate hsplit hvalid hcount
  | badHeader pos r' hstate hpos hne hparse =>
      obtain ⟨hsplit, honeLine⟩ := exists_complete_line hpos
      exact .badHeader _ _ r' hstate hsplit hne honeLine (not_isHeaderLine_of_parse hparse)
        (kept_of_bad_header hparse)
  | body hstate hall => exact .body hstate hall

theorem round_of_pass {r : HttpRequest} {result : Pass HttpRequest (Bool × HttpRequest)}
    (hpass : r.pass = result) : Round r result :=
  hpass ▸ pass_round r

/-- What a caller can do with a request. -/
inductive Call where
  | parse (data : Bytes)
  | reset
  deriving DecidableEq, Repr

/-! ## Calls that are accepted -/

/-- A call that is accepted has room for its bytes, and runs the loop. -/
theorem parse_of_accepts {r : HttpRequest} {data : Bytes} (haccepts : (r.parse data).1 = true) :
    r.buf.length + data.length ≤ kMaxRequestSize ∧ r.parse data = parser.feed r data := by
  by_cases hsize : kMaxRequestSize < r.buf.length + data.length
  · rw [parse_of_too_large hsize] at haccepts
    cases haccepts
  · exact ⟨not_lt.mp hsize, parse_eq_feed (not_lt.mp hsize)⟩

theorem parseAll_of_accepts {r : HttpRequest} {pieces : List Bytes}
    (haccepts : (r.parseAll pieces).1 = true) : r.parseAll pieces = parser.feedAll r pieces := by
  induction pieces generalizing r with
  | nil => rfl
  | cons piece pieces ih =>
      rw [parseAll] at haccepts ⊢
      rw [Incremental.feedAll]
      cases hparse : r.parse piece with
      | mk verdict r' =>
          rw [hparse] at haccepts
          cases verdict with
          | false => cases haccepts
          | true =>
              have haccepted : (r.parse piece).1 = true := by rw [hparse]
              have hfeed := (parse_of_accepts haccepted).2
              rw [← hfeed, hparse]
              exact ih haccepts

/-- Whatever the chunks and however many bytes there are in total: if all calls
accept, the verdict and what can be observed are those of one run of the loop on
the concatenation. -/
theorem parseAll_fresh_of_accepts {pieces : List Bytes}
    (haccepts : (fresh.parseAll pieces).1 = true) :
    (parser.run (fresh.push pieces.flatten)).1 = true ∧
      (parser.run (fresh.push pieces.flatten)).2.view = (fresh.parseAll pieces).2.view := by
  obtain ⟨hverdict, hview⟩ := parser.feedAll_flatten view view_push fresh run_fresh pieces
  rw [← parseAll_of_accepts haccepts] at hverdict hview
  exact ⟨hverdict.symm.trans haccepts, hview.symm⟩

/-! ## Sizes -/

theorem Round.again_body {r r' : HttpRequest} (hround : Round r (.again r')) :
    r'.body = r.body := by
  cases hround with
  | requestLine | blankLine | headerLine => rfl

theorem Round.done_body_length_le {r r' : HttpRequest} {verdict : Bool}
    (hround : Round r (.done (verdict, r'))) :
    r'.body.length ≤ max r.body.length r.buf.length := by
  cases hround with
  | waits | oneTooMany => exact le_max_left ..
  | badRequestLine line rest r' _ _ _ _ hkept | badHeader line rest r' _ _ _ _ _ hkept =>
      rw [hkept.body]
      exact le_max_left ..
  | body =>
      show (r.buf.take r.contentLength).length ≤ _
      rw [List.length_take]
      exact le_max_of_le_right (min_le_right ..)

/-- A body was buffered before it was taken. -/
theorem run_body_length_le (r : HttpRequest) :
    (parser.run r).2.body.length ≤ max r.body.length r.buf.length := by
  apply Loop.run_induction (L := parser.toLoop)
    (P := fun r result => result.2.body.length ≤ max r.body.length r.buf.length)
  · rintro r ⟨verdict, r'⟩ hpass
    exact (round_of_pass hpass).done_body_length_le
  · intro r r' hpass ih
    rw [(round_of_pass hpass).again_body] at ih
    exact ih.trans (max_le_max le_rfl (pass_decreases hpass).le)

/-- No call makes the buffer larger than the limit. -/
theorem parse_buf_length_le {r : HttpRequest} (data : Bytes)
    (hbuf : r.buf.length ≤ kMaxRequestSize) : (r.parse data).2.buf.length ≤ kMaxRequestSize := by
  by_cases hsize : kMaxRequestSize < r.buf.length + data.length
  · rw [parse_of_too_large hsize]
    exact hbuf
  · rw [parse_eq_feed (not_lt.mp hsize)]
    exact (feed_buf_length_le r data).trans (not_lt.mp hsize)

/-- No call makes the buffer or the body larger than the limit. -/
theorem parse_lengths_le {r : HttpRequest} (data : Bytes)
    (hbuf : r.buf.length ≤ kMaxRequestSize) (hbody : r.body.length ≤ kMaxRequestSize) :
    (r.parse data).2.buf.length ≤ kMaxRequestSize ∧
      (r.parse data).2.body.length ≤ kMaxRequestSize := by
  refine ⟨parse_buf_length_le data hbuf, ?_⟩
  by_cases hsize : kMaxRequestSize < r.buf.length + data.length
  · rw [parse_of_too_large hsize]
    exact hbody
  · have hfits := not_lt.mp hsize
    have hpushed : (r.push data).buf.length ≤ kMaxRequestSize := by
      rwa [push_buf, List.length_append]
    rw [parse_eq_feed hfits]
    exact (run_body_length_le (r.push data)).trans (max_le hbody hpushed)

theorem parseAll_lengths_le {r : HttpRequest} (pieces : List Bytes)
    (hbuf : r.buf.length ≤ kMaxRequestSize) (hbody : r.body.length ≤ kMaxRequestSize) :
    (r.parseAll pieces).2.buf.length ≤ kMaxRequestSize ∧
      (r.parseAll pieces).2.body.length ≤ kMaxRequestSize := by
  induction pieces generalizing r with
  | nil => exact ⟨hbuf, hbody⟩
  | cons piece pieces ih =>
      have hlengths := parse_lengths_le piece hbuf hbody
      rw [parseAll]
      cases hparse : r.parse piece with
      | mk verdict r' =>
          rw [hparse] at hlengths
          cases verdict with
          | false => exact hlengths
          | true => exact ih hlengths.1 hlengths.2

end HttpRequest

end EpollHttpServer.Http
