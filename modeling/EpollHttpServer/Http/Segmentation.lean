/-
# Parsing does not depend on how the stream is cut

The parser is an incremental consumer, so feeding it is an action of the list
monoid.  The size test of `parse` looks only at what is buffered; as long as
the whole stream stays within the limit it never fires, and `parse` inherits
the law.
-/

import EpollHttpServer.Http.Request

namespace EpollHttpServer.Http

open EpollHttpServer.Lib

namespace HttpRequest

/-- Everything the public accessors of a request can tell about it: its buffer,
its internal counter and the way it got there cannot be observed. -/
structure View where
  method : Bytes
  path : Bytes
  version : Bytes
  headers : HeaderMap
  body : Bytes
  gotAll : Bool

def view (r : HttpRequest) : View where
  method := r.method
  path := r.path
  version := r.version
  headers := r.headers
  body := r.body
  gotAll := r.gotAll

@[simp]
theorem view_push (r : HttpRequest) (more : Bytes) : (r.push more).view = r.view := rfl

/-- Successive calls of `parse`, up to the first that returns `false`. -/
def parseAll (r : HttpRequest) : List Bytes → Bool × HttpRequest
  | [] => (true, r)
  | piece :: pieces =>
    match r.parse piece with
    | (true, r') => parseAll r' pieces
    | (false, r') => (false, r')

/-- A round that leaves the loop leaves no more in the buffer than it found. -/
theorem pass_done_buf_length_le {r r' : HttpRequest} {verdict : Bool}
    (hpass : r.pass = .done (verdict, r')) : r'.buf.length ≤ r.buf.length := by
  have htaken := r.pass_buf
  rw [hpass] at htaken
  obtain ⟨count, hbuf⟩ := htaken
  rw [hbuf, List.length_drop]
  exact Nat.sub_le ..

/-- The loop only takes bytes out of the buffer. -/
theorem run_buf_length_le (r : HttpRequest) : (parser.run r).2.buf.length ≤ r.buf.length := by
  refine Loop.run_induction (L := parser.toLoop)
    (P := fun r result => result.2.buf.length ≤ r.buf.length) ?_ ?_ r
  · rintro r ⟨verdict, r'⟩ hpass
    exact pass_done_buf_length_le hpass
  · intro r r' hpass ih
    exact ih.trans (pass_decreases hpass).le

/-- Within the size limit `parse` is the bare loop. -/
theorem parse_eq_feed {r : HttpRequest} {data : Bytes}
    (hsize : r.buf.length + data.length ≤ kMaxRequestSize) :
    r.parse data = parser.feed r data :=
  if_neg (not_lt.mpr hsize)

theorem feed_buf_length_le (r : HttpRequest) (data : Bytes) :
    (parser.feed r data).2.buf.length ≤ r.buf.length + data.length := by
  have hle := run_buf_length_le (r.push data)
  rwa [push_buf, List.length_append] at hle

theorem parseAll_eq_feedAll {r : HttpRequest} {pieces : List Bytes}
    (hsize : r.buf.length + pieces.flatten.length ≤ kMaxRequestSize) :
    r.parseAll pieces = parser.feedAll r pieces := by
  induction pieces generalizing r with
  | nil => rfl
  | cons piece pieces ih =>
      rw [List.flatten_cons, List.length_append] at hsize
      rw [parseAll, Incremental.feedAll, parse_eq_feed (by omega)]
      have hbuf := feed_buf_length_le r piece
      cases hfeed : parser.feed r piece with
      | mk verdict r' =>
          cases verdict with
          | false => rfl
          | true =>
              rw [hfeed] at hbuf
              exact ih (by dsimp only at hbuf; omega)

/-- Two calls against one call on the same bytes. -/
theorem parse_append {r : HttpRequest} {first second : Bytes}
    (hsize : r.buf.length + first.length + second.length ≤ kMaxRequestSize) :
    r.parse (first ++ second) =
      match r.parse first with
      | (true, r') => r'.parse second
      | (false, r') => (false, r'.push second) := by
  have hbuf := feed_buf_length_le r first
  rw [parse_eq_feed (by rw [List.length_append]; omega), parse_eq_feed (by omega),
    parser.feed_append]
  cases hfeed : parser.feed r first with
  | mk verdict r' =>
      cases verdict with
      | false => rfl
      | true =>
          rw [hfeed] at hbuf
          exact (parse_eq_feed (by dsimp only at hbuf; omega)).symm

/-- A request that has just been constructed or reset waits for bytes. -/
theorem run_fresh : parser.run fresh = (true, fresh) :=
  run_of_done rfl

/-- **Segmentation independence.** For every request state, two calls of `parse`
and one call on the concatenation agree: with the whole resulting state when
the first call accepts, and with the rejection and everything that can be
observed when it does not.  Hence the verdict on a stream, and what can be
observed of the request parsed from it, do not depend on the cuts. -/
theorem parse_segmentation :
    (∀ (r : HttpRequest) (first second : Bytes),
      r.buf.length + first.length + second.length ≤ kMaxRequestSize →
      ((r.parse first).1 = true →
        r.parse (first ++ second) = (r.parse first).2.parse second) ∧
      ((r.parse first).1 = false →
        (r.parse (first ++ second)).1 = false ∧
          (r.parse (first ++ second)).2.view = (r.parse first).2.view)) ∧
    ∀ pieces : List Bytes, pieces.flatten.length ≤ kMaxRequestSize →
      (fresh.parseAll pieces).1 = (fresh.parse pieces.flatten).1 ∧
        (fresh.parseAll pieces).2.view = (fresh.parse pieces.flatten).2.view := by
  constructor
  · intro r first second hsize
    have happend := parse_append hsize
    cases hfirst : r.parse first with
    | mk verdict r' =>
        rw [hfirst] at happend
        cases verdict with
        | true => exact ⟨fun _ => happend, fun hfalse => absurd hfalse (by simp)⟩
        | false =>
            refine ⟨fun htrue => absurd htrue (by simp), fun _ => ?_⟩
            rw [happend]
            exact ⟨rfl, view_push r' second⟩
  · intro pieces hsize
    have hstart : fresh.buf.length + pieces.flatten.length ≤ kMaxRequestSize := by
      simpa [fresh] using hsize
    rw [parseAll_eq_feedAll hstart, parse_eq_feed hstart]
    exact parser.feedAll_flatten view view_push fresh run_fresh pieces

/-- A request cut between `'\r'` and `'\n'` and inside its body. -/
theorem parse_segmentation_cut_request :
    (fresh.parseAll [literal "POST / HTTP/1.1\r", literal "\nContent-Length: 3\r\n\r",
        literal "\nab", literal "c"]).2.view =
      (fresh.parse (literal "POST / HTTP/1.1\r\nContent-Length: 3\r\n\r\nabc")).2.view ∧
    (fresh.parse (literal "GET\r\n" ++ literal "x")).1 = false :=
  ⟨(parse_segmentation.2 [literal "POST / HTTP/1.1\r", literal "\nContent-Length: 3\r\n\r",
      literal "\nab", literal "c"] (by decide)).2,
    ((parse_segmentation.1 fresh (literal "GET\r\n") (literal "x") (by decide)).2
      (by decide +kernel)).1⟩

end HttpRequest

end EpollHttpServer.Http
