/-
# Requests that a client sends as a whole

A client that does not pipeline sends byte strings that the parser accepts
completely, with nothing left over.  While such a request arrives in pieces the
parser is never satisfied early and never rejects, and with the last piece it
is where one call on the whole request would have led.
-/

import EpollHttpServer.Http.Segmentation

namespace EpollHttpServer.Http

open EpollHttpServer.Lib

/-- A byte string that is exactly one request. -/
structure CompleteRequest where
  bytes : Bytes
  size_le : bytes.length ≤ kMaxRequestSize
  accepted : (HttpRequest.fresh.parse bytes).1 = true
  complete : (HttpRequest.fresh.parse bytes).2.gotAll = true
  nothingLeft : (HttpRequest.fresh.parse bytes).2.buf = []

namespace CompleteRequest

/-- What a fresh `HttpRequest` makes of the bytes. -/
def request (r : CompleteRequest) : HttpRequest :=
  (HttpRequest.fresh.parse r.bytes).2

variable (r : CompleteRequest)

theorem parse_bytes : HttpRequest.fresh.parse r.bytes = (true, r.request) :=
  Prod.ext r.accepted rfl

theorem gotAll_request : r.request.gotAll = true := r.complete

theorem bytes_ne_nil : r.bytes ≠ [] := by
  intro hempty
  have hcomplete := r.complete
  rw [hempty] at hcomplete
  revert hcomplete
  decide +kernel

variable {r}

/-- One more piece of the request is parsed as if it had arrived with the
pieces before it. -/
theorem parse_piece {part piece rest : Bytes} {q : HttpRequest}
    (hbytes : r.bytes = part ++ piece ++ rest)
    (hpart : HttpRequest.fresh.parse part = (true, q)) :
    q.parse piece = HttpRequest.fresh.parse (part ++ piece) := by
  have hsize := r.size_le
  rw [hbytes, List.length_append, List.length_append] at hsize
  have hfits : HttpRequest.fresh.buf.length + part.length + piece.length ≤ kMaxRequestSize := by
    show 0 + part.length + piece.length ≤ kMaxRequestSize
    omega
  have happend := HttpRequest.parse_append hfits
  rw [hpart] at happend
  exact happend.symm

/-- A part of the request is accepted and does not complete it. -/
theorem parse_part {part rest : Bytes} (hbytes : r.bytes = part ++ rest) (hrest : rest ≠ []) :
    ∃ q, HttpRequest.fresh.parse part = (true, q) ∧ q.gotAll = false := by
  have hsize := r.size_le
  rw [hbytes, List.length_append] at hsize
  have hfits : HttpRequest.fresh.buf.length + part.length + rest.length ≤ kMaxRequestSize := by
    show 0 + part.length + rest.length ≤ kMaxRequestSize
    omega
  have happend := HttpRequest.parse_append hfits
  rw [← hbytes, r.parse_bytes] at happend
  cases hpart : HttpRequest.fresh.parse part with
  | mk verdict q =>
      rw [hpart] at happend
      cases verdict with
      | false => cases happend
      | true =>
          refine ⟨q, rfl, ?_⟩
          by_contra hgot
          have hbuf : q.buf.length ≤ part.length := by
            have hle := HttpRequest.feed_buf_length_le .fresh part
            rw [← HttpRequest.parse_eq_feed (by show 0 + _ ≤ _; omega), hpart] at hle
            simpa [HttpRequest.fresh] using hle
          have hsmall : q.buf.length + rest.length ≤ kMaxRequestSize := by omega
          have hswallowed := HttpRequest.parse_of_gotAll (Bool.eq_true_of_not_eq_false hgot) hsmall
          have hleft : r.request = q.push rest :=
            congrArg Prod.snd (happend.trans hswallowed)
          have hnothing : (q.push rest).buf = [] := hleft ▸ r.nothingLeft
          rw [HttpRequest.push_buf, List.append_eq_nil_iff] at hnothing
          exact hrest hnothing.2

end CompleteRequest

end EpollHttpServer.Http
