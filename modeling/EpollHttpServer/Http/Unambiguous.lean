/-
# Where a request ends

A stream can be read as requests in one way only: the first line of the stream
is the request line, the header lines go to the blank line, and they say how
long the body is.  No request is the beginning of another one, so the bytes
that follow a request on the wire do not take part in what it says, and two
readers of one stream cannot disagree about where a request ends.
-/

import EpollHttpServer.Lib.PrefixCode
import EpollHttpServer.Http.Grammar

namespace EpollHttpServer.Http

open EpollHttpServer.Lib InformationTheory

namespace RequestText

/-- The header lines of a stream end at its first blank line. -/
theorem linesBytes_unique {lines lines' : List Bytes} {tail tail' : Bytes}
    (hvalid : ∀ line ∈ lines, IsHeaderLine line) (hvalid' : ∀ line ∈ lines', IsHeaderLine line)
    (heq : linesBytes lines ++ (crlf ++ tail) = linesBytes lines' ++ (crlf ++ tail')) :
    lines = lines' ∧ tail = tail' := by
  induction lines generalizing lines' with
  | nil =>
      cases lines' with
      | nil => exact ⟨rfl, List.append_cancel_left heq⟩
      | cons line' lines' =>
          have hline' := hvalid' line' (List.mem_cons_self ..)
          rw [linesBytes_cons, List.append_assoc, List.append_assoc] at heq
          have hblank :=
            (HttpRequest.firstLine_unique HttpRequest.not_infix_nil hline'.oneLine heq).1
          exact absurd hblank.symm hline'.nonempty
  | cons line lines ih =>
      have hline := hvalid line (List.mem_cons_self ..)
      rw [linesBytes_cons, List.append_assoc, List.append_assoc] at heq
      cases lines' with
      | nil =>
          have hblank :=
            (HttpRequest.firstLine_unique hline.oneLine HttpRequest.not_infix_nil heq).1
          exact absurd hblank hline.nonempty
      | cons line' lines' =>
          have hline' := hvalid' line' (List.mem_cons_self ..)
          rw [linesBytes_cons, List.append_assoc, List.append_assoc] at heq
          obtain ⟨rfl, hrest⟩ := HttpRequest.firstLine_unique hline.oneLine hline'.oneLine heq
          obtain ⟨rfl, htail⟩ := ih (fun other hmem => hvalid other (List.mem_cons_of_mem _ hmem))
            (fun other hmem => hvalid' other (List.mem_cons_of_mem _ hmem)) hrest
          exact ⟨rfl, htail⟩

/-- A stream starts with one request at most. -/
theorem unique_of_append {m m' : RequestText} {rest rest' : Bytes}
    (heq : m.bytes ++ rest = m'.bytes ++ rest') : m = m' ∧ rest = rest' := by
  have hsplit (m : RequestText) (rest : Bytes) : m.bytes ++ rest =
      m.requestLine ++ (crlf ++ (linesBytes m.headerLines ++ (crlf ++ (m.body ++ rest)))) := by
    simp [bytes]
  rw [hsplit, hsplit] at heq
  obtain ⟨hrequestLine, heq⟩ :=
    HttpRequest.firstLine_unique m.requestLine_oneLine m'.requestLine_oneLine heq
  obtain ⟨hheaderLines, heq⟩ := linesBytes_unique m.headerLines_valid m'.headerLines_valid heq
  have hlength : m.body.length = m'.body.length := by
    rw [m.body_length, m'.body_length, hheaderLines]
  obtain ⟨hbody, hrest⟩ := List.append_inj heq hlength
  refine ⟨?_, hrest⟩
  cases m
  cases m'
  dsimp only at hrequestLine hheaderLines hbody
  subst hrequestLine hheaderLines hbody
  rfl

theorem bytes_ne_nil (m : RequestText) : m.bytes ≠ [] := by
  simp [bytes, crlf]

theorem flatMap_bytes_injective {ms ms' : List RequestText}
    (hflat : ms.flatMap bytes = ms'.flatMap bytes) : ms = ms' := by
  have hdelimited : SelfDelimiting (Set.range bytes) := by
    rintro _ ⟨m, rfl⟩ _ ⟨m', rfl⟩ rest rest' heq
    rw [(unique_of_append heq).1]
  have hdecodable : UniquelyDecodable (Set.range bytes) := by
    apply hdelimited.uniquelyDecodable
    rintro ⟨m, hempty⟩
    exact bytes_ne_nil m hempty
  have hwords : ms.map bytes = ms'.map bytes := by
    apply hdecodable
    · simp
    · simp
    · simpa [List.flatMap] using hflat
  refine List.map_injective_iff.mpr (fun m m' hbytes => ?_) hwords
  have hwhole : m.bytes ++ [] = m'.bytes ++ [] := by rw [hbytes]
  exact (unique_of_append hwhole).1

/-- **A stream can be read as requests in one way only.** A stream on which the
parser completes a request starts with the text of exactly one, and what comes
behind this text is what the parser leaves in its buffer.  Two sequences of
requests that look the same on the wire are the same. -/
theorem requests_read_in_one_way :
    (∀ s : Bytes, s.length ≤ kMaxRequestSize → (HttpRequest.fresh.parse s).1 = true →
      (HttpRequest.fresh.parse s).2.gotAll = true →
        ∃! m : RequestText, ∃ rest, s = m.bytes ++ rest ∧
          rest = (HttpRequest.fresh.parse s).2.buf) ∧
      ∀ ms ms' : List RequestText, ms.flatMap bytes = ms'.flatMap bytes → ms = ms' := by
  refine ⟨fun s hsize haccepts hgot => ?_, fun ms ms' => flatMap_bytes_injective⟩
  have hfeed : HttpRequest.fresh.parse s =
      HttpRequest.parser.run (HttpRequest.fresh.push s) :=
    if_neg (by simpa [HttpRequest.fresh] using hsize)
  rw [hfeed] at haccepts hgot ⊢
  obtain ⟨m, rest, rfl⟩ := HttpRequest.exists_text haccepts hgot
  refine ⟨m, ⟨rest, rfl, by rw [HttpRequest.run_ofText]; rfl⟩, ?_⟩
  rintro m' ⟨rest', heq, _⟩
  exact (unique_of_append heq).1.symm

/-- Two pipelined requests, of which the first one has a body. -/
theorem requests_read_in_one_way_pipelined :
    ∃! m : RequestText, ∃ rest,
      literal "PUT /a HTTP/1.1\r\nContent-Length: 2\r\n\r\nhiGET / HTTP/1.1\r\n\r\n" =
        m.bytes ++ rest ∧
      rest = (HttpRequest.fresh.parse (literal
        "PUT /a HTTP/1.1\r\nContent-Length: 2\r\n\r\nhiGET / HTTP/1.1\r\n\r\n")).2.buf :=
  requests_read_in_one_way.1 _ (by decide) (by decide +kernel) (by decide +kernel)

end RequestText

end EpollHttpServer.Http
