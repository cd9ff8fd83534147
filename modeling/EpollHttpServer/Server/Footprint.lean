/-
# What a connection stores

A connection keeps a request and the rest of a response.  The request holds no
more than the client has sent since the parser was last reset, its buffer and
its body no more than `kMaxRequestSize`; the rest of a response is the end of a
message.  The number of headers is bounded as well, but not by
`kMaxHeaderCount`: the header that is one too many is stored and rejected, the
response to it resets the parser only if it is written at once, and the client
decides whether that is possible.
-/

import EpollHttpServer.Http.Grammar
import EpollHttpServer.Http.Storage
import EpollHttpServer.Server.DeadSockets
import EpollHttpServer.Server.Provenance

namespace EpollHttpServer.Server

open EpollHttpServer.Lib EpollHttpServer.Http EpollHttpServer.Reactor

/-- What the parser has been given since its last reset. -/
structure Intake where
  /-- The verdict on the last bytes, and the request. -/
  parser : Bool × HttpRequest
  bytes : ℕ
  /-- The calls of `parse()` that were rejected. -/
  rejected : ℕ

namespace Intake

def fresh : Intake where
  parser := (true, .fresh)
  bytes := 0
  rejected := 0

/-- One more call of `parse()`. -/
def parse (intake : Intake) (data : Bytes) : Intake where
  parser := intake.parser.2.parse data
  bytes := intake.bytes + data.length
  rejected := intake.rejected + HttpRequest.excess (intake.parser.2.parse data).1

def hear (intake : Intake) : Effect → Intake
  | .read _ (.data data) => if data = [] then intake else intake.parse data
  | .reset => .fresh
  | _ => intake

/-- The request is bounded by what has been given. -/
structure Bounds (intake : Intake) : Prop where
  held_le : intake.parser.2.held ≤ intake.bytes
  buf_le : intake.parser.2.buf.length ≤ kMaxRequestSize
  body_le : intake.parser.2.body.length ≤ kMaxRequestSize
  headers_le : HeaderMap.size intake.parser.2.headers ≤ kMaxHeaderCount + intake.rejected

theorem bounds_fresh : fresh.Bounds where
  held_le := le_rfl
  buf_le := Nat.zero_le _
  body_le := Nat.zero_le _
  headers_le := Nat.zero_le _

theorem bounds_parse {intake : Intake} (hbounds : intake.Bounds) (data : Bytes) :
    (intake.parse data).Bounds := by
  obtain ⟨hheld, hheaders⟩ := HttpRequest.parse_heldWithin intake.parser.2 data
  obtain ⟨hbuf, hbody⟩ :=
    HttpRequest.parse_lengths_le data hbounds.buf_le hbounds.body_le
  refine ⟨hheld.trans (Nat.add_le_add_right hbounds.held_le _), hbuf, hbody,
    hheaders.trans ?_⟩
  have hmax := max_le (Nat.le_add_right kMaxHeaderCount intake.rejected) hbounds.headers_le
  rw [parse, ← Nat.add_assoc]
  exact Nat.add_le_add_right hmax _

/-- The step lemma. -/
theorem bounds_hear {intake : Intake} (hbounds : intake.Bounds) (e : Effect) :
    (intake.hear e).Bounds := by
  unfold hear
  split
  · split
    · exact hbounds
    · exact bounds_parse hbounds _
  · exact bounds_fresh
  · exact hbounds

theorem parser_hear (intake : Intake) (e : Effect) :
    (intake.hear e).parser = e.hear intake.parser := by
  cases e with
  | read _ result =>
      cases result with
      | data data => exact apply_ite parser _ _ _
      | error => rfl
  | _ => rfl

end Intake

/-- What the parser has been given since the last reset in a log. -/
def intake (log : List Effect) : Intake :=
  log.foldl Intake.hear .fresh

theorem parser_intake (log : List Effect) : (intake log).parser = heard log := by
  induction log using List.reverseRecOn with
  | nil => rfl
  | append_singleton log e ih =>
      rw [intake, heard, List.foldl_concat, List.foldl_concat, Intake.parser_hear]
      exact congrArg (Effect.hear · e) ih

/-- The run lemma. -/
theorem bounds_intake (log : List Effect) : (intake log).Bounds := by
  induction log using List.reverseRecOn with
  | nil => exact Intake.bounds_fresh
  | append_singleton log e ih =>
      rw [intake, List.foldl_concat]
      exact Intake.bounds_hear ih e

namespace Session

variable {service : Service} {s : Session}

/-- **What a client makes the server store.** In every run the request of a
connection holds no more bytes than the client has sent since the parser was
last reset, with at most `kMaxRequestSize` of them in the buffer and as many in
the body; it has at most one header over `kMaxHeaderCount` for each rejected
call since then; and what waits to be written is the end of one message. -/
theorem storage_bounded (service : Service) (s : Session)
    (hreach : (sessions service).Reachable s) :
    s.conn.request.held ≤ (intake s.log).bytes ∧
      s.conn.request.buf.length ≤ kMaxRequestSize ∧
      s.conn.request.body.length ≤ kMaxRequestSize ∧
      HeaderMap.size s.conn.request.headers ≤ kMaxHeaderCount + (intake s.log).rejected ∧
      (s.conn.writeBuf = [] ∨ ∃ msg, .respond msg ∈ s.log ∧ s.conn.writeBuf <:+ msg) := by
  have hexplained := explained_of_reachable hreach
  have hbounds := bounds_intake s.log
  have hrequest : s.conn.request = (intake s.log).parser.2 := by
    rw [parser_intake]
    exact hexplained.request
  rw [hrequest]
  exact ⟨hbounds.held_le, hbounds.buf_le, hbounds.body_le, hbounds.headers_le,
    hexplained.unsent⟩

/-- A header that is not one is rejected, and its response waits. -/
theorem storage_bounded_bad_header :
    ∃ s : Session, (intake s.log).bytes = 21 ∧ (intake s.log).rejected = 1 ∧
      s.conn.request.held ≤ 21 ∧ HeaderMap.size s.conn.request.headers ≤ 65 := by
  obtain ⟨s, hreach, hbytes, hrejected⟩ := Machine.exists_reachable_of_run
    (M := sessions plainService) (s := created 0 7)
    (P := fun s => (intake s.log).bytes = 21 ∧ (intake s.log).rejected = 1) Machine.anyStep
    [readable (literal "GET / HTTP/1.1\r\n") [], readable (literal "bad\r\n") []]
    ⟨0, 7, rfl⟩ (Machine.follows_anyStep _ _) (by decide +kernel)
  obtain ⟨hheld, -, -, hheaders, -⟩ := storage_bounded plainService s hreach
  rw [hbytes] at hheld
  rw [hrejected] at hheaders
  exact ⟨s, hbytes, hrejected, hheld, hheaders⟩

/-! ## A client that sends and does not read -/

theorem intake_append_read {log : List Effect} {fd : ℕ} {data : Bytes} (hne : data ≠ []) :
    intake (log ++ [.read fd (.data data)]) = (intake log).parse data := by
  rw [intake, List.foldl_concat]
  exact if_neg hne

/-- A response to which the kernel takes nothing waits as a whole. -/
theorem sendResponse_blocked (hlive : s.conn.Live) (resp : HttpResponse) :
    let msg := resp.toMessage service.order
    s.sendResponse service (.fail EAGAIN) resp = ⟨s.conn.buffer msg, s.log ++
      [.respond msg, .write s.fd msg (.error EAGAIN), .epollCtl s.fd (.mod (EPOLLIN ||| EPOLLOUT))]⟩
    := by
  have hmsg := HttpResponse.length_toMessage_pos service.order resp
  rcases sendResponse_cases service hlive (.fail EAGAIN) resp with
    ⟨hsent, _⟩ | ⟨n, _, hsent, hbuffered⟩ | ⟨hsent, _⟩ | ⟨hsent, _⟩
  · cases hsent
  · obtain rfl : n = 0 := (Option.some.inj hsent).symm
    rw [hbuffered, List.append_assoc]
    rfl
  · exact absurd (Option.some.inj hsent) hmsg.ne
  · exact absurd (Option.some.inj hsent) hmsg.ne

/-- As long as no request is complete and the kernel takes nothing, bytes are
parsed and nothing is reset. -/
theorem exists_unread (service : Service) (hlive : s.conn.Live) {data : Bytes} (hne : data ≠ [])
    (hfits : data.length ≤ readBufferSize)
    (hopen : (s.conn.request.parse data).2.gotAll = false) :
    ∃ t : Session, (sessions service).step s (readable data []) = some t ∧ t.conn.Live ∧
      t.conn.request = (s.conn.request.parse data).2 ∧
      intake t.log = (intake s.log).parse data := by
  have hmay : s.conn.channel.mayReport EPOLLIN := by
    refine ⟨hlive.registered, ?_⟩
    rw [hlive.events]
    split <;> decide
  have hstep : (sessions service).step s (readable data []) =
      some (s.dispatch service (readable data [])) := if_pos ⟨hmay, hfits⟩
  have hselects : s.selects (readable data []) = some .read := by
    have hinput : ¬ (EPOLLIN : Events).has EPOLLOUT ∧ (EPOLLIN : Events).has EPOLLIN := by decide
    rw [selects_of_live hlive]
    exact (if_neg hinput.1).trans (if_pos hinput.2)
  have hread : s.dispatch service (readable data []) =
      (s.notified EPOLLIN).onRead service (readable data []) := by
    rw [dispatch_eq, hselects]
    rfl
  refine ⟨_, hstep, ?_⟩
  rw [hread]
  have hlive' : (s.notified EPOLLIN).conn.Live := hlive.withRevents EPOLLIN
  generalize hresult : (s.notified EPOLLIN).onRead service (readable data []) = t
  have houtcome : ReadOutcome service (readable data []) (s.notified EPOLLIN) t :=
    hresult ▸ onRead_outcome hlive' (readable data [])
  cases houtcome with
  | failed errno hfailed => cases hfailed
  | ended hended => exact absurd (ReadResult.data.inj hended) hne
  | waiting bytes request hbytes _ hparse _ =>
      obtain rfl := ReadResult.data.inj hbytes
      replace hparse : s.conn.request.parse data = (true, request) := hparse
      rw [hparse]
      exact ⟨live_afterParse hlive' (.data data) request [], rfl, intake_append_read hne⟩
  | rejected bytes request hbytes _ hparse =>
      obtain rfl := ReadResult.data.inj hbytes
      replace hparse : s.conn.request.parse data = (false, request) := hparse
      have hparsed := live_afterParse hlive' (readable data []).read request []
      have hmsg := HttpResponse.length_toMessage_pos service.order .badRequest
      rw [hparse]
      show (sendResponse service (.fail EAGAIN) _ _).conn.Live ∧
        (sendResponse service (.fail EAGAIN) _ _).conn.request = _ ∧
        intake (sendResponse service (.fail EAGAIN) _ _).log = _
      rw [sendResponse_blocked hparsed]
      refine ⟨hparsed.buffer (List.ne_nil_of_length_pos hmsg), rfl, ?_⟩
      rw [intake, List.foldl_append]
      exact intake_append_read hne
  | answered bytes request hbytes _ hparse hgot =>
      obtain rfl := ReadResult.data.inj hbytes
      replace hparse : s.conn.request.parse data = (true, request) := hparse
      rw [hparse, hgot] at hopen
      cases hopen

/-- The client sends these lines one at a time, and the kernel takes nothing of
the responses. -/
def flood (lines : List Bytes) : List Dispatch :=
  lines.map fun line => readable (line ++ crlf) []

/-- The request line and then the header lines have each been sent on its own. -/
structure Flooded (service : Service) (requestLine : Bytes) (lines : List Bytes) (s : Session) :
    Prop where
  run : (sessions service).run (created 0 7) (flood (requestLine :: lines)) = some s
  reachable : (sessions service).Reachable s
  live : s.conn.Live
  request : s.conn.request = HttpRequest.storeHeaders
    { HttpRequest.fresh.storeRequestLine requestLine with state := .kExpectHeaders } lines
  rejected : (intake s.log).rejected = lines.length - kMaxHeaderCount

/-- A new connection that has been sent the request line. -/
theorem exists_flooded_nil (service : Service) {requestLine : Bytes}
    (hline : IsRequestLine requestLine)
    (hfits : (requestLine ++ crlf).length ≤ readBufferSize) :
    ∃ s, Flooded service requestLine [] s := by
  have hsize : (requestLine ++ crlf).length ≤ kMaxRequestSize := hfits.trans (by decide)
  have hne : requestLine ++ crlf ≠ [] := List.append_ne_nil_of_right_ne_nil _ crlf_ne_nil
  have hparse := HttpRequest.parse_requestLine (r := .fresh) rfl rfl hline hsize
  have hopen : ((created 0 7).conn.request.parse (requestLine ++ crlf)).2.gotAll = false := by
    show (HttpRequest.fresh.parse (requestLine ++ crlf)).2.gotAll = false
    rw [hparse]
    rfl
  have hcreated : (sessions service).Reachable (created 0 7) := .of_init ⟨0, 7, rfl⟩
  obtain ⟨s, hstep, hlive, hrequest, hintake⟩ :=
    exists_unread service (live_created 0 7) hne hfits hopen
  have hrun : (sessions service).run (created 0 7) (flood [requestLine]) = some s := by
    rw [flood, List.map_singleton, Machine.run_cons, hstep]
    rfl
  refine ⟨s, hrun, hcreated.next trivial hstep, hlive,
    hrequest.trans (congrArg Prod.snd hparse), ?_⟩
  rw [hintake]
  show 0 + HttpRequest.excess (HttpRequest.fresh.parse (requestLine ++ crlf)).1 = _
  rw [hparse]
  rfl

/-- One more header line is stored, and accepted as long as there are not too many. -/
theorem Flooded.parse_next {requestLine : Bytes} {lines : List Bytes} {line : Bytes}
    (hs : Flooded service requestLine lines s) (hvalid : IsHeaderLine line)
    (hfits : (line ++ crlf).length ≤ readBufferSize)
    (hnames : ((lines ++ [line]).map headerName).Nodup) :
    s.conn.request.parse (line ++ crlf) =
      (decide (lines.length < kMaxHeaderCount), s.conn.request.storeHeader line) := by
  have hsize : (line ++ crlf).length ≤ kMaxRequestSize := hfits.trans (by decide)
  have hstate : s.conn.request.state = .kExpectHeaders := by
    rw [hs.request, HttpRequest.storeHeaders_state]
  have hbuf : s.conn.request.buf = [] := by
    rw [hs.request, HttpRequest.storeHeaders_buf]
    rfl
  have hcount : HeaderMap.size (s.conn.request.storeHeader line).headers = lines.length + 1 := by
    rw [hs.request, ← HttpRequest.storeHeaders_concat, HttpRequest.size_storeHeaders rfl,
      List.toFinset_card_of_nodup hnames]
    simp
  rw [HttpRequest.parse_headerLine hstate hbuf hvalid hsize, hcount]
  rfl

/-- The step lemma. -/
theorem Flooded.exists_next {requestLine : Bytes} {lines : List Bytes} {line : Bytes}
    (hs : Flooded service requestLine lines s) (hvalid : IsHeaderLine line)
    (hfits : (line ++ crlf).length ≤ readBufferSize)
    (hnames : ((lines ++ [line]).map headerName).Nodup) :
    ∃ t, Flooded service requestLine (lines ++ [line]) t := by
  have hne : line ++ crlf ≠ [] := List.append_ne_nil_of_right_ne_nil _ crlf_ne_nil
  have hparse := hs.parse_next hvalid hfits hnames
  have hopen : (s.conn.request.parse (line ++ crlf)).2.gotAll = false := by
    have hkept : (s.conn.request.storeHeader line).state = .kExpectHeaders := by
      show s.conn.request.state = _
      rw [hs.request, HttpRequest.storeHeaders_state]
    rw [hparse, HttpRequest.gotAll, hkept]
    rfl
  obtain ⟨t, hstep, hlive, hrequest, hintake⟩ :=
    exists_unread service hs.live hne hfits hopen
  refine ⟨t, ?_, hs.reachable.next trivial hstep, hlive, ?_, ?_⟩
  · have hrun := hs.run
    rw [flood] at hrun ⊢
    rw [← List.cons_append, List.map_append, Machine.run_append, hrun, Option.bind_some,
      List.map_singleton, Machine.run_cons, hstep]
    rfl
  · rw [hrequest, hparse, hs.request, HttpRequest.storeHeaders_concat]
  · have hparser : (intake s.log).parser.2 = s.conn.request := by
      rw [parser_intake]
      exact (explained_of_reachable hs.reachable).request.symm
    have hlength : (lines ++ [line]).length = lines.length + 1 := by simp
    rw [hintake, hlength]
    dsimp only [Intake.parse]
    rw [hparser, hparse, hs.rejected, HttpRequest.excess]
    simp only [decide_eq_true_eq]
    split <;> omega

/-- The run lemma. -/
theorem exists_flooded (service : Service) {requestLine : Bytes} {lines : List Bytes}
    (hline : IsRequestLine requestLine) (hlines : ∀ line ∈ lines, IsHeaderLine line)
    (hfits : ∀ line ∈ requestLine :: lines, (line ++ crlf).length ≤ readBufferSize)
    (hnames : (lines.map headerName).Nodup) : ∃ s, Flooded service requestLine lines s := by
  induction lines using List.reverseRecOn with
  | nil => exact exists_flooded_nil service hline (hfits _ (List.mem_cons_self ..))
  | append_singleton lines line ih =>
      have hbefore : (lines.map headerName).Nodup := by
        rw [List.map_append] at hnames
        exact hnames.of_append_left
      obtain ⟨s, hs⟩ := ih (fun other hmem => hlines other (List.mem_append_left _ hmem))
        (fun other hmem => hfits other (by
          rw [← List.cons_append]
          exact List.mem_append_left _ hmem)) hbefore
      exact hs.exists_next (hlines line (by simp)) (hfits line (by simp)) hnames

/-- **The limit on headers does not bound what is stored.** However many header
lines with different names a client sends, one at a time and without reading,
the connection stays open and stores all of them with their values: every line
over `kMaxHeaderCount` is rejected, no other is, and it is stored all the same.
So the bound of `storage_bounded` is reached for every number of rejected
calls. -/
theorem rejected_headers_stored (service : Service) (requestLine : Bytes) (lines : List Bytes)
    (hline : IsRequestLine requestLine) (hlines : ∀ line ∈ lines, IsHeaderLine line)
    (hfits : ∀ line ∈ requestLine :: lines, (line ++ crlf).length ≤ readBufferSize)
    (hnames : (lines.map headerName).Nodup) :
    (∃ s : Session,
      (sessions service).run (created 0 7) (flood (requestLine :: lines)) = some s ∧
        (sessions service).Reachable s ∧ s.conn.Live ∧
        s.conn.request.headers.keys.toFinset = (lines.map headerName).toFinset ∧
        HeaderMap.size s.conn.request.headers = lines.length ∧
        (∀ line ∈ lines,
          s.conn.request.getHeader (beforeFirst colon line) = headerValue line) ∧
        (intake s.log).rejected = lines.length - kMaxHeaderCount) ∧
    ∀ before line after, lines = before ++ line :: after → ∃ s : Session,
      (sessions service).run (created 0 7) (flood (requestLine :: before)) = some s ∧
        (s.conn.request.parse (line ++ crlf)).1 = decide (before.length < kMaxHeaderCount) := by
  refine ⟨?_, ?_⟩
  · obtain ⟨s, hs⟩ := exists_flooded service hline hlines hfits hnames
    have hkeys : s.conn.request.headers.keys.toFinset = (lines.map headerName).toFinset := by
      rw [hs.request, HttpRequest.keys_storeHeaders]
      simp [HttpRequest.storeRequestLine, HttpRequest.fresh]
    refine ⟨s, hs.run, hs.reachable, hs.live, hkeys, ?_, fun line hmem => ?_, hs.rejected⟩
    · rw [HeaderMap.size_eq_card, hkeys, List.toFinset_card_of_nodup hnames, List.length_map]
    · have hlast := lastLine_of_nodup hnames hmem
      rw [hs.request, HttpRequest.getHeader, HttpRequest.valueOf_storeHeaders]
      show (lastLine lines (headerName line)).elim _ headerValue = headerValue line
      rw [hlast, Option.elim_some]
  · rintro before line after rfl
    have hsplit : before ++ line :: after = (before ++ [line]) ++ after := by simp
    have hfirst : ((before ++ [line]).map headerName).Nodup := by
      rw [hsplit, List.map_append] at hnames
      exact hnames.of_append_left
    have hbefore : (before.map headerName).Nodup := by
      rw [List.map_append] at hfirst
      exact hfirst.of_append_left
    have hflooded : ∃ s, Flooded service requestLine before s :=
      exists_flooded service hline (fun other hmem => hlines other (List.mem_append_left _ hmem))
        (fun other hmem => hfits other (by
          rw [← List.cons_append]
          exact List.mem_append_left _ hmem)) hbefore
    obtain ⟨s, hs⟩ := hflooded
    refine ⟨s, hs.run, ?_⟩
    rw [hs.parse_next (hlines line (by simp)) (hfits line (by simp)) hfirst]

/-- Header lines whose names are the bytes from 128. -/
def manyLines : List Bytes :=
  (List.range 70).map fun i => [UInt8.ofNat (128 + i), colon]

theorem isHeaderLine_of_mem_manyLines : ∀ line ∈ manyLines, IsHeaderLine line := by
  have hlines : ∀ line ∈ manyLines, line ≠ [] ∧ ¬ crlf <:+: line ∧ colon ∈ line ∧
      headerName line ≠ contentLengthKey := by decide +kernel
  intro line hmem
  obtain ⟨hne, honeLine, hcolon, hname⟩ := hlines line hmem
  exact ⟨hne, honeLine, hcolon, fun hlength => absurd hlength hname⟩

theorem rejected_headers_stored_seventy :
    ∃ s : Session, s.conn.Live ∧ HeaderMap.size s.conn.request.headers = 70 ∧
      (intake s.log).rejected = 6 := by
  obtain ⟨s, -, -, hlive, -, hsize, -, hrejected⟩ :=
    (rejected_headers_stored plainService (literal "GET / HTTP/1.1") manyLines
      ⟨by decide +kernel, by decide +kernel, by decide +kernel⟩ isHeaderLine_of_mem_manyLines
      (by decide +kernel) (by decide +kernel)).1
  exact ⟨s, hlive, hsize, hrejected⟩

end Session

end EpollHttpServer.Server
