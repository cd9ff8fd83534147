/-
# Reading a response back

The response writer and the request parser are two halves of one format: behind
its status line a message is a head and a body such as the parser expects behind
a request line.  Here the parser's loop reads what `toMessage` has written.

Messages have no limits, so the loop is the one of `parse` without the limit on
the number of headers; the two agree on every head within the limit.
-/

import EpollHttpServer.Http.Framing

namespace EpollHttpServer.Http

open EpollHttpServer.Lib

namespace HttpRequest

/-! ## The loop without limits -/

/-- One round of the loop in `parse`, for any number of headers. -/
def passUnlimited (r : HttpRequest) : Pass HttpRequest (Bool × HttpRequest) :=
  match r.state with
  | .kExpectHeaders =>
    match find crlf r.buf with
    | none => .done (true, r)
    | some pos =>
      let line := r.buf.take pos
      let r' := { r with buf := r.buf.drop (pos + 2) }
      if line = [] then
        .again { r' with state := if 0 < r.contentLength then .kExpectBody else .kGotAll }
      else
        match parseHeader r' line with
        | (false, r'') => .done (false, r'')
        | (true, r'') => .again r''
  | .kExpectRequestLine | .kExpectBody | .kGotAll => r.pass

/-- The limit is the only difference. -/
theorem passUnlimited_cases (r : HttpRequest) :
    r.passUnlimited = r.pass ∨
      ∃ r' pos, r.passUnlimited = .again r' ∧ find crlf r.buf = some pos ∧
        r'.buf = r.buf.drop (pos + 2) ∧ kMaxHeaderCount < HeaderMap.size r'.headers := by
  cases hstate : r.state with
  | kExpectRequestLine | kExpectBody | kGotAll => exact .inl (by simp [passUnlimited, hstate])
  | kExpectHeaders =>
      cases hpos : find crlf r.buf with
      | none => exact .inl (by simp [passUnlimited, pass, hstate, hpos])
      | some pos =>
          by_cases hblank : r.buf.take pos = []
          · exact .inl (by simp [passUnlimited, pass, hstate, hpos, hblank])
          · have hbuf := parseHeader_buf { r with buf := r.buf.drop (pos + 2) } (r.buf.take pos)
            cases hline : parseHeader { r with buf := r.buf.drop (pos + 2) } (r.buf.take pos) with
            | mk verdict r' =>
                rw [hline] at hbuf
                rw [hstate] at hline
                cases verdict with
                | false =>
                    exact .inl (by simp [passUnlimited, pass, hstate, hpos, hblank, hline])
                | true =>
                    by_cases hmany : kMaxHeaderCount < HeaderMap.size r'.headers
                    · exact .inr ⟨r', pos, by simp [passUnlimited, hstate, hpos, hblank, hline],
                        rfl, hbuf, hmany⟩
                    · exact .inl (by
                        simp [passUnlimited, pass, hstate, hpos, hblank, hline, hmany])

theorem passUnlimited_decreases {r r' : HttpRequest} (hpass : r.passUnlimited = .again r') :
    r'.buf.length < r.buf.length := by
  rcases r.passUnlimited_cases with hsame | ⟨next, pos, hnext, hpos, hbuf, -⟩
  · exact pass_decreases (hsame.symm.trans hpass)
  · rw [hnext] at hpass
    cases hpass
    have hroom := length_behind_line hpos
    rw [← hbuf] at hroom
    omega

/-- The loop in `parse` without its limits. -/
def unlimited : Loop HttpRequest (Bool × HttpRequest) where
  pass := passUnlimited
  variant r := r.buf.length
  decreases := passUnlimited_decreases

theorem size_le_insert (headers : HeaderMap) (key value : Bytes) :
    HeaderMap.size headers ≤ HeaderMap.size (headers.insert key value) := by
  rw [HeaderMap.size_eq_card, HeaderMap.size_eq_card, HeaderMap.keys_toFinset_insert]
  exact Finset.card_le_card (Finset.subset_insert ..)

theorem size_le_parseHeader (r : HttpRequest) (line : Bytes) :
    HeaderMap.size r.headers ≤ HeaderMap.size (r.parseHeader line).2.headers := by
  unfold parseHeader
  split
  · exact le_rfl
  · dsimp only
    split
    · split
      · exact size_le_insert ..
      · split <;> exact size_le_insert ..
    · exact size_le_insert ..

/-- The request that a round leaves behind. -/
def left : Pass HttpRequest (Bool × HttpRequest) → HttpRequest
  | .again r => r
  | .done (_, r) => r

/-- Headers are never forgotten. -/
theorem size_le_passUnlimited (r : HttpRequest) :
    HeaderMap.size r.headers ≤ HeaderMap.size (left r.passUnlimited).headers := by
  unfold passUnlimited
  split
  · split
    · exact le_rfl
    · next pos hpos =>
      have hsize := size_le_parseHeader { r with buf := r.buf.drop (pos + 2) } (r.buf.take pos)
      dsimp only
      split
      · exact le_rfl
      · split <;> next hline => rwa [hline] at hsize
  · next hstate =>
    simp only [pass, hstate]
    split
    · exact le_rfl
    · next pos hpos =>
      have hkept :=
        parseRequestLine_headers { r with buf := r.buf.drop (pos + 2) } (r.buf.take pos)
      rw [hstate] at hkept
      split <;> next hline =>
        rw [hline] at hkept
        exact (congrArg HeaderMap.size hkept).ge
  · next hstate =>
    simp only [pass, hstate]
    split <;> exact le_rfl
  · next hstate =>
    simp only [pass, hstate]
    exact le_rfl

theorem unlimited_of_again {r r' : HttpRequest} (hpass : r.passUnlimited = .again r') :
    unlimited.run r = unlimited.run r' :=
  Loop.run_of_again (L := unlimited) hpass

theorem unlimited_of_done {r : HttpRequest} {result : Bool × HttpRequest}
    (hpass : r.passUnlimited = .done result) : unlimited.run r = result :=
  Loop.run_of_done (L := unlimited) hpass

theorem size_le_unlimited (r : HttpRequest) :
    HeaderMap.size r.headers ≤ HeaderMap.size (unlimited.run r).2.headers := by
  apply Loop.run_induction (L := unlimited)
    (P := fun r result => HeaderMap.size r.headers ≤ HeaderMap.size result.2.headers)
  · intro r result hpass
    have hsize := size_le_passUnlimited r
    rw [show r.passUnlimited = .done result from hpass] at hsize
    exact hsize
  · intro r r' hpass ih
    have hsize := size_le_passUnlimited r
    rw [show r.passUnlimited = .again r' from hpass] at hsize
    exact hsize.trans ih

/-- The loop of `parse` agrees with the loop without limits whenever that one
ends with no more headers than the limit allows. -/
theorem run_eq_unlimited {r : HttpRequest}
    (hcount : HeaderMap.size (unlimited.run r).2.headers ≤ kMaxHeaderCount) :
    parser.run r = unlimited.run r := by
  revert hcount
  apply Loop.run_induction (L := unlimited)
    (P := fun r result =>
      HeaderMap.size result.2.headers ≤ kMaxHeaderCount → parser.run r = result)
  · intro r result hpass _
    rcases r.passUnlimited_cases with hsame | ⟨next, -, hnext, -⟩
    · exact run_of_done (hsame.symm.trans hpass)
    · cases hnext.symm.trans hpass
  · intro r r' hpass ih hcount
    rcases r.passUnlimited_cases with hsame | ⟨next, -, hnext, -, -, hmany⟩
    · rw [run_of_again (hsame.symm.trans hpass)]
      exact ih hcount
    · cases hnext.symm.trans hpass
      exact absurd ((size_le_unlimited r').trans hcount) (not_le.mpr hmany)

/-! ## Valid heads -/

theorem passUnlimited_headerLine {r : HttpRequest} {line rest : Bytes}
    (hstate : r.state = .kExpectHeaders) (hbuf : r.buf = line ++ (crlf ++ rest))
    (hvalid : IsHeaderLine line) :
    r.passUnlimited = .again { r.storeHeader line with buf := rest } := by
  obtain ⟨hpos, hline, hrest⟩ := split_complete_line hvalid.oneLine rest
  simp [passUnlimited, hstate, hbuf, hpos, hline, hrest, hvalid.nonempty,
    parseHeader_of_valid _ hvalid, storeHeader]

theorem passUnlimited_blankLine {r : HttpRequest} {rest : Bytes}
    (hstate : r.state = .kExpectHeaders) (hbuf : r.buf = crlf ++ rest) :
    r.passUnlimited = .again { r with
      buf := rest
      state := if 0 < r.contentLength then .kExpectBody else .kGotAll } := by
  have hnil : ¬ crlf <:+: ([] : Bytes) := by simp [crlf_ne_nil]
  obtain ⟨hpos, -, hrest⟩ := split_complete_line hnil rest
  rw [List.nil_append, List.length_nil] at hpos hrest
  simp [passUnlimited, hstate, hbuf, hpos, hrest]

theorem unlimited_headerLines {r : HttpRequest} {lines : List Bytes} {tail : Bytes}
    (hstate : r.state = .kExpectHeaders)
    (hbuf : r.buf = RequestText.linesBytes lines ++ tail)
    (hvalid : ∀ line ∈ lines, IsHeaderLine line) :
    unlimited.run r = unlimited.run { r.storeHeaders lines with buf := tail } := by
  induction lines generalizing r with
  | nil =>
      rw [RequestText.linesBytes_nil, List.nil_append] at hbuf
      rw [storeHeaders_nil, ← hbuf]
  | cons line lines ih =>
      have hline := hvalid line (List.mem_cons_self ..)
      have hbuf' : r.buf = line ++ (crlf ++ (RequestText.linesBytes lines ++ tail)) := by
        rw [hbuf, RequestText.linesBytes_cons, List.append_assoc, List.append_assoc]
      have hothers : ∀ other ∈ lines, IsHeaderLine other := fun other hmem =>
        hvalid other (List.mem_cons_of_mem line hmem)
      have hrest := ih (r := { r.storeHeader line with
        buf := RequestText.linesBytes lines ++ tail }) hstate rfl hothers
      rw [unlimited_of_again (passUnlimited_headerLine hstate hbuf' hline), hrest,
        storeHeaders_setBuf, storeHeaders_cons]

/-- Behind the blank line a body that is there as a whole is taken. -/
theorem unlimited_blankLine {r : HttpRequest} {rest : Bytes}
    (hstate : r.state = .kExpectHeaders) (hbuf : r.buf = crlf ++ rest) (hbody : r.body = [])
    (hlong : r.contentLength ≤ rest.length) :
    unlimited.run r = (true, finish { r with buf := rest }) := by
  rw [unlimited_of_again (passUnlimited_blankLine hstate hbuf)]
  by_cases hpos : 0 < r.contentLength
  · apply unlimited_of_done
    simp [passUnlimited, pass, hpos, hlong, finish]
  · have hzero : r.contentLength = 0 := by omega
    apply unlimited_of_done
    simp [passUnlimited, pass, hzero, finish, hbody]

end HttpRequest

/-! ## The fields of a response as header lines -/

/-- A value that begins with something visible, so that trimming leaves it alone. -/
def VisibleStart (value : Bytes) : Prop :=
  ∃ b rest, value = b :: rest ∧ b ≠ space ∧ b ≠ tab

instance : DecidablePred VisibleStart := fun value =>
  match value with
  | [] => isFalse (by
      rintro ⟨b, rest, heq, -⟩
      cases heq)
  | b :: rest => decidable_of_iff (b ≠ space ∧ b ≠ tab) (by
      constructor
      · intro hvisible
        exact ⟨b, rest, rfl, hvisible⟩
      · rintro ⟨b', rest', heq, hvisible⟩
        cases heq
        exact hvisible)

namespace HttpResponse

/-- A value without blanks at its start follows the colon and one space. -/
theorem strippedValue_headerText {field : Bytes × Bytes} (hcolon : colon ∉ field.1)
    (hvisible : VisibleStart field.2) : strippedValue (headerText field) = field.2 := by
  obtain ⟨b, rest, hvalue, hspace, htab⟩ := hvisible
  rw [strippedValue, headerText_eq, afterFirst_append hcolon, hvalue,
    List.dropWhile_cons_of_pos (by decide), List.dropWhile_cons_of_neg (by simp [hspace, htab])]

theorem headerValue_headerText {field : Bytes × Bytes} (hcolon : colon ∉ field.1)
    (hvisible : VisibleStart field.2) : headerValue (headerText field) = field.2 := by
  have hstripped := strippedValue_headerText hcolon hvisible
  obtain ⟨b, rest, hvalue, hspace, htab⟩ := hvisible
  have hmem : b ∈ afterFirst colon (headerText field) := by
    rw [headerText_eq, afterFirst_append hcolon, hvalue]
    simp
  rw [headerValue, trimLeft_eq_dropWhile ⟨b, hmem, hspace, htab⟩]
  exact hstripped

theorem visibleStart_decimal (n : ℕ) : VisibleStart (decimal n) := by
  obtain ⟨b, rest, hsplit⟩ := List.exists_cons_of_ne_nil (decimal_ne_nil n)
  have hdigit : isDigit b = true := isDigit_of_mem_decimal (hsplit ▸ List.mem_cons_self ..)
  refine ⟨b, rest, hsplit, ?_, ?_⟩
  · rintro rfl
    exact absurd hdigit (by decide)
  · rintro rfl
    exact absurd hdigit (by decide)

/-- A response whose message can be read back. -/
structure Readable (resp : HttpResponse) : Prop where
  clean : resp.Clean
  apart : resp.NamesApart
  visible : ∀ name value, resp.headers.lookup name = some value → VisibleStart value
  body : resp.body.length < 2 ^ 63

/-- Calls that only ever set what can be read back. -/
theorem readable_built {calls : List Setter} (hcalls : ∀ call ∈ calls, call.Clean)
    (hdistinct : NamesDistinct calls)
    (hvisible : ∀ entry ∈ storedEntries calls, VisibleStart entry.2)
    (hbody : (built calls).body.length < 2 ^ 63) : (built calls).Readable := by
  refine ⟨clean_built hcalls, namesApart_built.mpr hdistinct, ?_, hbody⟩
  intro name value hlookup
  rw [lookup_built] at hlookup
  exact hvisible _ (mem_storedEntries_of_lastSet hlookup)

variable {order : IterationOrder} {resp : HttpResponse}

theorem visibleStart_connectionValue (resp : HttpResponse) :
    VisibleStart resp.connectionValue := by
  unfold connectionValue
  split
  · exact ⟨107, literal "eep-alive", by decide, by decide, by decide⟩
  · exact ⟨99, literal "lose", by decide, by decide, by decide⟩

theorem Readable.visibleStart (hreadable : resp.Readable) {field : Bytes × Bytes}
    (hmem : field ∈ resp.fields order) : VisibleStart field.2 := by
  rcases List.mem_append.mp hmem with hstored | hframing
  · exact hreadable.visible field.1 field.2 (mem_iterate.mp hstored)
  · rw [framingFields, List.mem_cons, List.mem_singleton] at hframing
    rcases hframing with rfl | rfl
    · exact visibleStart_decimal _
    · exact visibleStart_connectionValue resp

/-- The number in the content length line is the length of the body. -/
theorem Readable.strtol_length (hreadable : resp.Readable) :
    strtol (decimal resp.body.length) = some (resp.body.length : ℤ) := by
  apply strtol_decimal
  have hbody := hreadable.body
  rw [longMax]
  omega

/-- A field with the name of the content length is the one that `toMessage` adds. -/
theorem Readable.eq_length_of_name (hreadable : resp.Readable) {field : Bytes × Bytes}
    (hmem : field ∈ resp.fields order) (hname : lowered field.1 = contentLengthKey) :
    field = (literal "Content-Length", decimal resp.body.length) := by
  rcases List.mem_append.mp hmem with hstored | hframing
  · have hlookup := mem_iterate.mp (show (field.1, field.2) ∈ _ from hstored)
    have hkey : field.1 ∈ resp.headers := by
      rw [← AList.lookup_isSome, hlookup]
      rfl
    exact absurd hname (hreadable.apart.notFraming field.1 hkey).1
  · rw [framingFields, List.mem_cons, List.mem_singleton] at hframing
    rcases hframing with rfl | rfl
    · rfl
    · exact absurd hname (by decide : lowered (literal "Connection") ≠ contentLengthKey)

/-- Every line of the message is one that the parser accepts. -/
theorem Readable.isHeaderLine (hreadable : resp.Readable) {field : Bytes × Bytes}
    (hmem : field ∈ resp.fields order) : IsHeaderLine (headerText field) := by
  have hclean := hreadable.clean.cleanField hmem
  have hvisible := hreadable.visibleStart hmem
  refine ⟨headerText_ne_nil field, (unbroken_headerText hclean).oneLine, ?_, ?_⟩
  · rw [headerText_eq]
    simp
  · intro hname
    rw [headerName_headerText hclean.colon] at hname
    have hfield := hreadable.eq_length_of_name hmem hname
    rw [strippedValue_headerText hclean.colon hvisible, hfield]
    exact ⟨_, hreadable.strtol_length, Int.natCast_nonneg _⟩

/-- What the request that has read the lines holds under the name of a field. -/
theorem Readable.getHeader_storeHeaders (hreadable : resp.Readable) (q : HttpRequest)
    {field : Bytes × Bytes} (hmem : field ∈ resp.fields order) :
    (q.storeHeaders ((resp.fields order).map headerText)).getHeader field.1 = field.2 := by
  have hnodup := (nodup_names_iff order hreadable.clean).mpr hreadable.apart
  have hclean := hreadable.clean.cleanField hmem
  have hlast := lastLine_of_nodup hnodup (List.mem_map_of_mem (f := headerText) hmem)
  rw [headerName_headerText hclean.colon] at hlast
  rw [HttpRequest.getHeader, HttpRequest.valueOf_storeHeaders, hlast, Option.elim_some,
    headerValue_headerText hclean.colon (hreadable.visibleStart hmem)]

theorem Readable.contentLength_storeHeaders (hreadable : resp.Readable) (order : IterationOrder)
    (q : HttpRequest) :
    (q.storeHeaders ((resp.fields order).map headerText)).contentLength = resp.body.length := by
  have hfield : (literal "Content-Length", decimal resp.body.length) ∈ resp.fields order :=
    List.mem_append_right _ (List.mem_cons_self ..)
  have hnodup := (nodup_names_iff order hreadable.clean).mpr hreadable.apart
  have hcolon := (hreadable.clean.cleanField hfield).colon
  have hlast := lastLine_of_nodup hnodup (List.mem_map_of_mem (f := headerText) hfield)
  rw [headerName_headerText hcolon,
    (by decide : lowered (literal "Content-Length") = contentLengthKey)] at hlast
  rw [HttpRequest.contentLength_storeHeaders, hlast, Option.elim_some, lengthOf,
    strippedValue_headerText hcolon (visibleStart_decimal _), hreadable.strtol_length]
  rfl

/-- The request that has read a message, when `rest` follows the message. -/
def readBack (order : IterationOrder) (resp : HttpResponse) (q : HttpRequest) (rest : Bytes) :
    HttpRequest :=
  { q.storeHeaders ((resp.fields order).map headerText) with
    body := resp.body
    buf := rest
    state := .kGotAll }

/-- The loop takes the head and the body of a message off the stream, and not a
byte more. -/
theorem Readable.unlimited_run (hreadable : resp.Readable) (order : IterationOrder)
    {q : HttpRequest} (hstate : q.state = .kExpectHeaders) (hbuf : q.buf = []) (hbody : q.body = [])
    (rest : Bytes) :
    HttpRequest.unlimited.run (q.push (RequestText.linesBytes
      ((resp.fields order).map headerText) ++ (crlf ++ (resp.body ++ rest)))) =
        (true, readBack order resp q rest) := by
  have hlines : ∀ line ∈ (resp.fields order).map headerText, IsHeaderLine line := by
    intro line hmem
    obtain ⟨field, hfield, rfl⟩ := List.mem_map.mp hmem
    exact hreadable.isHeaderLine hfield
  let lines := (resp.fields order).map headerText
  let tail := crlf ++ (resp.body ++ rest)
  have hlength := hreadable.contentLength_storeHeaders order q
  have hparts := HttpRequest.storeHeaders_parts q lines
  have hkept := HttpRequest.storeHeaders_state q lines
  have hmoved : ({ (q.push (RequestText.linesBytes lines ++ tail)).storeHeaders lines with
      buf := tail } : HttpRequest) = { q.storeHeaders lines with buf := tail } := by
    rw [HttpRequest.push, HttpRequest.storeHeaders_setBuf]
  have hread : HttpRequest.unlimited.run { q.storeHeaders lines with buf := tail } =
      (true, HttpRequest.finish { q.storeHeaders lines with buf := resp.body ++ rest }) := by
    have hlong : (q.storeHeaders lines).contentLength ≤ (resp.body ++ rest).length := by
      rw [hlength, List.length_append]
      exact Nat.le_add_right ..
    exact HttpRequest.unlimited_blankLine (r := { q.storeHeaders lines with buf := tail })
      (hkept.trans hstate) rfl (hparts.2.2.2.trans hbody) hlong
  calc
    HttpRequest.unlimited.run (q.push (RequestText.linesBytes lines ++ tail)) =
        HttpRequest.unlimited.run { q.storeHeaders lines with buf := tail } := by
      rw [← hmoved]
      exact HttpRequest.unlimited_headerLines hstate (by simp [hbuf]) hlines
    _ = (true, HttpRequest.finish { q.storeHeaders lines with buf := resp.body ++ rest }) := hread
    _ = (true, readBack order resp q rest) := by
      simp [HttpRequest.finish, readBack, lines, hlength]

/-! ## Messages on a stream -/

/-- What a request that has read a message says about the response that was
written, when `rest` follows the message. -/
structure Carries (calls : List Setter) (rest : Bytes) (r : HttpRequest) : Prop where
  complete : r.gotAll = true
  body : r.body = (built calls).body
  remainder : r.buf = rest
  header : ∀ name value, lastSet calls name = some value → r.getHeader name = value
  connection : r.getHeader connectionKey =
    if (built calls).keepAlive then literal "keep-alive" else literal "close"

theorem carries_readBack {calls : List Setter} (hreadable : (built calls).Readable)
    (order : IterationOrder) (q : HttpRequest) (rest : Bytes) :
    Carries calls rest (readBack order (built calls) q rest) := by
  refine ⟨rfl, rfl, rfl, ?_, ?_⟩
  · intro name value hlast
    have hmem : (name, value) ∈ (built calls).fields order := by
      apply List.mem_append_left
      rw [mem_iterate, lookup_built]
      exact hlast
    exact hreadable.getHeader_storeHeaders q hmem
  · have hmem : (literal "Connection", (built calls).connectionValue) ∈
        (built calls).fields order :=
      List.mem_append_right _ (List.mem_cons_of_mem _ (List.mem_cons_self ..))
    have hstored := hreadable.getHeader_storeHeaders q hmem
    have hkey : lowered connectionKey = lowered (literal "Connection") := by decide
    rw [HttpRequest.getHeader, ← hkey] at hstored
    exact hstored

/-- A request that expects headers. -/
def expecting : HttpRequest :=
  { HttpRequest.fresh with state := .kExpectHeaders }

/-- Skip a status line and read the rest of the message with the request parser. -/
def readMessage (stream : Bytes) : Option HttpRequest :=
  match behindLine stream with
  | none => none
  | some rest =>
    match HttpRequest.unlimited.run (expecting.push rest) with
    | (true, r) => if r.gotAll then some r else none
    | (false, _) => none

/-- Read so many messages, and return what is left of the stream. -/
def readMessages : ℕ → Bytes → Option (List HttpRequest × Bytes)
  | 0, stream => some ([], stream)
  | count + 1, stream =>
    match readMessage stream with
    | none => none
    | some r => (readMessages count r.buf).map fun (rs, rest) => (r :: rs, rest)

theorem readMessage_toMessage {calls : List Setter} (hreadable : (built calls).Readable)
    (order : IterationOrder) (rest : Bytes) :
    readMessage ((built calls).toMessage order ++ rest) =
      some (readBack order (built calls) expecting rest) := by
  have hrun := hreadable.unlimited_run order (q := expecting) rfl rfl rfl rest
  rw [readMessage, behindLine_toMessage order hreadable.clean.message]
  simp only [hrun]
  rfl

/-- **A message is read back as it was meant.** For every response that calls of
the setters have built within the grammar of header lines, for every order in
which its headers are iterated and for every continuation of the stream: behind
the status line the parser's loop completes, with the body of the response, the
last value set under every name and the fate of the connection, and leaves
exactly the continuation.  Hence a stream of such messages is cut where they end. -/
theorem messages_read_back :
    (∀ (order : IterationOrder) (calls : List Setter) (q : HttpRequest) (rest : Bytes),
      (built calls).Readable → q.state = .kExpectHeaders → q.buf = [] → q.body = [] →
      ∃ head r, behindLine ((built calls).toMessage order ++ rest) = some head ∧
        HttpRequest.unlimited.run (q.push head) = (true, r) ∧ Carries calls rest r) ∧
    ∀ (history : List (IterationOrder × List Setter)) (rest : Bytes),
      (∀ sent ∈ history, (built sent.2).Readable) →
      ∃ rs, readMessages history.length
          (history.flatMap (fun sent => (built sent.2).toMessage sent.1) ++ rest) =
            some (rs, rest) ∧
        List.Forall₂ (fun sent r => ∃ behind, Carries sent.2 behind r) history rs := by
  constructor
  · intro order calls q rest hreadable hstate hbuf hbody
    exact ⟨_, _, behindLine_toMessage order hreadable.clean.message rest,
      hreadable.unlimited_run order hstate hbuf hbody rest, carries_readBack hreadable order q rest⟩
  · intro history rest hreadable
    induction history with
    | nil => exact ⟨[], rfl, .nil⟩
    | cons sent history ih =>
        obtain ⟨rs, hread, hcarries⟩ :=
          ih fun other hmem => hreadable other (List.mem_cons_of_mem sent hmem)
        have hfirst := hreadable sent (List.mem_cons_self ..)
        let behind := history.flatMap (fun sent => (built sent.2).toMessage sent.1) ++ rest
        let r := readBack sent.1 (built sent.2) expecting behind
        have hcarry : Carries sent.2 behind r := carries_readBack hfirst sent.1 expecting behind
        have hbehind : r.buf = behind := rfl
        refine ⟨r :: rs, ?_, .cons ⟨behind, hcarry⟩ hcarries⟩
        rw [List.flatMap_cons, List.append_assoc, List.length_cons, readMessages,
          readMessage_toMessage hfirst]
        show (readMessages history.length r.buf).map _ = _
        rw [hbehind, hread]
        rfl

/-- A response whose body looks like the end of a head and the start of a message. -/
def echoCalls : List Setter :=
  [.setStatusCode 404, .setHeader (literal "X-Id") (literal "1"),
    .setContentType (literal "text/plain"), .setHeader (literal "X-Id") (literal "a: b"),
    .setBody (literal "\r\n\r\nHTTP/1.1 200 OK\r\n"), .setKeepAlive true]

theorem readable_echoCalls : (built echoCalls).Readable :=
  readable_built (by decide) ⟨by decide, by decide⟩ (by decide) (by decide)

/-- Two such messages with something behind them. -/
theorem messages_read_back_echo :
    (∃ head r, behindLine ((built echoCalls).toMessage .stored ++ literal "HTTP") = some head ∧
      HttpRequest.unlimited.run (expecting.push head) = (true, r) ∧
        Carries echoCalls (literal "HTTP") r) ∧
    ∃ rs, readMessages 2
        ([(IterationOrder.stored, echoCalls), (IterationOrder.stored, echoCalls)].flatMap
          (fun sent => (built sent.2).toMessage sent.1) ++ literal "HTTP") =
            some (rs, literal "HTTP") ∧
      List.Forall₂ (fun sent r => ∃ behind, Carries sent.2 behind r)
        [(IterationOrder.stored, echoCalls), (IterationOrder.stored, echoCalls)] rs := by
  constructor
  · exact messages_read_back.1 .stored echoCalls expecting (literal "HTTP")
      readable_echoCalls rfl rfl rfl
  · apply messages_read_back.2 [(.stored, echoCalls), (.stored, echoCalls)] (literal "HTTP")
    intro sent hmem
    rw [List.mem_cons, List.mem_singleton] at hmem
    rcases hmem with rfl | rfl <;> exact readable_echoCalls

end HttpResponse

end EpollHttpServer.Http
