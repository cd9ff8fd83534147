/-
# The lines the parser accepts

What the line parsers accept and store is described here without positions: a
line is cut at its first colon or at its first and last space, and a value is
the text behind the colon.  `storeRequestLine` and `storeHeader` are the effects
of accepted lines on a request, and a round on a complete line that is accepted
has that effect.
-/

import EpollHttpServer.Http.Request

namespace EpollHttpServer.Http

open EpollHttpServer.Lib

/-- The key a header line is stored under. -/
def headerName (line : Bytes) : Bytes :=
  lowered (beforeFirst colon line)

/-- The value a header line stores: the text behind the first colon, without
leading blanks unless it consists of blanks only. -/
def headerValue (line : Bytes) : Bytes :=
  trimLeft (afterFirst colon line)

/-- The text behind the first colon without leading blanks. -/
def strippedValue (line : Bytes) : Bytes :=
  (afterFirst colon line).dropWhile fun b => b = space ∨ b = tab

/-- The number in a content length line. -/
def lengthOf (line : Bytes) : ℕ :=
  ((strtol (strippedValue line)).getD 0).toNat

/-- The last header line with a given key. -/
def lastLine (lines : List Bytes) (key : Bytes) : Option Bytes :=
  lines.reverse.find? fun line => headerName line = key

/-- A head with a line has a last line with the key of that line. -/
theorem exists_lastLine {lines : List Bytes} {line : Bytes} (hmem : line ∈ lines) :
    ∃ last ∈ lines, lastLine lines (headerName line) = some last ∧
      headerName last = headerName line := by
  obtain ⟨last, hlast, hfind, hname⟩ := exists_find_reverse
    (fun other => decide (headerName other = headerName line)) hmem (decide_eq_true rfl)
  exact ⟨last, hlast, hfind, of_decide_eq_true hname⟩

/-- The only line with a name, if the names do not repeat. -/
theorem lastLine_of_nodup {lines : List Bytes} (hnodup : (lines.map headerName).Nodup)
    {line : Bytes} (hmem : line ∈ lines) : lastLine lines (headerName line) = some line := by
  obtain ⟨other, hother, hlast, hname⟩ := exists_lastLine hmem
  rw [hlast, List.inj_on_of_nodup_map hnodup hother hmem hname]

/-- The body length the last content length line declares, zero without one. -/
def declaredLength (lines : List Bytes) : ℕ :=
  (lastLine lines contentLengthKey).elim 0 lengthOf

/-- A header line that the parser accepts. -/
structure IsHeaderLine (line : Bytes) : Prop where
  nonempty : line ≠ []
  oneLine : ¬ crlf <:+: line
  hasColon : colon ∈ line
  /-- A content length is a non-negative number, as `strtol` reads it. -/
  validLength : headerName line = contentLengthKey →
    ∃ n, strtol (strippedValue line) = some n ∧ 0 ≤ n

/-! ## Trimming and number conversion -/

theorem trimLeft_eq_dropWhile {value : Bytes} (hvisible : ∃ b ∈ value, b ≠ space ∧ b ≠ tab) :
    trimLeft value = value.dropWhile fun b => b = space ∨ b = tab := by
  induction value with
  | nil => simp at hvisible
  | cons b rest ih =>
      by_cases hb : b = space ∨ b = tab
      · have hnot : ¬ (b ≠ space ∧ b ≠ tab) := by tauto
        have hrest : ∃ c ∈ rest, c ≠ space ∧ c ≠ tab := by
          obtain ⟨c, hc, hvis⟩ := hvisible
          rcases List.mem_cons.mp hc with rfl | hmem
          · exact absurd hvis hnot
          · exact ⟨c, hmem, hvis⟩
        have htail := ih hrest
        rw [List.dropWhile_cons_of_pos (by simpa using hb), ← htail]
        unfold trimLeft
        rw [List.findIdx?_cons]
        simp only [hnot, decide_false, Bool.false_eq_true, if_false]
        cases hfind : rest.findIdx? (fun b => decide (b ≠ space ∧ b ≠ tab)) with
        | none =>
            rw [List.findIdx?_eq_none_iff] at hfind
            obtain ⟨c, hc, hvis⟩ := hrest
            have hblank := hfind c hc
            rw [decide_eq_false_iff_not] at hblank
            exact absurd hvis hblank
        | some start => simp
      · have hvis : b ≠ space ∧ b ≠ tab := by tauto
        rw [List.dropWhile_cons_of_neg (by simpa using hb)]
        unfold trimLeft
        rw [List.findIdx?_cons]
        simp [hvis]

theorem trimLeft_of_blank {value : Bytes} (hblank : ¬ ∃ b ∈ value, b ≠ space ∧ b ≠ tab) :
    trimLeft value = value := by
  have hnone : value.findIdx? (fun b => decide (b ≠ space ∧ b ≠ tab)) = none := by
    rw [List.findIdx?_eq_none_iff]
    intro b hb
    simpa using fun hspace htab => hblank ⟨b, hb, hspace, htab⟩
  unfold trimLeft
  rw [hnone]

/-- A blank text holds no number. -/
theorem strtol_of_isSpace {value : Bytes} (hspace : ∀ b ∈ value, isSpace b = true) :
    strtol value = none := by
  have hnil : (value.takeWhile (· ≠ 0)).dropWhile isSpace = [] := by
    rw [List.dropWhile_eq_nil_iff]
    intro b hb
    exact hspace b (List.takeWhile_subset _ hb)
  simp only [strtol, hnil]
  rfl

/-- The number does not depend on whether a blank value was trimmed. -/
theorem strtol_headerValue (line : Bytes) :
    strtol (headerValue line) = strtol (strippedValue line) := by
  unfold headerValue strippedValue
  by_cases hvisible : ∃ b ∈ afterFirst colon line, b ≠ space ∧ b ≠ tab
  · rw [trimLeft_eq_dropWhile hvisible]
  · have hblank : ∀ b ∈ afterFirst colon line, b = space ∨ b = tab := by
      intro b hb
      by_contra hvis
      exact hvisible ⟨b, hb, by tauto⟩
    have hspace : ∀ b ∈ afterFirst colon line, isSpace b = true := by
      intro b hb
      rcases hblank b hb with rfl | rfl <;> decide
    have hnil : (afterFirst colon line).dropWhile (fun b => b = space ∨ b = tab) = [] := by
      rw [List.dropWhile_eq_nil_iff]
      intro b hb
      simpa using hblank b hb
    rw [trimLeft_of_blank hvisible, hnil, strtol_of_isSpace hspace]
    exact (strtol_of_isSpace (by simp)).symm

namespace HttpRequest

/-! ## The request line -/

/-- The request with the parts of a request line stored in it. -/
def storeRequestLine (r : HttpRequest) (line : Bytes) : HttpRequest :=
  { r with
    method := beforeFirst space line
    path := normalizePath (beforeLast space (afterFirst space line))
    version := afterLast space line }

theorem parseRequestLine_of_spaces (r : HttpRequest) {line : Bytes}
    (hspaces : 2 ≤ line.count space) :
    r.parseRequestLine line =
      (decide (httpSlash <+: afterLast space line), r.storeRequestLine line) := by
  obtain ⟨first, middle, last, rfl, hfirst, hlast⟩ := two_le_count_iff.mp hspaces
  have hpos1 := find_symbol hfirst (middle ++ space :: last)
  have hshape : first ++ space :: (middle ++ space :: last) =
      (first ++ space :: middle) ++ space :: last := by simp
  have hpos2 : rfind space (first ++ space :: (middle ++ space :: last)) =
      some (first ++ space :: middle).length := by
    rw [hshape]
    exact rfind_append _ hlast
  have hne : ¬ (first ++ space :: middle).length = first.length := by
    rw [List.length_append, List.length_cons]
    omega
  obtain ⟨hmethod, htarget⟩ := text_of_find hpos1
  have hversion := (text_of_rfind hpos2).2
  unfold parseRequestLine
  rw [hpos1, hpos2]
  simp only [hne, if_false, hmethod, htarget, hversion, find_eq_zero_iff, storeRequestLine]
  have hmiddle : (afterFirst space (first ++ space :: (middle ++ space :: last))).take
        ((first ++ space :: middle).length - first.length - 1) =
      beforeLast space (afterFirst space (first ++ space :: (middle ++ space :: last))) := by
    rw [afterFirst_append hfirst, beforeLast_append _ hlast]
    have hlength : (first ++ space :: middle).length - first.length - 1 = middle.length := by
      rw [List.length_append, List.length_cons]
      omega
    rw [hlength, List.take_left]
  rw [hmiddle]

theorem parseRequestLine_of_few_spaces (r : HttpRequest) {line : Bytes}
    (hspaces : ¬ 2 ≤ line.count space) : r.parseRequestLine line = (false, r) := by
  unfold parseRequestLine
  by_cases hmem : space ∈ line
  · obtain ⟨first, rest, rfl, hfirst⟩ := List.eq_append_cons_of_mem hmem
    have hrest : space ∉ rest := by
      rw [List.count_append, List.count_eq_zero_of_not_mem hfirst, List.count_cons_self] at hspaces
      exact List.count_eq_zero.mp (by omega)
    rw [find_symbol hfirst rest, rfind_append first hrest]
    simp
  · rw [find_symbol_eq_none_iff.mpr hmem]

/-! ## The header lines -/

/-- The request with one accepted header line stored in it. -/
def storeHeader (r : HttpRequest) (line : Bytes) : HttpRequest :=
  { r with
    headers := r.headers.insert (headerName line) (headerValue line)
    contentLength :=
      if headerName line = contentLengthKey then lengthOf line else r.contentLength }

/-- The request with accepted header lines stored in it. -/
def storeHeaders (r : HttpRequest) (lines : List Bytes) : HttpRequest :=
  lines.foldl storeHeader r

@[simp]
theorem storeHeaders_nil (r : HttpRequest) : r.storeHeaders [] = r := rfl

@[simp]
theorem storeHeaders_cons (r : HttpRequest) (line : Bytes) (lines : List Bytes) :
    r.storeHeaders (line :: lines) = (r.storeHeader line).storeHeaders lines := rfl

theorem storeHeaders_concat (r : HttpRequest) (lines : List Bytes) (line : Bytes) :
    r.storeHeaders (lines ++ [line]) = (r.storeHeaders lines).storeHeader line := by
  simp [storeHeaders]

/-- Storing header lines does not look at the buffer or the parser state. -/
theorem storeHeaders_move (r : HttpRequest) (lines : List Bytes) (buf : Bytes) (state : State) :
    ({ r with buf := buf, state := state } : HttpRequest).storeHeaders lines =
      { r.storeHeaders lines with buf := buf, state := state } := by
  induction lines using List.reverseRecOn with
  | nil => rfl
  | append_singleton lines line ih =>
      rw [storeHeaders_concat, storeHeaders_concat, ih]
      rfl

theorem storeHeaders_setBuf (r : HttpRequest) (lines : List Bytes) (buf : Bytes) :
    ({ r with buf := buf } : HttpRequest).storeHeaders lines =
      { r.storeHeaders lines with buf := buf } := by
  induction lines using List.reverseRecOn with
  | nil => rfl
  | append_singleton lines line ih =>
      rw [storeHeaders_concat, storeHeaders_concat, ih]
      rfl

/-- The parts of the request line and the body are not those of the headers. -/
theorem storeHeaders_parts (r : HttpRequest) (lines : List Bytes) :
    (r.storeHeaders lines).method = r.method ∧ (r.storeHeaders lines).path = r.path ∧
      (r.storeHeaders lines).version = r.version ∧ (r.storeHeaders lines).body = r.body := by
  induction lines using List.reverseRecOn with
  | nil => exact ⟨rfl, rfl, rfl, rfl⟩
  | append_singleton lines line ih =>
      rw [storeHeaders_concat]
      exact ih

theorem storeHeaders_state (r : HttpRequest) (lines : List Bytes) :
    (r.storeHeaders lines).state = r.state := by
  induction lines using List.reverseRecOn with
  | nil => rfl
  | append_singleton lines line ih =>
      rw [storeHeaders_concat]
      exact ih

theorem valueOf_storeHeaders (r : HttpRequest) (lines : List Bytes) (key : Bytes) :
    HeaderMap.valueOf (r.storeHeaders lines).headers key =
      (lastLine lines key).elim (HeaderMap.valueOf r.headers key) headerValue := by
  induction lines using List.reverseRecOn with
  | nil => rfl
  | append_singleton lines line ih =>
      rw [storeHeaders_concat]
      by_cases hname : headerName line = key
      · simp [storeHeader, lastLine, hname]
      · rw [storeHeader, HeaderMap.valueOf_insert_ne _ _ (Ne.symm hname), ih]
        simp [lastLine, hname]

theorem contentLength_storeHeaders (r : HttpRequest) (lines : List Bytes) :
    (r.storeHeaders lines).contentLength =
      (lastLine lines contentLengthKey).elim r.contentLength lengthOf := by
  induction lines using List.reverseRecOn with
  | nil => rfl
  | append_singleton lines line ih =>
      rw [storeHeaders_concat]
      by_cases hname : headerName line = contentLengthKey
      · simp [storeHeader, lastLine, hname]
      · rw [storeHeader]
        simp [lastLine, hname, ih]

theorem keys_storeHeaders (r : HttpRequest) (lines : List Bytes) :
    (r.storeHeaders lines).headers.keys.toFinset =
      r.headers.keys.toFinset ∪ (lines.map headerName).toFinset := by
  induction lines using List.reverseRecOn with
  | nil => simp
  | append_singleton lines line ih =>
      rw [storeHeaders_concat, storeHeader, HeaderMap.keys_toFinset_insert, ih]
      ext name
      simp only [Finset.mem_insert, Finset.mem_union, List.mem_toFinset, List.map_append,
        List.map_cons, List.map_nil, List.mem_append, List.mem_singleton]
      tauto

theorem size_le_size_storeHeaders (r : HttpRequest) (lines : List Bytes) :
    HeaderMap.size r.headers ≤ HeaderMap.size (r.storeHeaders lines).headers := by
  rw [HeaderMap.size_eq_card, HeaderMap.size_eq_card, keys_storeHeaders]
  exact Finset.card_le_card Finset.subset_union_left

/-- The text of `parseHeader` for a line with a colon. -/
theorem parseHeader_of_colon (r : HttpRequest) {line : Bytes} (hcolon : colon ∈ line) :
    r.parseHeader line =
      let r' := { r with headers := r.headers.insert (headerName line) (headerValue line) }
      if headerName line = contentLengthKey then
        match strtol (headerValue line) with
        | none => (false, r')
        | some len =>
          if len < 0 then (false, r') else (true, { r' with contentLength := len.toNat })
      else (true, r') := by
  obtain ⟨before, after, hline, hfirst⟩ := List.eq_append_cons_of_mem hcolon
  have hpos : find [colon] line = some before.length := by
    rw [hline]
    exact find_symbol hfirst after
  obtain ⟨hname, hvalue⟩ := text_of_find hpos
  unfold parseHeader
  rw [hpos]
  simp only [hname, hvalue]
  rfl

theorem parseHeader_of_no_colon (r : HttpRequest) {line : Bytes} (hcolon : colon ∉ line) :
    r.parseHeader line = (false, r) := by
  unfold parseHeader
  rw [find_symbol_eq_none_iff.mpr hcolon]

/-- What a header line has changed, accepted or not. -/
theorem parseHeader_stores (r : HttpRequest) (line : Bytes) :
    (colon ∉ line ∧ (r.parseHeader line).2 = r) ∨
      (colon ∈ line ∧ ∃ contentLength, (r.parseHeader line).2 =
        { r with
          headers := r.headers.insert (headerName line) (headerValue line)
          contentLength := contentLength }) := by
  by_cases hcolon : colon ∈ line
  · refine .inr ⟨hcolon, ?_⟩
    rw [parseHeader_of_colon r hcolon]
    dsimp only
    split
    · split
      · exact ⟨_, rfl⟩
      · split
        · exact ⟨_, rfl⟩
        · exact ⟨_, rfl⟩
    · exact ⟨_, rfl⟩
  · rw [parseHeader_of_no_colon r hcolon]
    exact .inl ⟨hcolon, rfl⟩

theorem parseHeader_of_valid (r : HttpRequest) {line : Bytes} (hvalid : IsHeaderLine line) :
    r.parseHeader line = (true, r.storeHeader line) := by
  rw [parseHeader_of_colon r hvalid.hasColon]
  by_cases hkey : headerName line = contentLengthKey
  · obtain ⟨n, hn, hnonneg⟩ := hvalid.validLength hkey
    rw [if_pos hkey, strtol_headerValue, hn]
    simp [not_lt.mpr hnonneg, storeHeader, hkey, lengthOf, hn]
  · rw [if_neg hkey]
    simp [storeHeader, hkey]

/-- A line the parser takes for a header is one. -/
theorem isHeaderLine_of_parseHeader {r r' : HttpRequest} {line : Bytes}
    (hne : line ≠ []) (honeLine : ¬ crlf <:+: line)
    (hparse : r.parseHeader line = (true, r')) : IsHeaderLine line := by
  by_cases hcolon : colon ∈ line
  · refine ⟨hne, honeLine, hcolon, fun hkey => ?_⟩
    rw [parseHeader_of_colon r hcolon] at hparse
    dsimp only at hparse
    rw [if_pos hkey, strtol_headerValue] at hparse
    cases hnumber : strtol (strippedValue line) with
    | none =>
        rw [hnumber] at hparse
        cases hparse
    | some n =>
        refine ⟨n, rfl, ?_⟩
        by_contra hneg
        rw [hnumber] at hparse
        dsimp only at hparse
        rw [if_pos (not_le.mp hneg)] at hparse
        cases hparse
  · rw [parseHeader_of_no_colon r hcolon] at hparse
    cases hparse

/-! ## Rounds on complete lines -/

theorem split_complete_line {line : Bytes} (honeLine : ¬ crlf <:+: line) (rest : Bytes) :
    find crlf (line ++ (crlf ++ rest)) = some line.length ∧
      (line ++ (crlf ++ rest)).take line.length = line ∧
      (line ++ (crlf ++ rest)).drop (line.length + 2) = rest := by
  have hpos := find_pair cr_ne_lf honeLine rest
  refine ⟨by rwa [List.append_assoc] at hpos, List.take_left, ?_⟩
  have hlength : line.length + 2 = (line ++ crlf).length := by simp
  rw [hlength, ← List.append_assoc, List.drop_left]

/-- A stream has one first line. -/
theorem firstLine_unique {line line' rest rest' : Bytes} (honeLine : ¬ crlf <:+: line)
    (honeLine' : ¬ crlf <:+: line')
    (heq : line ++ (crlf ++ rest) = line' ++ (crlf ++ rest')) : line = line' ∧ rest = rest' := by
  obtain ⟨hpos, htake, hdrop⟩ := split_complete_line honeLine rest
  obtain ⟨hpos', htake', hdrop'⟩ := split_complete_line honeLine' rest'
  rw [heq, hpos', Option.some_inj] at hpos
  rw [heq, ← hpos] at htake hdrop
  exact ⟨htake.symm.trans htake', hdrop.symm.trans hdrop'⟩

theorem not_infix_nil : ¬ crlf <:+: ([] : Bytes) := by
  rw [List.infix_nil]
  exact crlf_ne_nil

/-- A buffer with a terminator in it starts with a complete line. -/
theorem exists_complete_line {buf : Bytes} {pos : ℕ} (hpos : find crlf buf = some pos) :
    buf = buf.take pos ++ (crlf ++ buf.drop (pos + 2)) ∧ ¬ crlf <:+: buf.take pos := by
  have hsplit := eq_of_find hpos
  rw [List.append_assoc] at hsplit
  exact ⟨hsplit, not_infix_take_of_find crlf_ne_nil hpos⟩

variable {r : HttpRequest}

/-- A round on a complete request line. -/
theorem pass_completeRequestLine {line rest : Bytes} (hstate : r.state = .kExpectRequestLine)
    (hbuf : r.buf = line ++ (crlf ++ rest)) (honeLine : ¬ crlf <:+: line) :
    r.pass =
      match parseRequestLine { r with buf := rest } line with
      | (false, q) => .done (false, q)
      | (true, q) => .again { q with state := .kExpectHeaders } := by
  obtain ⟨hpos, hline, hrest⟩ := split_complete_line honeLine rest
  obtain ⟨verdict, q, hparse⟩ : ∃ verdict q, parseRequestLine { r with buf := rest } line =
      (verdict, q) := ⟨_, _, rfl⟩
  rw [hparse]
  rw [hstate] at hparse
  cases verdict with
  | false => simp only [pass, hstate, hbuf, hpos, hline, hrest, hparse]
  | true => simp only [pass, hstate, hbuf, hpos, hline, hrest, hparse]

theorem pass_requestLine {line rest : Bytes} (hstate : r.state = .kExpectRequestLine)
    (hbuf : r.buf = line ++ (crlf ++ rest)) (honeLine : ¬ crlf <:+: line)
    (hspaces : 2 ≤ line.count space) (hversion : httpSlash <+: afterLast space line) :
    r.pass = .again { r.storeRequestLine line with buf := rest, state := .kExpectHeaders } := by
  rw [pass_completeRequestLine hstate hbuf honeLine, parseRequestLine_of_spaces _ hspaces,
    decide_eq_true hversion]
  rfl

theorem pass_blankLine {rest : Bytes} (hstate : r.state = .kExpectHeaders)
    (hbuf : r.buf = crlf ++ rest) :
    r.pass = .again { r with
      buf := rest
      state := if 0 < r.contentLength then .kExpectBody else .kGotAll } := by
  obtain ⟨hpos, -, hrest⟩ := split_complete_line not_infix_nil rest
  rw [List.nil_append] at hpos hrest
  rw [List.length_nil] at hpos hrest
  simp [pass, hstate, hbuf, hpos, hrest]

/-- A round on a complete header line. -/
theorem pass_completeLine {line rest : Bytes} (hstate : r.state = .kExpectHeaders)
    (hbuf : r.buf = line ++ (crlf ++ rest)) (hne : line ≠ []) (honeLine : ¬ crlf <:+: line) :
    r.pass =
      match parseHeader { r with buf := rest } line with
      | (false, q) => .done (false, q)
      | (true, q) =>
        if kMaxHeaderCount < HeaderMap.size q.headers then .done (false, q) else .again q := by
  obtain ⟨hpos, hline, hrest⟩ := split_complete_line honeLine rest
  obtain ⟨verdict, q, hparse⟩ : ∃ verdict q, parseHeader { r with buf := rest } line =
      (verdict, q) := ⟨_, _, rfl⟩
  rw [hparse]
  rw [hstate] at hparse
  cases verdict with
  | false => simp only [pass, hstate, hbuf, hpos, hline, hrest, hne, if_false, hparse]
  | true => simp only [pass, hstate, hbuf, hpos, hline, hrest, hne, if_false, hparse]

theorem pass_headerLine {line rest : Bytes} (hstate : r.state = .kExpectHeaders)
    (hbuf : r.buf = line ++ (crlf ++ rest)) (hvalid : IsHeaderLine line)
    (hcount : HeaderMap.size (r.storeHeader line).headers ≤ kMaxHeaderCount) :
    r.pass = .again { r.storeHeader line with buf := rest } := by
  rw [pass_completeLine hstate hbuf hvalid.nonempty hvalid.oneLine, parseHeader_of_valid _ hvalid]
  exact if_neg (not_lt.mpr hcount)

end HttpRequest

end EpollHttpServer.Http
