/-
# Spellings of a request

The parser lower-cases header names and takes the blanks in front of a value
away.  It keeps the blanks behind a value, a value that consists of blanks, and
the case of every value, and `keepAlive` compares the stored value exactly.

Two requests whose header lines are spelled differently are parsed side by
side: they get the same verdict and the same parts, and store lines that
correspond to each other.  So they mean the same exactly when, of every name,
the last lines that are stored do.
-/

import EpollHttpServer.Http.ContentLength
import EpollHttpServer.Http.StoredLines

namespace EpollHttpServer.Http

open EpollHttpServer.Lib

/-- Values under a key that agree up to blanks behind them, and those of
`Connection` up to case as well. -/
def SameValue (key value value' : Bytes) : Prop :=
  if key = connectionKey then lowered (trimRight value) = lowered (trimRight value')
  else trimRight value = trimRight value'

instance (key value value' : Bytes) : Decidable (SameValue key value value') := by
  unfold SameValue
  infer_instance

/-- Header lines that differ in the case of their names, in the blanks around
their values, and in the case of a `Connection` value. -/
structure Respelled (line line' : Bytes) : Prop where
  hasColon : colon ∈ line
  hasColon' : colon ∈ line'
  name : headerName line = headerName line'
  value : SameValue (headerName line) (strippedValue line) (strippedValue line')

/-- Two lines at the same place of two heads. -/
structure LinePair (alike : Bytes → Bytes → Prop) (line line' : Bytes) : Prop where
  nonempty : line ≠ []
  nonempty' : line' ≠ []
  oneLine : ¬ crlf <:+: line
  oneLine' : ¬ crlf <:+: line'
  pair : line = line' ∨ alike line line'

/-- The rest of two streams: the same, or an unfinished line. -/
def SameRest (rest rest' : Bytes) : Prop :=
  rest = rest' ∨ (¬ crlf <:+: rest ∧ ¬ crlf <:+: rest')

/-- Two requests that differ in header lines that are alike. -/
inductive SpelledAlike (alike : Bytes → Bytes → Prop) (s s' : Bytes) : Prop where
  | same (heq : s = s')
  | head (first : Bytes) (lines lines' : List Bytes) (rest rest' : Bytes)
      (honeLine : ¬ crlf <:+: first)
      (hs : s = first ++ (crlf ++ (RequestText.linesBytes lines ++ rest)))
      (hs' : s' = first ++ (crlf ++ (RequestText.linesBytes lines' ++ rest')))
      (hlines : List.Forall₂ (LinePair alike) lines lines') (hrest : SameRest rest rest')

/-- What of a value counts under a key: the case of a `Connection` value does not. -/
def significant (key value : Bytes) : Bytes :=
  if key = connectionKey then lowered value else value

/-- Two streams mean the same to the server. -/
structure SameMeaning (s s' : Bytes) : Prop where
  verdict : (HttpRequest.fresh.parse s).1 = (HttpRequest.fresh.parse s').1
  gotAll : (HttpRequest.fresh.parse s).2.gotAll = (HttpRequest.fresh.parse s').2.gotAll
  method : (HttpRequest.fresh.parse s).2.method = (HttpRequest.fresh.parse s').2.method
  path : (HttpRequest.fresh.parse s).2.path = (HttpRequest.fresh.parse s').2.path
  version : (HttpRequest.fresh.parse s).2.version = (HttpRequest.fresh.parse s').2.version
  body : (HttpRequest.fresh.parse s).2.body = (HttpRequest.fresh.parse s').2.body
  keepAlive : (HttpRequest.fresh.parse s).2.keepAlive = (HttpRequest.fresh.parse s').2.keepAlive
  headers : ∀ key, significant (lowered key) ((HttpRequest.fresh.parse s).2.getHeader key) =
    significant (lowered key) ((HttpRequest.fresh.parse s').2.getHeader key)

/-- The values of two lines are written alike from the first visible byte to the
end of the line, and those without a visible byte altogether. -/
def SameEnds (key line line' : Bytes) : Prop :=
  significant key (strippedValue line) = significant key (strippedValue line') ∧
    (strippedValue line = [] → afterFirst colon line = afterFirst colon line')

instance (key line line' : Bytes) : Decidable (SameEnds key line line') :=
  inferInstanceAs (Decidable (_ ∧ _))

/-- The value of `Connection` that is not the default of the version. -/
def decisiveWord (s : Bytes) : Bytes :=
  if (firstLine s).map (afterLast space) = some (literal "HTTP/1.1") then literal "close"
  else literal "keep-alive"

/-- Of every name, the last stored lines are written alike, and those of
`Connection` both say the decisive word or neither does. -/
structure LastLinesAlike (s s' : Bytes) : Prop where
  ends : ∀ key, ∀ line ∈ lastLine (storedLines s) key, ∀ line' ∈ lastLine (storedLines s') key,
    SameEnds key line line'
  decides : ∀ line ∈ lastLine (storedLines s) connectionKey,
    ∀ line' ∈ lastLine (storedLines s') connectionKey,
      (strippedValue line = decisiveWord s ↔ strippedValue line' = decisiveWord s)

/-! ## Values -/

theorem isSpace_of_isBlank {b : UInt8} (hblank : IsBlank b) : isSpace b = true := by
  rcases hblank with rfl | rfl
  · decide
  · decide

theorem takeWhile_isDigit_append {text blanks : Bytes} (hblanks : ∀ b ∈ blanks, IsBlank b) :
    (text ++ blanks).takeWhile isDigit = text.takeWhile isDigit := by
  have hnone : blanks.takeWhile isDigit = [] := by
    cases blanks with
    | nil => rfl
    | cons b rest =>
        apply List.takeWhile_cons_of_neg
        intro hdigit
        exact not_isBlank_of_isDigit hdigit (hblanks b (List.mem_cons_self ..))
  rw [List.takeWhile_append]
  split
  · next hall =>
    rw [hnone, List.append_nil]
    exact ((List.takeWhile_prefix isDigit).eq_of_length hall).symm
  · rfl

theorem splitSign_append {text : Bytes} (hne : text ≠ []) (blanks : Bytes) :
    splitSign (text ++ blanks) = ((splitSign text).1, (splitSign text).2 ++ blanks) := by
  obtain ⟨b, rest, rfl⟩ := List.exists_cons_of_ne_nil hne
  rw [List.cons_append, splitSign, splitSign]
  split
  · rfl
  · split
    · rfl
    · rfl

/-- The text that a number is read from: what precedes a NUL, without leading
white space. -/
def numberText (s : Bytes) : Bytes :=
  (s.takeWhile (· ≠ 0)).dropWhile isSpace

/-- Blanks behind a text are behind the text of its number, if there is one. -/
theorem numberText_append (value : Bytes) {blanks : Bytes} (hblanks : ∀ b ∈ blanks, IsBlank b) :
    numberText (value ++ blanks) = numberText value ∨
      (numberText value ≠ [] ∧ numberText (value ++ blanks) = numberText value ++ blanks) := by
  have hvisible : blanks.takeWhile (· ≠ 0) = blanks := by
    rw [List.takeWhile_eq_self_iff]
    intro b hmem
    rcases hblanks b hmem with rfl | rfl
    · decide
    · decide
  have hspaces : blanks.dropWhile isSpace = [] := by
    rw [List.dropWhile_eq_nil_iff]
    exact fun b hmem => isSpace_of_isBlank (hblanks b hmem)
  unfold numberText
  rw [List.takeWhile_append]
  split
  · next hall =>
    have hwhole : value.takeWhile (· ≠ 0) = value :=
      (List.takeWhile_prefix _).eq_of_length hall
    rw [hvisible, hwhole, List.dropWhile_append]
    split
    · next hempty =>
      rw [hspaces]
      exact .inl (List.isEmpty_iff.mp hempty).symm
    · next hne => exact .inr ⟨fun hnil => hne (List.isEmpty_iff.mpr hnil), rfl⟩
  · exact .inl rfl

/-- Blanks behind a text do not change the number in it. -/
theorem strtol_append_blanks (value : Bytes) {blanks : Bytes} (hblanks : ∀ b ∈ blanks, IsBlank b) :
    strtol (value ++ blanks) = strtol value := by
  have htext := numberText_append value hblanks
  unfold numberText at htext
  obtain hsame | ⟨hne, hstart⟩ := htext
  · unfold strtol
    rw [hsame]
  · unfold strtol
    simp only [hstart, splitSign_append hne, takeWhile_isDigit_append hblanks]

theorem strtol_trimRight (value : Bytes) : strtol (trimRight value) = strtol value := by
  obtain ⟨blanks, hvalue, hblanks⟩ := exists_trimRight value
  have hsame := strtol_append_blanks (trimRight value) hblanks
  rw [← hvalue] at hsame
  exact hsame.symm

/-- A value without a visible byte consists of blanks. -/
theorem isBlank_of_stripped {line : Bytes} (hempty : strippedValue line = []) :
    ∀ b ∈ afterFirst colon line, IsBlank b := by
  rw [strippedValue, List.dropWhile_eq_nil_iff] at hempty
  exact fun b hmem => of_decide_eq_true (hempty b hmem)

/-- The value that a line stores. -/
theorem headerValue_eq (line : Bytes) :
    headerValue line =
      if strippedValue line = [] then afterFirst colon line else strippedValue line := by
  split
  · next hempty =>
    apply trimLeft_of_blank
    rintro ⟨b, hmem, hspace, htab⟩
    exact (isBlank_of_stripped hempty b hmem).elim hspace htab
  · next hne =>
    apply trimLeft_eq_dropWhile
    by_contra hblank
    apply hne
    rw [strippedValue, List.dropWhile_eq_nil_iff]
    intro b hmem
    rw [decide_eq_true_iff]
    by_contra hvisible
    exact hblank ⟨b, hmem, not_or.mp hvisible⟩

/-- What the parser does not take away in front is taken away here. -/
theorem dropWhile_headerValue (line : Bytes) :
    ((headerValue line).dropWhile fun b => b = space ∨ b = tab) = strippedValue line := by
  rw [headerValue_eq]
  split
  · rfl
  · rw [strippedValue, List.dropWhile_idempotent]

/-- Without the blanks behind it, the stored value is the stripped one. -/
theorem trimRight_headerValue (line : Bytes) :
    trimRight (headerValue line) = trimRight (strippedValue line) := by
  rw [headerValue_eq]
  split
  · next hempty =>
    rw [hempty]
    exact trimRight_append [] (isBlank_of_stripped hempty)
  · rfl

/-! ## Two parsers side by side -/

namespace HttpRequest

/-- Two requests that differ in stored values, which `similar` relates, and in
what is buffered. -/
structure Matches (similar : Bytes → Bytes → Bytes → Prop) (r r' : HttpRequest) : Prop where
  state : r.state = r'.state
  method : r.method = r'.method
  path : r.path = r'.path
  version : r.version = r'.version
  body : r.body = r'.body
  contentLength : r.contentLength = r'.contentLength
  names : r.headers.keys.toFinset = r'.headers.keys.toFinset
  values : ∀ key, similar key (HeaderMap.valueOf r.headers key) (HeaderMap.valueOf r'.headers key)

/-- Header lines that are stored under one name with similar values, and that
give the same number if they are content lengths. -/
structure FieldPair (similar : Bytes → Bytes → Bytes → Prop) (line line' : Bytes) : Prop where
  hasColon : colon ∈ line
  hasColon' : colon ∈ line'
  name : headerName line = headerName line'
  number : headerName line = contentLengthKey →
    strtol (headerValue line) = strtol (headerValue line')
  value : similar (headerName line) (headerValue line) (headerValue line')

variable {similar : Bytes → Bytes → Bytes → Prop} {r r' : HttpRequest}

theorem Matches.insert (hmatches : Matches similar r r') {key value value' : Bytes}
    (hvalue : similar key value value') :
    Matches similar { r with headers := r.headers.insert key value }
      { r' with headers := r'.headers.insert key value' } where
  state := hmatches.state
  method := hmatches.method
  path := hmatches.path
  version := hmatches.version
  body := hmatches.body
  contentLength := hmatches.contentLength
  names := by
    rw [HeaderMap.keys_toFinset_insert, HeaderMap.keys_toFinset_insert, hmatches.names]
  values other := by
    by_cases hkey : other = key
    · rw [hkey, HeaderMap.valueOf_insert, HeaderMap.valueOf_insert]
      exact hvalue
    · rw [HeaderMap.valueOf_insert_ne _ _ hkey, HeaderMap.valueOf_insert_ne _ _ hkey]
      exact hmatches.values other

/-- What lies in the buffers does not matter for what has been stored. -/
theorem Matches.setBuf (hmatches : Matches similar r r') (buf buf' : Bytes) :
    Matches similar { r with buf := buf } { r' with buf := buf' } :=
  ⟨hmatches.state, hmatches.method, hmatches.path, hmatches.version, hmatches.body,
    hmatches.contentLength, hmatches.names, hmatches.values⟩

/-- The results of two parsers: the same verdict, and requests that match. -/
def SameResult (similar : Bytes → Bytes → Bytes → Prop) (result result' : Bool × HttpRequest) :
    Prop :=
  result.1 = result'.1 ∧ Matches similar result.2 result'.2

theorem parseHeader_matches (hmatches : Matches similar r r') {line line' : Bytes}
    (hpair : FieldPair similar line line') :
    SameResult similar (r.parseHeader line) (r'.parseHeader line') := by
  have hstored := hmatches.insert hpair.value
  rw [parseHeader_of_colon r hpair.hasColon, parseHeader_of_colon r' hpair.hasColon', ← hpair.name]
  dsimp only
  by_cases hkey : headerName line = contentLengthKey
  · rw [if_pos hkey, if_pos hkey, ← hpair.number hkey]
    cases strtol (headerValue line) with
    | none => exact ⟨rfl, hstored⟩
    | some len =>
        dsimp only
        split
        · exact ⟨rfl, hstored⟩
        · exact ⟨rfl, hstored.state, hstored.method, hstored.path, hstored.version, hstored.body,
            rfl, hstored.names, hstored.values⟩
  · rw [if_neg hkey, if_neg hkey]
    exact ⟨rfl, hstored⟩

/-- The parser does not compare values, so equal lines are stored alike. -/
theorem parseHeader_same (hrefl : ∀ key value, similar key value value)
    (hmatches : Matches similar r r') (line : Bytes) :
    SameResult similar (r.parseHeader line) (r'.parseHeader line) := by
  by_cases hcolon : colon ∈ line
  · exact parseHeader_matches hmatches ⟨hcolon, hcolon, rfl, fun _ => rfl, hrefl _ _⟩
  · rw [parseHeader_of_no_colon r hcolon, parseHeader_of_no_colon r' hcolon]
    exact ⟨rfl, hmatches⟩

theorem parseRequestLine_same (hmatches : Matches similar r r') (line : Bytes) :
    SameResult similar (r.parseRequestLine line) (r'.parseRequestLine line) := by
  unfold parseRequestLine
  split
  · split
    · exact ⟨rfl, hmatches⟩
    · exact ⟨rfl, hmatches.state, rfl, rfl, rfl, hmatches.body, hmatches.contentLength,
        hmatches.names, hmatches.values⟩
  · exact ⟨rfl, hmatches⟩

/-- The buffers of two parsers: the same, or heads that are alike, or rests of
such heads. -/
inductive Ahead (alike : Bytes → Bytes → Prop) (r r' : HttpRequest) : Prop where
  | same (hbuf : r.buf = r'.buf)
  | head (first : Bytes) (lines lines' : List Bytes) (rest rest' : Bytes)
      (hstate : r.state = .kExpectRequestLine) (honeLine : ¬ crlf <:+: first)
      (hbuf : r.buf = first ++ (crlf ++ (RequestText.linesBytes lines ++ rest)))
      (hbuf' : r'.buf = first ++ (crlf ++ (RequestText.linesBytes lines' ++ rest')))
      (hlines : List.Forall₂ (LinePair alike) lines lines') (hrest : SameRest rest rest')
  | lines (lines lines' : List Bytes) (rest rest' : Bytes)
      (hstate : r.state = .kExpectHeaders)
      (hbuf : r.buf = RequestText.linesBytes lines ++ rest)
      (hbuf' : r'.buf = RequestText.linesBytes lines' ++ rest')
      (hlines : List.Forall₂ (LinePair alike) lines lines') (hrest : SameRest rest rest')

/-- Two parsers that are to do the same. -/
structure SideBySide (similar : Bytes → Bytes → Bytes → Prop) (alike : Bytes → Bytes → Prop)
    (r r' : HttpRequest) : Prop where
  similar : Matches similar r r'
  ahead : Ahead alike r r'

variable {alike : Bytes → Bytes → Prop}

/-- The round on two header lines goes the same way. -/
theorem related_of_headerLines {line line' rest rest' : Bytes} (hmatches : Matches similar r r')
    (hstate : r.state = .kExpectHeaders) (hbuf : r.buf = line ++ (crlf ++ rest))
    (hbuf' : r'.buf = line' ++ (crlf ++ rest')) (hne : line ≠ []) (hne' : line' ≠ [])
    (honeLine : ¬ crlf <:+: line) (honeLine' : ¬ crlf <:+: line')
    (hparse : SameResult similar (parseHeader { r with buf := rest } line)
      (parseHeader { r' with buf := rest' } line'))
    (hahead : ∀ q q' : HttpRequest, q.state = .kExpectHeaders → q.buf = rest → q'.buf = rest' →
      Ahead alike q q') :
    Pass.Related (SideBySide similar alike) (SameResult similar) r.pass r'.pass := by
  have hstate' : r'.state = .kExpectHeaders := hmatches.state ▸ hstate
  rw [pass_completeLine hstate hbuf hne honeLine, pass_completeLine hstate' hbuf' hne' honeLine']
  have hkept := parseHeader_state { r with buf := rest } line
  have hleft := parseHeader_buf { r with buf := rest } line
  have hleft' := parseHeader_buf { r' with buf := rest' } line'
  generalize parseHeader { r with buf := rest } line = result at hparse hkept hleft
  generalize parseHeader { r' with buf := rest' } line' = result' at hparse hleft'
  obtain ⟨verdict, q⟩ := result
  obtain ⟨verdict', q'⟩ := result'
  obtain ⟨hverdict, hsame⟩ := hparse
  have hverdict' : verdict' = verdict := hverdict.symm
  subst hverdict'
  cases verdict' with
  | false => exact ⟨rfl, hsame⟩
  | true =>
      have hsize : HeaderMap.size q'.headers = HeaderMap.size q.headers := by
        rw [HeaderMap.size_eq_card, HeaderMap.size_eq_card, hsame.names]
      dsimp only
      rw [hsize]
      split
      · exact ⟨rfl, hsame⟩
      · exact ⟨hsame, hahead q q' (hkept.trans hstate) hleft hleft'⟩

/-- The round on a request line goes the same way. -/
theorem related_of_requestLine {line rest rest' : Bytes} (hmatches : Matches similar r r')
    (hstate : r.state = .kExpectRequestLine) (hbuf : r.buf = line ++ (crlf ++ rest))
    (hbuf' : r'.buf = line ++ (crlf ++ rest')) (honeLine : ¬ crlf <:+: line)
    (hahead : ∀ q q' : HttpRequest, q.state = .kExpectHeaders → q.buf = rest → q'.buf = rest' →
      Ahead alike q q') :
    Pass.Related (SideBySide similar alike) (SameResult similar) r.pass r'.pass := by
  have hstate' : r'.state = .kExpectRequestLine := hmatches.state ▸ hstate
  rw [pass_completeRequestLine hstate hbuf honeLine,
    pass_completeRequestLine hstate' hbuf' honeLine]
  have hparse := parseRequestLine_same (hmatches.setBuf rest rest') line
  have hleft := parseRequestLine_buf { r with buf := rest } line
  have hleft' := parseRequestLine_buf { r' with buf := rest' } line
  generalize parseRequestLine { r with buf := rest } line = result at hparse hleft
  generalize parseRequestLine { r' with buf := rest' } line = result' at hparse hleft'
  obtain ⟨verdict, q⟩ := result
  obtain ⟨verdict', q'⟩ := result'
  obtain ⟨hverdict, hsame⟩ := hparse
  have hverdict' : verdict' = verdict := hverdict.symm
  subst hverdict'
  cases verdict' with
  | false => exact ⟨rfl, hsame⟩
  | true =>
      refine ⟨?_, hahead _ _ rfl hleft hleft'⟩
      exact ⟨rfl, hsame.method, hsame.path, hsame.version, hsame.body, hsame.contentLength,
        hsame.names, hsame.values⟩

/-- Two parsers that wait. -/
theorem related_of_unfinished (hmatches : Matches similar r r')
    (hstate : r.state = .kExpectRequestLine ∨ r.state = .kExpectHeaders)
    (hnone : ¬ crlf <:+: r.buf) (hnone' : ¬ crlf <:+: r'.buf) :
    Pass.Related (SideBySide similar alike) (SameResult similar) r.pass r'.pass := by
  rw [pass_unfinished hstate hnone, pass_unfinished (hmatches.state ▸ hstate) hnone']
  exact ⟨rfl, hmatches⟩

/-- With equal buffers the rounds are the same. -/
theorem related_of_same (hrefl : ∀ key value, similar key value value)
    (hmatches : Matches similar r r') (hbuf : r.buf = r'.buf) :
    Pass.Related (SideBySide similar alike) (SameResult similar) r.pass r'.pass := by
  cases hstate : r.state with
  | kExpectRequestLine =>
      cases hpos : find crlf r.buf with
      | none =>
          have hnone := find_eq_none_iff.mp hpos
          exact related_of_unfinished hmatches (.inl hstate) hnone (hbuf ▸ hnone)
      | some pos =>
          obtain ⟨hsplit, honeLine⟩ := exists_complete_line hpos
          exact related_of_requestLine hmatches hstate hsplit (hbuf ▸ hsplit) honeLine
            fun q q' _ hq hq' => .same (hq.trans hq'.symm)
  | kExpectHeaders =>
      cases hpos : find crlf r.buf with
      | none =>
          have hnone := find_eq_none_iff.mp hpos
          exact related_of_unfinished hmatches (.inr hstate) hnone (hbuf ▸ hnone)
      | some pos =>
          obtain ⟨hsplit, honeLine⟩ := exists_complete_line hpos
          by_cases hblank : r.buf.take pos = []
          · rw [hblank, List.nil_append] at hsplit
            rw [pass_blankLine hstate hsplit,
              pass_blankLine (hmatches.state ▸ hstate) (hbuf ▸ hsplit), hmatches.contentLength]
            have hrest : r.buf.drop (pos + 2) = r'.buf.drop (pos + 2) := by rw [hbuf]
            exact ⟨⟨rfl, hmatches.method, hmatches.path, hmatches.version, hmatches.body,
              rfl, hmatches.names, hmatches.values⟩, .same hrest⟩
          · exact related_of_headerLines hmatches hstate hsplit (hbuf ▸ hsplit) hblank hblank
              honeLine honeLine (parseHeader_same hrefl (hmatches.setBuf _ _) _)
              fun q q' _ hq hq' => .same (hq.trans hq'.symm)
  | kExpectBody =>
      have hstate' : r'.state = .kExpectBody := hmatches.state ▸ hstate
      by_cases hall : r.contentLength ≤ r.buf.length
      · have hall' : r'.contentLength ≤ r'.buf.length := by
          rw [← hmatches.contentLength, ← hbuf]
          exact hall
        rw [pass_body hstate hall, pass_body hstate' hall']
        refine ⟨rfl, rfl, hmatches.method, hmatches.path, hmatches.version, ?_,
          hmatches.contentLength, hmatches.names, hmatches.values⟩
        show r.buf.take r.contentLength = r'.buf.take r'.contentLength
        rw [hbuf, hmatches.contentLength]
      · have hshort : ¬ r'.contentLength ≤ r'.buf.length := by
          rw [← hmatches.contentLength, ← hbuf]
          exact hall
        rw [pass_short hstate hall, pass_short hstate' hshort]
        exact ⟨rfl, hmatches⟩
  | kGotAll =>
      rw [pass_of_gotAll hstate, pass_of_gotAll (hmatches.state ▸ hstate)]
      exact ⟨rfl, hmatches⟩

/-- Two parsers side by side stay so. -/
theorem related_rounds (hrefl : ∀ key value, similar key value value)
    (hfield : ∀ line line', alike line line' → FieldPair similar line line')
    (hside : SideBySide similar alike r r') :
    Pass.Related (SideBySide similar alike) (SameResult similar) r.pass r'.pass := by
  obtain ⟨hmatches, hahead⟩ := hside
  cases hahead with
  | same hbuf => exact related_of_same hrefl hmatches hbuf
  | head first lines lines' rest rest' hstate honeLine hbuf hbuf' hlines hrest =>
      exact related_of_requestLine hmatches hstate hbuf hbuf' honeLine
        fun q q' hq hleft hleft' => .lines lines lines' rest rest' hq hleft hleft' hlines hrest
  | lines lines lines' rest rest' hstate hbuf hbuf' hlines hrest =>
      cases hlines with
      | nil =>
          obtain rfl | ⟨hnone, hnone'⟩ := hrest
          · exact related_of_same hrefl hmatches (hbuf.trans hbuf'.symm)
          · have hunfinished : ¬ crlf <:+: r.buf := hbuf ▸ hnone
            have hunfinished' : ¬ crlf <:+: r'.buf := hbuf' ▸ hnone'
            exact related_of_unfinished hmatches (.inr hstate) hunfinished hunfinished'
      | @cons line line' lines lines' hpair hlines =>
          rw [RequestText.linesBytes_cons, List.append_assoc, List.append_assoc] at hbuf hbuf'
          apply related_of_headerLines hmatches hstate hbuf hbuf' hpair.nonempty hpair.nonempty'
            hpair.oneLine hpair.oneLine'
          · obtain rfl | halike := hpair.pair
            · exact parseHeader_same hrefl (hmatches.setBuf _ _) line
            · exact parseHeader_matches (hmatches.setBuf _ _) (hfield line line' halike)
          · intro q q' hq hleft hleft'
            exact .lines lines lines' rest rest' hq hleft hleft' hlines hrest

/-- Requests that are spelled alike are parsed alike. -/
theorem parse_matches (hrefl : ∀ key value, similar key value value)
    (hfield : ∀ line line', alike line line' → FieldPair similar line line')
    {s s' : Bytes} (hsize : s.length ≤ kMaxRequestSize) (hsize' : s'.length ≤ kMaxRequestSize)
    (hspelled : SpelledAlike alike s s') :
    SameResult similar (fresh.parse s) (fresh.parse s') := by
  have hfits {t : Bytes} (ht : t.length ≤ kMaxRequestSize) :
      fresh.buf.length + t.length ≤ kMaxRequestSize := (Nat.zero_add _).le.trans ht
  rw [parse_eq_feed (hfits hsize), parse_eq_feed (hfits hsize')]
  apply Loop.run_related (L := parser.toLoop) (K := parser.toLoop) (R := SideBySide similar alike)
  · intro r r' hside
    exact related_rounds hrefl hfield hside
  · refine ⟨⟨rfl, rfl, rfl, rfl, rfl, rfl, rfl, fun _ => hrefl _ _⟩, ?_⟩
    cases hspelled with
    | same heq => exact .same heq
    | head first lines lines' rest rest' honeLine hs hs' hlines hrest =>
        exact .head first lines lines' rest rest' rfl honeLine hs hs' hlines hrest

/-! ## Spellings that the parser does not tell apart -/

theorem sameValue_refl (key value : Bytes) : SameValue key value value := by
  unfold SameValue
  split
  · rfl
  · rfl

/-- Respelled lines give the same number, and values that agree up to blanks. -/
theorem fieldPair_of_respelled {line line' : Bytes} (hrespelled : Respelled line line') :
    FieldPair SameValue line line' where
  hasColon := hrespelled.hasColon
  hasColon' := hrespelled.hasColon'
  name := hrespelled.name
  number := by
    intro hkey
    have hne : ¬ headerName line = connectionKey := by
      rw [hkey]
      decide
    have hvalue := hrespelled.value
    rw [SameValue, if_neg hne] at hvalue
    rw [← strtol_trimRight (headerValue line), ← strtol_trimRight (headerValue line'),
      trimRight_headerValue, trimRight_headerValue, hvalue]
  value := by
    have hvalue := hrespelled.value
    unfold SameValue at hvalue ⊢
    rw [trimRight_headerValue, trimRight_headerValue]
    exact hvalue

/-! ## The stored lines of two spellings -/

/-- Two lines at the same place of two requests. -/
def LineAlike (line line' : Bytes) : Prop := line = line' ∨ Respelled line line'

theorem LineAlike.name {line line' : Bytes} (halike : LineAlike line line') :
    headerName line = headerName line' := by
  obtain rfl | hrespelled := halike
  · rfl
  · exact hrespelled.name

theorem LineAlike.hasColon {line line' : Bytes} (halike : LineAlike line line') :
    colon ∈ line ↔ colon ∈ line' := by
  obtain rfl | hrespelled := halike
  · exact Iff.rfl
  · exact iff_of_true hrespelled.hasColon hrespelled.hasColon'

theorem LineAlike.goesOn {line line' : Bytes} (halike : LineAlike line line')
    (names : Finset Bytes) : GoesOn names line ↔ GoesOn names line' := by
  obtain rfl | hrespelled := halike
  · exact Iff.rfl
  · have hnumber := (fieldPair_of_respelled hrespelled).number
    rw [strtol_headerValue, strtol_headerValue] at hnumber
    rw [GoesOn, GoesOn, ← hrespelled.name]
    apply and_congr_left'
    constructor
    · intro hvalid hkey
      rw [← hnumber hkey]
      exact hvalid hkey
    · intro hvalid hkey
      rw [hnumber hkey]
      exact hvalid hkey

theorem storedOf_alike {lines lines' : List Bytes} (hlines : List.Forall₂ LineAlike lines lines')
    (names : Finset Bytes) :
    List.Forall₂ LineAlike (storedOf names lines) (storedOf names lines') := by
  induction hlines generalizing names with
  | nil => exact .nil
  | @cons line line' lines lines' halike hlines ih =>
      rw [storedOf, storedOf]
      by_cases hcolon : colon ∈ line
      · rw [if_pos hcolon, if_pos (halike.hasColon.mp hcolon)]
        refine .cons halike ?_
        by_cases hgoes : GoesOn names line
        · rw [if_pos hgoes, if_pos ((halike.goesOn names).mp hgoes), ← halike.name]
          exact ih _
        · rw [if_neg hgoes, if_neg fun hgoes' => hgoes ((halike.goesOn names).mpr hgoes')]
          exact .nil
      · rw [if_neg hcolon, if_neg fun hcolon' => hcolon (halike.hasColon.mpr hcolon')]
        exact .nil

theorem lineAlike_self (lines : List Bytes) : List.Forall₂ LineAlike lines lines :=
  List.forall₂_same.mpr fun _ _ => .inl rfl

theorem linesWithin_alike {lines lines' : List Bytes} {rest rest' : Bytes}
    (hlines : List.Forall₂ (LinePair Respelled) lines lines') (hrest : SameRest rest rest')
    {fuel fuel' : ℕ} (hfuel : (RequestText.linesBytes lines ++ rest).length ≤ fuel)
    (hfuel' : (RequestText.linesBytes lines' ++ rest').length ≤ fuel') :
    List.Forall₂ LineAlike (linesWithin fuel (RequestText.linesBytes lines ++ rest))
      (linesWithin fuel' (RequestText.linesBytes lines' ++ rest')) := by
  induction hlines generalizing fuel fuel' with
  | nil =>
      obtain rfl | ⟨hnone, hnone'⟩ := hrest
      · rw [linesWithin_eq hfuel' hfuel]
        exact lineAlike_self _
      · have hempty : linesWithin fuel rest = [] := linesWithin_unfinished hnone
        have hempty' : linesWithin fuel' rest' = [] := linesWithin_unfinished hnone'
        rw [RequestText.linesBytes_nil, List.nil_append, List.nil_append, hempty, hempty']
        exact .nil
  | @cons line line' lines lines' hpair hlines ih =>
      rw [RequestText.linesBytes_cons, List.append_assoc, List.append_assoc] at hfuel hfuel' ⊢
      rw [RequestText.linesBytes_cons, List.append_assoc, List.append_assoc,
        linesWithin_cons hpair.nonempty hpair.oneLine hfuel le_rfl,
        linesWithin_cons hpair.nonempty' hpair.oneLine' hfuel' le_rfl]
      exact .cons hpair.pair (ih le_rfl le_rfl)

/-- Two spellings have the same first line, and store lines that correspond. -/
theorem storedLines_alike {s s' : Bytes} (hspelled : SpelledAlike Respelled s s') :
    firstLine s = firstLine s' ∧ List.Forall₂ LineAlike (storedLines s) (storedLines s') := by
  cases hspelled with
  | same heq =>
      rw [heq]
      exact ⟨rfl, lineAlike_self _⟩
  | head first lines lines' rest rest' honeLine hs hs' hlines hrest =>
      have hfirst : firstLine s = firstLine s' := by
        rw [hs, hs', (lines_of_first honeLine _).1, (lines_of_first honeLine _).1]
      refine ⟨hfirst, ?_⟩
      rw [hs, hs', storedLines_of_first honeLine, storedLines_of_first honeLine]
      split
      · exact storedOf_alike (linesWithin_alike hlines hrest le_rfl le_rfl) ∅
      · exact .nil

/-- Both have a last line with a key, or neither has. -/
theorem lastLine_alike {lines lines' : List Bytes} (hlines : List.Forall₂ LineAlike lines lines')
    (key : Bytes) :
    (lastLine lines key = none ∧ lastLine lines' key = none) ∨
      ∃ line line', lastLine lines key = some line ∧ lastLine lines' key = some line' := by
  have hreverse : List.Forall₂ LineAlike lines.reverse lines'.reverse := List.rel_reverse hlines
  unfold lastLine
  generalize lines.reverse = before at hreverse
  generalize lines'.reverse = before' at hreverse
  induction hreverse with
  | nil => exact .inl ⟨rfl, rfl⟩
  | @cons line line' _ _ halike _ ih =>
      rw [List.find?_cons, List.find?_cons, halike.name]
      split
      · exact .inr ⟨line, line', rfl, rfl⟩
      · exact ih

/-! ## When two spellings mean the same -/

theorem isBlank_toLower (b : UInt8) :
    (toLower b = space ∨ toLower b = tab) ↔ (b = space ∨ b = tab) := by
  unfold toLower space tab
  grind

theorem lowered_lowered (value : Bytes) : lowered (lowered value) = lowered value := by
  rw [lowered, lowered, List.map_map]
  apply List.map_congr_left
  intro b _
  rw [Function.comp_apply]
  unfold toLower
  grind

/-- The blanks in front do not depend on the case of the letters. -/
theorem dropWhile_significant (key value : Bytes) :
    ((significant key value).dropWhile fun b => b = space ∨ b = tab) =
      significant key (value.dropWhile fun b => b = space ∨ b = tab) := by
  unfold significant
  split
  · induction value with
    | nil => rfl
    | cons b rest ih =>
        have hcons : lowered (b :: rest) = toLower b :: lowered rest := rfl
        by_cases hblank : b = space ∨ b = tab
        · rw [hcons, List.dropWhile_cons_of_pos (by simpa using (isBlank_toLower b).mpr hblank),
            List.dropWhile_cons_of_pos (by simpa using hblank)]
          exact ih
        · rw [hcons, List.dropWhile_cons_of_neg (by
              simpa using fun h => hblank ((isBlank_toLower b).mp h)),
            List.dropWhile_cons_of_neg (by simpa using hblank)]
          rfl
  · rfl

theorem significant_eq_nil (key : Bytes) {value : Bytes} :
    significant key value = [] ↔ value = [] := by
  unfold significant
  split
  · exact List.map_eq_nil_iff
  · rfl

/-- Blanks have no case. -/
theorem significant_of_blank (key : Bytes) {value : Bytes} (hblank : ∀ b ∈ value, IsBlank b) :
    significant key value = value := by
  unfold significant
  split
  · rw [lowered]
    conv_rhs => rw [← List.map_id value]
    apply List.map_congr_left
    intro b hmem
    rcases hblank b hmem with rfl | rfl
    · rfl
    · rfl
  · rfl

/-- Two lines store the same under a key exactly if their ends are the same. -/
theorem headerValue_alike_iff (key line line' : Bytes) :
    significant key (headerValue line) = significant key (headerValue line') ↔
      SameEnds key line line' := by
  have hstripped (heq : significant key (headerValue line) = significant key (headerValue line')) :
      significant key (strippedValue line) = significant key (strippedValue line') := by
    rw [← dropWhile_headerValue, ← dropWhile_headerValue, ← dropWhile_significant,
      ← dropWhile_significant, heq]
  constructor
  · intro heq
    refine ⟨hstripped heq, fun hempty => ?_⟩
    have hempty' : strippedValue line' = [] := by
      rw [← significant_eq_nil key, ← hstripped heq, hempty, significant_eq_nil]
    rw [headerValue_eq, headerValue_eq, if_pos hempty, if_pos hempty',
      significant_of_blank key (isBlank_of_stripped hempty),
      significant_of_blank key (isBlank_of_stripped hempty')] at heq
    exact heq
  · rintro ⟨hends, hall⟩
    have hboth : strippedValue line = [] ↔ strippedValue line' = [] := by
      rw [← significant_eq_nil key, hends, significant_eq_nil]
    by_cases hempty : strippedValue line = []
    · rw [headerValue_eq, headerValue_eq, if_pos hempty, if_pos (hboth.mp hempty), hall hempty]
    · rw [headerValue_eq, headerValue_eq, if_neg hempty, if_neg fun h => hempty (hboth.mpr h),
        hends]

/-- A word that starts visibly is stored exactly if it is written so. -/
theorem headerValue_eq_word {word : Bytes} (hne : word ≠ [])
    (hvisible : (word.dropWhile fun b => b = space ∨ b = tab) = word) (line : Bytes) :
    headerValue line = word ↔ strippedValue line = word := by
  constructor
  · intro heq
    rw [← dropWhile_headerValue, heq, hvisible]
  · intro heq
    have hstripped : strippedValue line ≠ [] := heq ▸ hne
    rw [headerValue_eq, if_neg hstripped, heq]

theorem headerValue_eq_decisive (s line : Bytes) :
    headerValue line = decisiveWord s ↔ strippedValue line = decisiveWord s := by
  unfold decisiveWord
  split
  · exact headerValue_eq_word (by decide) (by decide) line
  · exact headerValue_eq_word (by decide) (by decide) line

variable {s s' : Bytes}

/-- A line is stored only behind an accepted request line. -/
theorem exists_firstLine {key line : Bytes} (hlast : lastLine (storedLines s) key = some line) :
    ∃ first, firstLine s = some first ∧ TakesRequestLine first := by
  unfold storedLines at hlast
  cases hfirst : firstLine s with
  | none =>
      rw [hfirst] at hlast
      cases hlast
  | some first =>
      rw [hfirst, Option.elim_some] at hlast
      by_cases htakes : TakesRequestLine first
      · exact ⟨first, rfl, htakes⟩
      · rw [if_neg htakes] at hlast
        cases hlast

/-- The value under a key, in a request and in another spelling of it. -/
theorem getHeader_alike_iff (hsize : s.length ≤ kMaxRequestSize)
    (hsize' : s'.length ≤ kMaxRequestSize) (hspelled : SpelledAlike Respelled s s') (key : Bytes) :
    significant (lowered key) ((fresh.parse s).2.getHeader key) =
        significant (lowered key) ((fresh.parse s').2.getHeader key) ↔
      ∀ line ∈ lastLine (storedLines s) (lowered key),
        ∀ line' ∈ lastLine (storedLines s') (lowered key), SameEnds (lowered key) line line' := by
  rw [(parse_stores hsize).1 key, (parse_stores hsize').1 key]
  rcases lastLine_alike (storedLines_alike hspelled).2 (lowered key) with
    ⟨hnone, hnone'⟩ | ⟨line, line', hlast, hlast'⟩
  · simp [hnone, hnone']
  · simp [hlast, hlast', headerValue_alike_iff]

/-- Requests of one version are kept alike exactly if both say the word that is
not the default of the version, or neither. -/
theorem keepAlive_eq_iff {r r' : HttpRequest} (hversion : r.version = r'.version) :
    r.keepAlive = r'.keepAlive ↔
      if r.version = literal "HTTP/1.1" then
        (r.getHeader connectionKey = literal "close" ↔ r'.getHeader connectionKey = literal "close")
      else
        (r.getHeader connectionKey = literal "keep-alive" ↔
          r'.getHeader connectionKey = literal "keep-alive") := by
  rw [keepAlive, keepAlive, ← hversion]
  split
  · rw [decide_eq_decide]
    exact not_iff_not
  · rw [decide_eq_decide]

/-- The decision on the connection, for a request and another spelling of it. -/
theorem keepAlive_alike_iff (hsize : s.length ≤ kMaxRequestSize)
    (hsize' : s'.length ≤ kMaxRequestSize) (hspelled : SpelledAlike Respelled s s')
    (hversion : (fresh.parse s).2.version = (fresh.parse s').2.version) :
    (fresh.parse s).2.keepAlive = (fresh.parse s').2.keepAlive ↔
      ∀ line ∈ lastLine (storedLines s) connectionKey,
        ∀ line' ∈ lastLine (storedLines s') connectionKey,
          (strippedValue line = decisiveWord s ↔ strippedValue line' = decisiveWord s) := by
  have hkey : lowered connectionKey = connectionKey := by decide
  have hconn := (parse_stores hsize).1 connectionKey
  have hconn' := (parse_stores hsize').1 connectionKey
  rw [hkey] at hconn hconn'
  rw [keepAlive_eq_iff hversion, hconn, hconn']
  rcases lastLine_alike (storedLines_alike hspelled).2 connectionKey with
    ⟨hnone, hnone'⟩ | ⟨line, line', hlast, hlast'⟩
  · simp [hnone, hnone']
  · obtain ⟨first, hfirst, htakes⟩ := exists_firstLine hlast
    have hword := headerValue_eq_decisive s line
    have hword' := headerValue_eq_decisive s line'
    have hdecisive : decisiveWord s = if (fresh.parse s).2.version = literal "HTTP/1.1" then
        literal "close" else literal "keep-alive" := by
      rw [decisiveWord, hfirst, (parse_stores hsize).2 first hfirst htakes]
      simp
    simp only [hlast, hlast', Option.elim_some, Option.mem_def, Option.some.injEq, forall_eq']
    rw [← hword, ← hword', hdecisive]
    split
    · rfl
    · rfl

/-- A capital letter in the value of `Connection` is enough to keep the
connection open, and a blank value is stored with its blanks. -/
theorem spelling_changes_meaning :
    (¬ ∀ s s' : Bytes, s.length ≤ kMaxRequestSize → s'.length ≤ kMaxRequestSize →
      SpelledAlike Respelled s s' →
        (fresh.parse s).2.keepAlive = (fresh.parse s').2.keepAlive) ∧
    ¬ ∀ s s' : Bytes, s.length ≤ kMaxRequestSize → s'.length ≤ kMaxRequestSize →
      SpelledAlike Respelled s s' → ∀ key, lowered key ≠ connectionKey →
        (fresh.parse s).2.getHeader key = (fresh.parse s').2.getHeader key := by
  -- one header line of a request is spelled in another way
  have hspelled (line line' : Bytes) (hpair : LinePair Respelled line line') :
      SpelledAlike Respelled (literal "GET / HTTP/1.1" ++ (crlf ++ (line ++ crlf ++ crlf)))
        (literal "GET / HTTP/1.1" ++ (crlf ++ (line' ++ crlf ++ crlf))) :=
    .head (literal "GET / HTTP/1.1") [line] [line'] crlf crlf (by decide) (by simp) (by simp)
      (.cons hpair .nil) (.inl rfl)
  constructor
  · intro hall
    have hclaimed := hall _ _ (by decide) (by decide)
      (hspelled (literal "Connection: close") (literal "Connection: Close")
        ⟨by decide, by decide, by decide, by decide,
          .inr ⟨by decide, by decide, by decide, by decide⟩⟩)
    revert hclaimed
    decide +kernel
  · intro hall
    have hclaimed := hall _ _ (by decide) (by decide)
      (hspelled (literal "A:") (literal "A: ")
        ⟨by decide, by decide, by decide, by decide,
          .inr ⟨by decide, by decide, by decide, by decide⟩⟩) (literal "a") (by decide)
    revert hclaimed
    decide +kernel

/-- **Which spellings matter.** For two requests of at most 64 KB that differ in
the blanks around header values, in the case of header names and in the case of
`Connection` values: the verdict, `gotAll()`, the method, the path, the version
and the body are the same, and so is every header up to blanks behind its value,
and up to case for `Connection`.  A header is the same if and only if the last
stored lines with its name are written alike behind the blanks in front of
their values, and altogether where they are blank.  `keepAlive()` is the same if
and only if both last `Connection` lines say the decisive word or neither does.
So the requests mean the same if and only if all these lines are alike. -/
theorem respelled_requests_alike (hsize : s.length ≤ kMaxRequestSize)
    (hsize' : s'.length ≤ kMaxRequestSize) (hspelled : SpelledAlike Respelled s s') :
    ((fresh.parse s).1 = (fresh.parse s').1 ∧
      (fresh.parse s).2.gotAll = (fresh.parse s').2.gotAll ∧
      (fresh.parse s).2.method = (fresh.parse s').2.method ∧
      (fresh.parse s).2.path = (fresh.parse s').2.path ∧
      (fresh.parse s).2.version = (fresh.parse s').2.version ∧
      (fresh.parse s).2.body = (fresh.parse s').2.body ∧
      ∀ key, SameValue (lowered key) ((fresh.parse s).2.getHeader key)
        ((fresh.parse s').2.getHeader key)) ∧
    (∀ key, significant (lowered key) ((fresh.parse s).2.getHeader key) =
        significant (lowered key) ((fresh.parse s').2.getHeader key) ↔
      ∀ line ∈ lastLine (storedLines s) (lowered key),
        ∀ line' ∈ lastLine (storedLines s') (lowered key), SameEnds (lowered key) line line') ∧
    ((fresh.parse s).2.keepAlive = (fresh.parse s').2.keepAlive ↔
      ∀ line ∈ lastLine (storedLines s) connectionKey,
        ∀ line' ∈ lastLine (storedLines s') connectionKey,
          (strippedValue line = decisiveWord s ↔ strippedValue line' = decisiveWord s)) ∧
    (SameMeaning s s' ↔ LastLinesAlike s s') := by
  obtain ⟨hverdict, hsame⟩ :=
    parse_matches sameValue_refl (fun _ _ => fieldPair_of_respelled) hsize hsize' hspelled
  have hgot : (fresh.parse s).2.gotAll = (fresh.parse s').2.gotAll := by
    rw [gotAll, gotAll, hsame.state]
  have hheaders := getHeader_alike_iff hsize hsize' hspelled
  have hkeeps := keepAlive_alike_iff hsize hsize' hspelled hsame.version
  refine ⟨⟨hverdict, hgot, hsame.method, hsame.path, hsame.version, hsame.body,
    fun key => hsame.values (lowered key)⟩, hheaders, hkeeps, ?_⟩
  constructor
  · intro hmeaning
    refine ⟨fun key line hlast line' hlast' => ?_, hkeeps.mp hmeaning.keepAlive⟩
    -- names of stored lines are in lower case
    have hkey : lowered key = key := by
      rw [← headerName_of_lastLine hlast, headerName, lowered_lowered]
    have hends := (hheaders key).mp (hmeaning.headers key)
    rw [hkey] at hends
    exact hends line hlast line' hlast'
  · intro hlast
    exact ⟨hverdict, hgot, hsame.method, hsame.path, hsame.version, hsame.body,
      hkeeps.mpr hlast.decides, fun key => (hheaders key).mpr (hlast.ends (lowered key))⟩

/-- Two spellings of a request that mean the same: the lines that do not count
differ, and the others only in front of their values. -/
theorem respelled_requests_alike_last_lines :
    SameMeaning
      (literal "GET / HTTP/1.1\r\nConnection: Close \r\nA: b\r\nConnection:close\r\n\r\n")
      (literal "GET / HTTP/1.1\r\nconnection:close\r\na:b\r\nconnection: \tclose\r\n\r\n") := by
  have hpairs : List.Forall₂ (LinePair Respelled)
      [literal "Connection: Close ", literal "A: b", literal "Connection:close"]
      [literal "connection:close", literal "a:b", literal "connection: \tclose"] :=
    .cons ⟨by decide, by decide, by decide, by decide,
      .inr ⟨by decide, by decide, by decide, by decide⟩⟩
    (.cons ⟨by decide, by decide, by decide, by decide,
      .inr ⟨by decide, by decide, by decide, by decide⟩⟩
    (.cons ⟨by decide, by decide, by decide, by decide,
      .inr ⟨by decide, by decide, by decide, by decide⟩⟩ .nil))
  apply (respelled_requests_alike (by decide) (by decide)
    (.head (literal "GET / HTTP/1.1") _ _ crlf crlf (by decide) (by decide) (by decide) hpairs
      (.inl rfl))).2.2.2.mpr
  have hstored : storedLines (literal
      "GET / HTTP/1.1\r\nConnection: Close \r\nA: b\r\nConnection:close\r\n\r\n") =
      [literal "Connection: Close ", literal "A: b", literal "Connection:close"] := by
    decide +kernel
  have hstored' : storedLines (literal
      "GET / HTTP/1.1\r\nconnection:close\r\na:b\r\nconnection: \tclose\r\n\r\n") =
      [literal "connection:close", literal "a:b", literal "connection: \tclose"] := by
    decide +kernel
  constructor
  · intro key line hlast line' hlast'
    obtain rfl := headerName_of_lastLine hlast
    rw [hstored] at hlast
    rw [hstored'] at hlast'
    have hmem := List.mem_reverse.mp (List.mem_of_find?_eq_some hlast)
    rw [List.mem_cons, List.mem_cons, List.mem_singleton] at hmem
    rcases hmem with rfl | rfl | rfl
    · exact absurd hlast (by decide)
    · cases hlast'
      decide
    · cases hlast'
      decide
  · rw [hstored, hstored']
    intro line hlast line' hlast'
    cases hlast
    cases hlast'
    decide +kernel

end HttpRequest

end EpollHttpServer.Http
