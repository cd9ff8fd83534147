/-
# The header lines that the parser stores

The parser stores header lines until it comes to the empty line, to a line that
is not complete, or to one that it rejects.  A line without a colon is rejected
before it is stored, and a bad content length or a name too many behind it.

Here the stored lines are read off the stream.  For every stream, whether it is
accepted or not, the value under a key is that of the last stored line with
this key.
-/

import EpollHttpServer.Http.Rounds

namespace EpollHttpServer.Http

open EpollHttpServer.Lib

/-- The complete lines in front of the first empty one, `fuel` of them at most. -/
def linesWithin : ℕ → Bytes → List Bytes
  | 0, _ => []
  | fuel + 1, s =>
    match find crlf s with
    | none => []
    | some pos =>
      if s.take pos = [] then []
      else s.take pos :: linesWithin fuel (s.drop (pos + 2))

/-- The first line of a stream, if it is complete. -/
def firstLine (s : Bytes) : Option Bytes :=
  (find crlf s).map s.take

/-- The lines between the first line and the empty one. -/
def streamLines (s : Bytes) : List Bytes :=
  (find crlf s).elim [] fun pos => linesWithin s.length (s.drop (pos + 2))

/-- The parser goes on behind a header line with a colon, when it has stored
lines with these names. -/
def GoesOn (names : Finset Bytes) (line : Bytes) : Prop :=
  (headerName line = contentLengthKey → ∃ n ∈ strtol (strippedValue line), 0 ≤ n) ∧
    (insert (headerName line) names).card ≤ kMaxHeaderCount

instance (names : Finset Bytes) (line : Bytes) : Decidable (GoesOn names line) :=
  inferInstanceAs (Decidable (_ ∧ _))

/-- Of these lines, the ones that the parser stores. -/
def storedOf (names : Finset Bytes) : List Bytes → List Bytes
  | [] => []
  | line :: lines =>
    if colon ∈ line then
      line :: if GoesOn names line then storedOf (insert (headerName line) names) lines else []
    else []

/-- The parser accepts this as a request line. -/
def TakesRequestLine (line : Bytes) : Prop :=
  2 ≤ line.count space ∧ httpSlash <+: afterLast space line

instance (line : Bytes) : Decidable (TakesRequestLine line) :=
  inferInstanceAs (Decidable (_ ∧ _))

/-- The header lines of a stream that the parser stores. -/
def storedLines (s : Bytes) : List Bytes :=
  (firstLine s).elim [] fun line =>
    if TakesRequestLine line then storedOf ∅ (streamLines s) else []

namespace HttpRequest

/-! ## Lines of a stream -/

theorem linesWithin_of_find {fuel pos : ℕ} {s : Bytes} (hpos : find crlf s = some pos) :
    linesWithin (fuel + 1) s =
      if s.take pos = [] then [] else s.take pos :: linesWithin fuel (s.drop (pos + 2)) := by
  rw [linesWithin, hpos]

/-- An unfinished line is not one of them. -/
theorem linesWithin_unfinished {fuel : ℕ} {s : Bytes} (hnone : ¬ crlf <:+: s) :
    linesWithin fuel s = [] := by
  cases fuel with
  | zero => rfl
  | succ fuel => rw [linesWithin, find_eq_none_iff.mpr hnone]

/-- There are no more lines than bytes. -/
theorem linesWithin_eq {fuel fuel' : ℕ} {s : Bytes} (hfuel : s.length ≤ fuel)
    (hfuel' : s.length ≤ fuel') : linesWithin fuel s = linesWithin fuel' s := by
  induction fuel generalizing fuel' s with
  | zero =>
      have hempty : s = [] := List.length_eq_zero_iff.mp (Nat.le_zero.mp hfuel)
      rw [hempty, linesWithin_unfinished not_infix_nil, linesWithin_unfinished not_infix_nil]
  | succ fuel ih =>
      cases hpos : find crlf s with
      | none =>
          have hnone := find_eq_none_iff.mp hpos
          rw [linesWithin_unfinished hnone, linesWithin_unfinished hnone]
      | some pos =>
          have hbehind := length_behind_line hpos
          obtain ⟨fuel', rfl⟩ : ∃ k, fuel' = k + 1 := ⟨fuel' - 1, by omega⟩
          have hsame : linesWithin fuel (s.drop (pos + 2)) = linesWithin fuel' (s.drop (pos + 2)) :=
            ih (by omega) (by omega)
          rw [linesWithin_of_find hpos, linesWithin_of_find hpos, hsame]

/-- A complete line in front of others. -/
theorem linesWithin_cons {fuel fuel' : ℕ} {line rest : Bytes} (hne : line ≠ [])
    (honeLine : ¬ crlf <:+: line) (hfuel : (line ++ (crlf ++ rest)).length ≤ fuel)
    (hfuel' : rest.length ≤ fuel') :
    linesWithin fuel (line ++ (crlf ++ rest)) = line :: linesWithin fuel' rest := by
  obtain ⟨hpos, hline, hrest⟩ := split_complete_line honeLine rest
  have hlonger : (line ++ (crlf ++ rest)).length = line.length + (2 + rest.length) := by simp
  obtain ⟨fuel, rfl⟩ : ∃ k, fuel = k + 1 := ⟨fuel - 1, by omega⟩
  rw [linesWithin_of_find hpos, hline, hrest, if_neg hne,
    linesWithin_eq (s := rest) (by omega) hfuel']

theorem lines_of_first {line : Bytes} (honeLine : ¬ crlf <:+: line) (rest : Bytes) :
    firstLine (line ++ (crlf ++ rest)) = some line ∧
      streamLines (line ++ (crlf ++ rest)) = linesWithin rest.length rest := by
  obtain ⟨hpos, hline, hrest⟩ := split_complete_line honeLine rest
  have hlonger : (line ++ (crlf ++ rest)).length = line.length + (2 + rest.length) := by simp
  rw [firstLine, streamLines, hpos, Option.map_some, Option.elim_some, hline, hrest]
  exact ⟨rfl, linesWithin_eq (by omega) le_rfl⟩

theorem storedLines_of_first {line rest : Bytes} (honeLine : ¬ crlf <:+: line) :
    storedLines (line ++ (crlf ++ rest)) =
      if TakesRequestLine line then storedOf ∅ (linesWithin rest.length rest) else [] := by
  obtain ⟨hfirst, hhead⟩ := lines_of_first honeLine rest
  rw [storedLines, hfirst, hhead, Option.elim_some]

/-- Without a complete line nothing is stored. -/
theorem storedLines_unfinished {s : Bytes} (hnone : ¬ crlf <:+: s) : storedLines s = [] := by
  rw [storedLines, firstLine, find_eq_none_iff.mpr hnone, Option.map_none, Option.elim_none]

/-- The value under a key, when there is one more line in front. -/
theorem lastLine_cons_elim (line : Bytes) (lines : List Bytes) (key value : Bytes) :
    (lastLine (line :: lines) key).elim value headerValue =
      (lastLine lines key).elim (if headerName line = key then headerValue line else value)
        headerValue := by
  rw [lastLine, lastLine, List.reverse_cons, List.find?_append]
  cases lines.reverse.find? fun other => decide (headerName other = key) with
  | some other => rfl
  | none =>
      by_cases hname : headerName line = key
      · simp [hname]
      · simp [hname]

/-- The last line with a key has this key. -/
theorem headerName_of_lastLine {lines : List Bytes} {key line : Bytes}
    (hlast : lastLine lines key = some line) : headerName line = key := by
  have hfound := List.find?_some hlast
  exact of_decide_eq_true hfound

theorem parseHeader_headers (r : HttpRequest) (line : Bytes) :
    (r.parseHeader line).2.headers =
      if colon ∈ line then r.headers.insert (headerName line) (headerValue line)
      else r.headers := by
  rcases parseHeader_stores r line with ⟨hcolon, hsame⟩ | ⟨hcolon, contentLength, hstored⟩
  · rw [if_neg hcolon, hsame]
  · rw [if_pos hcolon, hstored]

theorem parseHeader_version (r : HttpRequest) (line : Bytes) :
    (r.parseHeader line).2.version = r.version := by
  rcases parseHeader_stores r line with ⟨_, hsame⟩ | ⟨_, contentLength, hstored⟩
  · rw [hsame]
  · rw [hstored]

/-- When `parseHeader` accepts a line with a colon. -/
theorem parseHeader_accepts (r : HttpRequest) {line : Bytes} (hcolon : colon ∈ line) :
    (r.parseHeader line).1 = true ↔
      (headerName line = contentLengthKey → ∃ n ∈ strtol (strippedValue line), 0 ≤ n) := by
  rw [parseHeader_of_colon r hcolon, strtol_headerValue]
  dsimp only
  by_cases hkey : headerName line = contentLengthKey
  · rw [if_pos hkey]
    cases strtol (strippedValue line) with
    | none => simp [hkey]
    | some n =>
        by_cases hneg : n < 0
        · simp [hkey, hneg]
        · simp [hkey, hneg, not_lt.mp hneg]
  · rw [if_neg hkey]
    simp [hkey]

/-! ## What is stored in the end -/

/-- The values and the version that a run of the loop leaves, when it has these
lines to store. -/
structure Stores (r : HttpRequest) (lines : List Bytes) (r' : HttpRequest) : Prop where
  values : ∀ key, HeaderMap.valueOf r'.headers key =
    (lastLine lines key).elim (HeaderMap.valueOf r.headers key) headerValue
  version : r'.version = r.version

theorem Stores.none {r r' : HttpRequest} (hheaders : r'.headers = r.headers)
    (hversion : r'.version = r.version) : Stores r [] r' :=
  ⟨fun key => by rw [hheaders]; rfl, hversion⟩

/-- Only the headers and the version matter. -/
theorem Stores.move {r q r' : HttpRequest} {lines : List Bytes} (hstores : Stores q lines r')
    (hheaders : q.headers = r.headers) (hversion : q.version = r.version) : Stores r lines r' :=
  ⟨fun key => hheaders ▸ hstores.values key, hstores.version.trans hversion⟩

/-- One line is stored, and then these. -/
theorem Stores.cons {r q r' : HttpRequest} {line : Bytes} {lines : List Bytes}
    (hheaders : q.headers = r.headers.insert (headerName line) (headerValue line))
    (hversion : q.version = r.version) (hstores : Stores q lines r') :
    Stores r (line :: lines) r' := by
  refine ⟨fun key => ?_, hstores.version.trans hversion⟩
  rw [hstores.values key, lastLine_cons_elim, hheaders]
  by_cases hname : headerName line = key
  · rw [if_pos hname, ← hname, HeaderMap.valueOf_insert]
  · rw [if_neg hname, HeaderMap.valueOf_insert_ne _ _ (Ne.symm hname)]

/-- The lines that a request has to store from its buffer. -/
def pendingLines (r : HttpRequest) : List Bytes :=
  match r.state with
  | .kExpectHeaders => storedOf r.headers.keys.toFinset (linesWithin r.buf.length r.buf)
  | _ => []

theorem pendingLines_of_find {r : HttpRequest} {pos : ℕ} (hstate : r.state = .kExpectHeaders)
    (hpos : find crlf r.buf = some pos) (hne : r.buf.take pos ≠ []) :
    r.pendingLines = storedOf r.headers.keys.toFinset
      (r.buf.take pos :: linesWithin (r.buf.drop (pos + 2)).length (r.buf.drop (pos + 2))) := by
  obtain ⟨hsplit, honeLine⟩ := exists_complete_line hpos
  rw [pendingLines, hstate]
  dsimp only
  conv_lhs => rw [hsplit]
  rw [linesWithin_cons hne honeLine le_rfl le_rfl]

/-- A header line with which the parser goes on. -/
theorem goesOn_iff {r q : HttpRequest} {line : Bytes} {verdict : Bool} (hcolon : colon ∈ line)
    (hparse : r.parseHeader line = (verdict, q)) :
    GoesOn r.headers.keys.toFinset line ↔
      verdict = true ∧ HeaderMap.size q.headers ≤ kMaxHeaderCount := by
  have haccepts := r.parseHeader_accepts hcolon
  have hheaders := r.parseHeader_headers line
  rw [hparse] at haccepts hheaders
  rw [if_pos hcolon] at hheaders
  rw [GoesOn, ← haccepts, HeaderMap.size_eq_card, hheaders, HeaderMap.keys_toFinset_insert]

/-- A header line behind which the parser rejects is the last one stored. -/
theorem stores_last {r q : HttpRequest} {line : Bytes} {verdict : Bool}
    (hparse : r.parseHeader line = (verdict, q))
    (hrejects : verdict = true → kMaxHeaderCount < HeaderMap.size q.headers)
    (lines : List Bytes) : Stores r (storedOf r.headers.keys.toFinset (line :: lines)) q := by
  have hheaders := r.parseHeader_headers line
  have hversion := r.parseHeader_version line
  rw [hparse] at hheaders hversion
  by_cases hcolon : colon ∈ line
  · have hends : ¬ GoesOn r.headers.keys.toFinset line := by
      rw [goesOn_iff hcolon hparse]
      exact fun hboth => absurd (hrejects hboth.1) (not_lt.mpr hboth.2)
    rw [if_pos hcolon] at hheaders
    rw [storedOf, if_pos hcolon, if_neg hends]
    exact .cons hheaders hversion (.none rfl rfl)
  · rw [if_neg hcolon] at hheaders
    rw [storedOf, if_neg hcolon]
    exact .none hheaders hversion

/-- A header line that is accepted is stored, and then the lines behind it are. -/
theorem next_of_parse {r q : HttpRequest} {line rest : Bytes}
    (hparse : parseHeader { r with buf := rest } line = (true, q))
    (hcount : HeaderMap.size q.headers ≤ kMaxHeaderCount) :
    (∀ {lines : List Bytes} {r' : HttpRequest},
        Stores q (storedOf q.headers.keys.toFinset lines) r' →
          Stores r (storedOf r.headers.keys.toFinset (line :: lines)) r') ∧
      q.buf = rest ∧ q.state = r.state := by
  have hheaders := parseHeader_headers { r with buf := rest } line
  have hversion := parseHeader_version { r with buf := rest } line
  have hleft := parseHeader_buf { r with buf := rest } line
  have hkept := parseHeader_state { r with buf := rest } line
  rw [hparse] at hheaders hversion hleft hkept
  have hcolon : colon ∈ line := by
    by_contra hnone
    rw [parseHeader_of_no_colon _ hnone] at hparse
    cases hparse
  have hgoes : GoesOn r.headers.keys.toFinset line := (goesOn_iff hcolon hparse).mpr ⟨rfl, hcount⟩
  rw [if_pos hcolon] at hheaders
  have hnames : q.headers.keys.toFinset = insert (headerName line) r.headers.keys.toFinset := by
    rw [hheaders, HeaderMap.keys_toFinset_insert]
  refine ⟨?_, hleft, hkept⟩
  intro lines r' hstores
  rw [storedOf, if_pos hcolon, if_pos hgoes, ← hnames]
  exact .cons hheaders hversion hstores

/-- The run lemma: a request at its headers stores its pending lines. -/
theorem stores_run (r : HttpRequest) (hstate : r.state ≠ .kExpectRequestLine) :
    Stores r r.pendingLines (parser.run r).2 := by
  revert hstate
  apply Loop.run_induction (L := parser.toLoop)
    (P := fun r result => r.state ≠ .kExpectRequestLine → Stores r r.pendingLines result.2)
  · rintro r ⟨verdict, r'⟩ hpass hstate
    cases branch_of_pass hpass with
    | waits hidle =>
        cases hidle with
        | line _ hnone =>
            have hpending : r.pendingLines = [] := by
              rw [pendingLines, linesWithin_unfinished hnone]
              split
              · rfl
              · rfl
            rw [hpending]
            exact .none rfl rfl
        | body hbody | complete hbody =>
            rw [pendingLines, hbody]
            exact .none rfl rfl
    | badRequestLine _ _ hline => exact absurd hline hstate
    | oneTooMany pos r' hhead hpos hne hparse hcount =>
        rw [pendingLines_of_find hhead hpos hne]
        exact (stores_last hparse (fun _ => hcount) _).move rfl rfl
    | badHeader pos r' hhead hpos hne hparse =>
        rw [pendingLines_of_find hhead hpos hne]
        exact (stores_last hparse (fun htrue => absurd htrue Bool.false_ne_true) _).move rfl rfl
    | body hbody =>
        rw [pendingLines, hbody]
        exact .none rfl rfl
  · intro r q hpass ih hstate
    cases branch_of_pass hpass with
    | requestLine _ _ hline => exact absurd hline hstate
    | blankLine pos hhead hpos hblank =>
        have hpending : r.pendingLines = [] := by
          obtain ⟨n, hn⟩ : ∃ n, r.buf.length = n + 1 :=
            ⟨r.buf.length - 1, by have := length_behind_line hpos; omega⟩
          rw [pendingLines, hhead]
          dsimp only
          rw [hn, linesWithin_of_find hpos, if_pos hblank, storedOf]
        rw [hpending]
        by_cases hbody : 0 < r.contentLength
        · rw [if_pos hbody] at ih ⊢
          exact (ih (by simp)).move rfl rfl
        · rw [if_neg hbody] at ih ⊢
          exact (ih (by simp)).move rfl rfl
    | headerLine pos r' hhead hpos hne hparse hcount =>
        obtain ⟨hline, hleft, hkept⟩ := next_of_parse hparse hcount
        have hstate' : q.state = .kExpectHeaders := hkept.trans hhead
        rw [pendingLines_of_find hhead hpos hne]
        refine hline ?_
        have hstores := ih (by simp [hstate'])
        rw [pendingLines, hstate'] at hstores
        dsimp only at hstores
        rw [hleft] at hstores
        exact hstores

/-- A stream whose first line is not taken for a request line stores nothing. -/
theorem headers_run_of_bad_requestLine {r : HttpRequest} {line rest : Bytes}
    (hstate : r.state = .kExpectRequestLine) (hbuf : r.buf = line ++ (crlf ++ rest))
    (honeLine : ¬ crlf <:+: line) (hbad : ¬ TakesRequestLine line) :
    (parser.run r).2.headers = r.headers := by
  have hverdict : (parseRequestLine { r with buf := rest } line).1 = false := by
    by_cases hspaces : 2 ≤ line.count space
    · rw [parseRequestLine_of_spaces _ hspaces]
      exact decide_eq_false fun hversion => hbad ⟨hspaces, hversion⟩
    · rw [parseRequestLine_of_few_spaces _ hspaces]
  have hheaders := parseRequestLine_headers { r with buf := rest } line
  have hpass := pass_completeRequestLine hstate hbuf honeLine
  generalize parseRequestLine { r with buf := rest } line = result at hverdict hheaders hpass
  obtain ⟨verdict, q⟩ := result
  dsimp only at hverdict
  subst hverdict
  rw [run_of_done hpass]
  exact hheaders

/-- What one call of `parse` leaves under each key, and the version that counts. -/
theorem parse_stores {s : Bytes} (hsize : s.length ≤ kMaxRequestSize) :
    (∀ key, (fresh.parse s).2.getHeader key =
      (lastLine (storedLines s) (lowered key)).elim [] headerValue) ∧
    ∀ line, firstLine s = some line → TakesRequestLine line →
      (fresh.parse s).2.version = afterLast space line := by
  have hfits : fresh.buf.length + s.length ≤ kMaxRequestSize := (Nat.zero_add _).le.trans hsize
  have hrun : fresh.parse s = parser.run (fresh.push s) := parse_eq_feed hfits
  have hbuf : (fresh.push s).buf = s := rfl
  have hstate : (fresh.push s).state = .kExpectRequestLine := rfl
  have hnothing (key : Bytes) : HeaderMap.valueOf (fresh.push s).headers key = [] := rfl
  rw [hrun]
  cases hpos : find crlf s with
  | none =>
      have hnone := find_eq_none_iff.mp hpos
      rw [run_of_done (pass_unfinished (.inl hstate) hnone), storedLines_unfinished hnone]
      refine ⟨fun key => hnothing _, fun line hline _ => ?_⟩
      rw [firstLine, hpos] at hline
      cases hline
  | some pos =>
      obtain ⟨hsplit, honeLine⟩ := exists_complete_line hpos
      generalize s.take pos = line at hsplit honeLine
      generalize s.drop (pos + 2) = rest at hsplit
      have hfirst : firstLine s = some line := by
        rw [hsplit]
        exact (lines_of_first honeLine rest).1
      have hstored : storedLines s =
          if TakesRequestLine line then storedOf ∅ (linesWithin rest.length rest) else [] := by
        rw [hsplit]
        exact storedLines_of_first honeLine
      by_cases htakes : TakesRequestLine line
      · rw [if_pos htakes] at hstored
        rw [run_of_again (pass_requestLine hstate (hbuf.trans hsplit) honeLine htakes.1 htakes.2)]
        have hstores := stores_run
          { (fresh.push s).storeRequestLine line with buf := rest, state := .kExpectHeaders }
          (by simp)
        refine ⟨fun key => ?_, fun other hother _ => ?_⟩
        · rw [getHeader, hstores.values, hstored]
          rfl
        · rw [hstores.version, Option.some.inj (hfirst.symm.trans hother)]
          rfl
      · rw [if_neg htakes] at hstored
        refine ⟨fun key => ?_, fun other hother hgood => ?_⟩
        · rw [getHeader, headers_run_of_bad_requestLine hstate (hbuf.trans hsplit) honeLine htakes,
            hstored]
          exact hnothing _
        · rw [Option.some.inj (hfirst.symm.trans hother)] at htakes
          exact absurd hgood htakes

end HttpRequest

end EpollHttpServer.Http
