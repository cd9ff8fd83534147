/-
# What a rejection stops

A rejected line has been taken off the buffer and the request stays in the state
in which it expected that line, so a later call reads the next line in its
place.  A request that was rejected can therefore still be completed by what
follows, unless nothing that follows can be read any more.

There are two ways in which nothing can: the buffer has no room for the end of
the line it holds, or the head that it holds declares a body that the buffer has
no room for.  Both are read off the bytes, and no call undoes them; in every other
case some continuation completes the request.
-/

import EpollHttpServer.Http.Rounds
import EpollHttpServer.Lib.Machine

namespace EpollHttpServer.Http

open EpollHttpServer.Lib

namespace HttpRequest

/-- Calls of `parse`, whatever they return, and of `reset()`. -/
def calls : Machine HttpRequest Call where
  init r := r = fresh
  step r
    | .parse data => some (r.parse data).2
    | .reset => some r.reset

/-- Successive calls of `parse`, whatever they return. -/
def parseMany (r : HttpRequest) (pieces : List Bytes) : HttpRequest :=
  pieces.foldl (fun r piece => (r.parse piece).2) r

@[simp]
theorem parseMany_nil (r : HttpRequest) : r.parseMany [] = r := rfl

/-- The request expects a line that is not complete, and there is no room for
the end of it. -/
structure LineTooLong (r : HttpRequest) : Prop where
  state : r.state = .kExpectRequestLine ∨ r.state = .kExpectHeaders
  unfinished : ¬ crlf <:+: r.buf
  full : r.buf.length = kMaxRequestSize ∨
    (r.buf.length + 1 = kMaxRequestSize ∧ r.buf.getLast? ≠ some cr)

/-- The bytes hold the rest of a head, up to its blank line, and the last length
that the head declares is over the limit.  Before the head, lines that are no
request line are skipped, and in it lines that are no header line. -/
inductive BodyTooLong : State → ℕ → Bytes → Prop where
  | body {length : ℕ} {s : Bytes} (hlong : kMaxRequestSize < length) :
      BodyTooLong .kExpectBody length s
  | blankLine {length : ℕ} {rest : Bytes} (hlong : kMaxRequestSize < length) :
      BodyTooLong .kExpectHeaders length (crlf ++ rest)
  | headerLine {length : ℕ} {line rest : Bytes} (hvalid : IsHeaderLine line)
      (hrest : BodyTooLong .kExpectHeaders
        (if headerName line = contentLengthKey then lengthOf line else length) rest) :
      BodyTooLong .kExpectHeaders length (line ++ (crlf ++ rest))
  | badHeader {length : ℕ} {line rest : Bytes} (hne : line ≠ []) (honeLine : ¬ crlf <:+: line)
      (hinvalid : ¬ IsHeaderLine line) (hrest : BodyTooLong .kExpectHeaders length rest) :
      BodyTooLong .kExpectHeaders length (line ++ (crlf ++ rest))
  | requestLine {length : ℕ} {line rest : Bytes} (hvalid : IsRequestLine line)
      (hrest : BodyTooLong .kExpectHeaders length rest) :
      BodyTooLong .kExpectRequestLine length (line ++ (crlf ++ rest))
  | badRequestLine {length : ℕ} {line rest : Bytes} (honeLine : ¬ crlf <:+: line)
      (hinvalid : ¬ IsRequestLine line) (hrest : BodyTooLong .kExpectRequestLine length rest) :
      BodyTooLong .kExpectRequestLine length (line ++ (crlf ++ rest))

/-- The request will never see the end of its body. -/
def Endless (r : HttpRequest) : Prop :=
  BodyTooLong r.state r.contentLength r.buf

/-! ## Reading one line of the head -/

namespace BodyTooLong

variable {state : State} {length : ℕ} {s : Bytes}

/-- More bytes behind the head do not make its body shorter. -/
theorem append (hlong : BodyTooLong state length s) (more : Bytes) :
    BodyTooLong state length (s ++ more) := by
  induction hlong with
  | body hlong => exact .body hlong
  | blankLine hlong =>
      rw [List.append_assoc]
      exact .blankLine hlong
  | headerLine hvalid _ ih =>
      rw [List.append_assoc, List.append_assoc]
      exact .headerLine hvalid ih
  | badHeader hne honeLine hinvalid _ ih =>
      rw [List.append_assoc, List.append_assoc]
      exact .badHeader hne honeLine hinvalid ih
  | requestLine hvalid _ ih =>
      rw [List.append_assoc, List.append_assoc]
      exact .requestLine hvalid ih
  | badRequestLine honeLine hinvalid _ ih =>
      rw [List.append_assoc, List.append_assoc]
      exact .badRequestLine honeLine hinvalid ih

theorem blankLine_iff {rest : Bytes} :
    BodyTooLong .kExpectHeaders length (crlf ++ rest) ↔ kMaxRequestSize < length := by
  constructor
  · intro hlong
    generalize hs : crlf ++ rest = s at hlong
    cases hlong with
    | blankLine hlong => exact hlong
    | headerLine hvalid =>
        have hnil := (firstLine_unique not_infix_nil hvalid.oneLine hs).1
        exact absurd hnil.symm hvalid.nonempty
    | badHeader hne honeLine =>
        have hnil := (firstLine_unique not_infix_nil honeLine hs).1
        exact absurd hnil.symm hne
  · exact .blankLine

theorem headerLine_iff {line rest : Bytes} (hvalid : IsHeaderLine line) :
    BodyTooLong .kExpectHeaders length (line ++ (crlf ++ rest)) ↔
      BodyTooLong .kExpectHeaders
        (if headerName line = contentLengthKey then lengthOf line else length) rest := by
  constructor
  · intro hlong
    generalize hs : line ++ (crlf ++ rest) = s at hlong
    cases hlong with
    | blankLine =>
        have hnil := (firstLine_unique hvalid.oneLine not_infix_nil hs).1
        exact absurd hnil hvalid.nonempty
    | headerLine hvalid' hrest =>
        obtain ⟨rfl, rfl⟩ := firstLine_unique hvalid.oneLine hvalid'.oneLine hs
        exact hrest
    | badHeader _ honeLine hinvalid =>
        obtain ⟨rfl, rfl⟩ := firstLine_unique hvalid.oneLine honeLine hs
        exact absurd hvalid hinvalid
  · exact .headerLine hvalid

theorem badHeader_iff {line rest : Bytes} (hne : line ≠ []) (honeLine : ¬ crlf <:+: line)
    (hinvalid : ¬ IsHeaderLine line) :
    BodyTooLong .kExpectHeaders length (line ++ (crlf ++ rest)) ↔
      BodyTooLong .kExpectHeaders length rest := by
  constructor
  · intro hlong
    generalize hs : line ++ (crlf ++ rest) = s at hlong
    cases hlong with
    | blankLine =>
        have hnil := (firstLine_unique honeLine not_infix_nil hs).1
        exact absurd hnil hne
    | headerLine hvalid =>
        obtain ⟨rfl, rfl⟩ := firstLine_unique honeLine hvalid.oneLine hs
        exact absurd hvalid hinvalid
    | badHeader _ honeLine' _ hrest =>
        obtain ⟨rfl, rfl⟩ := firstLine_unique honeLine honeLine' hs
        exact hrest
  · exact .badHeader hne honeLine hinvalid

theorem requestLine_iff {line rest : Bytes} (hvalid : IsRequestLine line) :
    BodyTooLong .kExpectRequestLine length (line ++ (crlf ++ rest)) ↔
      BodyTooLong .kExpectHeaders length rest := by
  constructor
  · intro hlong
    generalize hs : line ++ (crlf ++ rest) = s at hlong
    cases hlong with
    | requestLine hvalid' hrest =>
        obtain ⟨rfl, rfl⟩ := firstLine_unique hvalid.oneLine hvalid'.oneLine hs
        exact hrest
    | badRequestLine honeLine hinvalid =>
        obtain ⟨rfl, rfl⟩ := firstLine_unique hvalid.oneLine honeLine hs
        exact absurd hvalid hinvalid
  · exact .requestLine hvalid

theorem badRequestLine_iff {line rest : Bytes} (honeLine : ¬ crlf <:+: line)
    (hinvalid : ¬ IsRequestLine line) :
    BodyTooLong .kExpectRequestLine length (line ++ (crlf ++ rest)) ↔
      BodyTooLong .kExpectRequestLine length rest := by
  constructor
  · intro hlong
    generalize hs : line ++ (crlf ++ rest) = s at hlong
    cases hlong with
    | requestLine hvalid =>
        obtain ⟨rfl, rfl⟩ := firstLine_unique honeLine hvalid.oneLine hs
        exact absurd hvalid hinvalid
    | badRequestLine honeLine' _ hrest =>
        obtain ⟨rfl, rfl⟩ := firstLine_unique honeLine honeLine' hs
        exact hrest
  · exact .badRequestLine honeLine hinvalid

end BodyTooLong

/-! ## No call changes whether the body is too long -/

theorem endless_of_again {r r' : HttpRequest} (hpass : r.pass = .again r') :
    Endless r' ↔ Endless r := by
  unfold Endless
  cases round_of_pass hpass with
  | requestLine line rest hstate hbuf hline =>
      rw [hstate, hbuf]
      exact (BodyTooLong.requestLine_iff hline).symm
  | blankLine rest hstate hbuf =>
      rw [hstate, hbuf, BodyTooLong.blankLine_iff]
      dsimp only
      constructor
      · intro hlong
        split at hlong
        · cases hlong with
          | body hlong => exact hlong
        · cases hlong
      · intro hlong
        rw [if_pos (Nat.zero_lt_of_lt hlong)]
        exact .body hlong
  | headerLine line rest hstate hbuf hvalid =>
      rw [hstate, hbuf]
      show BodyTooLong r.state _ rest ↔ _
      rw [hstate]
      exact (BodyTooLong.headerLine_iff hvalid).symm

theorem endless_of_rejects {r r' : HttpRequest} (hpass : r.pass = .done (false, r')) :
    Endless r' ↔ Endless r := by
  unfold Endless
  cases round_of_pass hpass with
  | badRequestLine line rest r' hstate hbuf honeLine hinvalid hkept =>
      rw [hkept.state, hkept.contentLength, hkept.buf, hstate, hbuf]
      exact (BodyTooLong.badRequestLine_iff honeLine hinvalid).symm
  | oneTooMany line rest hstate hbuf hvalid =>
      rw [hstate, hbuf]
      show BodyTooLong r.state _ rest ↔ _
      rw [hstate]
      exact (BodyTooLong.headerLine_iff hvalid).symm
  | badHeader line rest r' hstate hbuf hne honeLine hinvalid hkept =>
      rw [hkept.state, hkept.contentLength, hkept.buf, hstate, hbuf]
      exact (BodyTooLong.badHeader_iff hne honeLine hinvalid).symm

/-- A body that is buffered completely was not too long. -/
theorem endless_of_waits {r r' : HttpRequest} (hsize : r.buf.length ≤ kMaxRequestSize)
    (hpass : r.pass = .done (true, r')) : Endless r' ↔ Endless r := by
  unfold Endless
  cases round_of_pass hpass with
  | waits => exact Iff.rfl
  | body hstate hall =>
      rw [hstate]
      constructor
      · intro hlong
        cases hlong
      · intro hlong
        cases hlong with
        | body hlong => exact absurd (hall.trans hsize) (not_le.mpr hlong)

theorem endless_run {r : HttpRequest} (hsize : r.buf.length ≤ kMaxRequestSize) :
    Endless (parser.run r).2 ↔ Endless r := by
  revert hsize
  apply Loop.run_induction (L := parser.toLoop)
    (P := fun r result => r.buf.length ≤ kMaxRequestSize → (Endless result.2 ↔ Endless r))
  · intro r result hpass hsize
    obtain ⟨verdict, r'⟩ := result
    cases verdict with
    | false => exact endless_of_rejects hpass
    | true => exact endless_of_waits hsize hpass
  · intro r r' hpass ih hsize
    exact (ih ((pass_decreases hpass).le.trans hsize)).trans (endless_of_again hpass)

theorem endless_parse {r : HttpRequest} {data : Bytes}
    (hsize : r.buf.length + data.length ≤ kMaxRequestSize) :
    Endless (r.parse data).2 ↔ Endless (r.push data) := by
  have hpushed : (r.push data).buf.length ≤ kMaxRequestSize := by
    rwa [push_buf, List.length_append]
  rw [parse_eq_feed hsize]
  exact endless_run hpushed

/-! ## A request that can be completed -/

/-- Some further calls complete the request. -/
def Completes (r : HttpRequest) : Prop :=
  ∃ pieces, (r.parseMany pieces).gotAll = true

theorem completes_of_gotAll {r : HttpRequest} (hgot : r.gotAll = true) : Completes r :=
  ⟨[], hgot⟩

theorem completes_of_parse {r : HttpRequest} (piece : Bytes)
    (hcompletes : Completes (r.parse piece).2) : Completes r := by
  obtain ⟨pieces, hgot⟩ := hcompletes
  exact ⟨piece :: pieces, hgot⟩

/-- The request waits for the next line of its head and has nothing of it. -/
structure BetweenLines (r : HttpRequest) (state : State) : Prop where
  state : r.state = state
  buf : r.buf = []

theorem BetweenLines.pass {r : HttpRequest} {state : State} (hbetween : BetweenLines r state)
    (hline : state = .kExpectRequestLine ∨ state = .kExpectHeaders) :
    r.pass = .done (true, r) := by
  apply pass_unfinished
  · rw [hbetween.state]
    exact hline
  · rw [hbetween.buf]
    exact not_infix_nil

/-- The call that ends a line: the loop takes that line and waits again. -/
theorem parse_ends_line {r r' : HttpRequest} {piece : Bytes} {state : State}
    (hsize : r.buf.length + piece.length ≤ kMaxRequestSize)
    (hpass : (r.push piece).pass = .again r' ∨ (r.push piece).pass = .done (false, r'))
    (hbetween : BetweenLines r' state)
    (hline : state = .kExpectRequestLine ∨ state = .kExpectHeaders) :
    (r.parse piece).2 = r' := by
  rw [parse_eq_feed hsize]
  show (parser.run (r.push piece)).2 = r'
  obtain hagain | hrejects := hpass
  · rw [run_of_again hagain, run_of_done (hbetween.pass hline)]
  · rw [run_of_done hrejects]

/-- A round that finds a complete line does not wait. -/
theorem not_idle_of_line {r : HttpRequest} {line rest : Bytes}
    (hstate : r.state = .kExpectRequestLine ∨ r.state = .kExpectHeaders)
    (hbuf : r.buf = line ++ (crlf ++ rest)) : ¬ Idle r := by
  intro hidle
  cases hidle with
  | line _ hnone =>
      apply hnone
      rw [hbuf]
      exact ⟨line, rest, List.append_assoc ..⟩
  | body hbody =>
      rw [hbody] at hstate
      obtain hstate | hstate := hstate
      · cases hstate
      · cases hstate
  | complete hdone =>
      rw [hdone] at hstate
      obtain hstate | hstate := hstate
      · cases hstate
      · cases hstate

/-- A round takes a request line off the buffer, whether it accepts it or not. -/
theorem pass_takes_requestLine {r : HttpRequest} {line rest : Bytes}
    (hstate : r.state = .kExpectRequestLine) (hbuf : r.buf = line ++ (crlf ++ rest))
    (honeLine : ¬ crlf <:+: line) :
    ∃ r', (r.pass = .again r' ∨ r.pass = .done (false, r')) ∧ r'.buf = rest ∧
      (r'.state = .kExpectHeaders ∨ (r'.state = .kExpectRequestLine ∧ ¬ IsRequestLine line)) := by
  have hround := r.pass_round
  generalize r.pass = result at hround
  cases hround with
  | waits hidle => exact absurd hidle (not_idle_of_line (.inl hstate) hbuf)
  | requestLine line' rest' _ hbuf' hline =>
      obtain ⟨rfl, rfl⟩ := firstLine_unique hline.oneLine honeLine (hbuf'.symm.trans hbuf)
      exact ⟨_, .inl rfl, rfl, .inl rfl⟩
  | badRequestLine line' rest' r' _ hbuf' honeLine' hinvalid hkept =>
      obtain ⟨rfl, rfl⟩ := firstLine_unique honeLine' honeLine (hbuf'.symm.trans hbuf)
      exact ⟨r', .inr rfl, hkept.buf, .inr ⟨hkept.state.trans hstate, hinvalid⟩⟩
  | blankLine _ hother | headerLine _ _ hother | oneTooMany _ _ hother
  | badHeader _ _ _ hother | body hother =>
      rw [hstate] at hother
      cases hother

/-- A round takes a header line off the buffer, whether it accepts it or not, and
stores the number of a valid content length in either case. -/
theorem pass_takes_headerLine {r : HttpRequest} {line rest : Bytes}
    (hstate : r.state = .kExpectHeaders) (hbuf : r.buf = line ++ (crlf ++ rest))
    (hne : line ≠ []) (honeLine : ¬ crlf <:+: line) :
    ∃ r', (r.pass = .again r' ∨ r.pass = .done (false, r')) ∧ r'.buf = rest ∧
      r'.state = .kExpectHeaders ∧
      (IsHeaderLine line → r'.contentLength = (r.storeHeader line).contentLength) := by
  have hround := r.pass_round
  generalize r.pass = result at hround
  cases hround with
  | waits hidle => exact absurd hidle (not_idle_of_line (.inr hstate) hbuf)
  | blankLine rest' _ hbuf' =>
      have hnil := (firstLine_unique honeLine not_infix_nil (hbuf.symm.trans hbuf')).1
      exact absurd hnil hne
  | headerLine line' rest' _ hbuf' hvalid =>
      obtain ⟨rfl, rfl⟩ := firstLine_unique hvalid.oneLine honeLine (hbuf'.symm.trans hbuf)
      exact ⟨_, .inl rfl, rfl, hstate, fun _ => rfl⟩
  | oneTooMany line' rest' _ hbuf' hvalid =>
      obtain ⟨rfl, rfl⟩ := firstLine_unique hvalid.oneLine honeLine (hbuf'.symm.trans hbuf)
      exact ⟨_, .inr rfl, rfl, hstate, fun _ => rfl⟩
  | badHeader line' rest' r' _ hbuf' _ honeLine' hinvalid hkept =>
      obtain ⟨rfl, rfl⟩ := firstLine_unique honeLine' honeLine (hbuf'.symm.trans hbuf)
      exact ⟨r', .inr rfl, hkept.buf, hkept.state.trans hstate, fun hvalid =>
        absurd hvalid hinvalid⟩
  | requestLine _ _ hother | badRequestLine _ _ _ hother | body hother =>
      rw [hstate] at hother
      cases hother

/-- The blank line completes a head that declares no body. -/
theorem completes_of_noBody {r : HttpRequest} (hbetween : BetweenLines r .kExpectHeaders)
    (hlength : r.contentLength = 0) : Completes r := by
  apply completes_of_parse crlf
  apply completes_of_gotAll
  have hbuf : (r.push crlf).buf = crlf ++ [] := by
    rw [push_buf, hbetween.buf, List.nil_append, List.append_nil]
  have hfits : r.buf.length + crlf.length ≤ kMaxRequestSize := by
    rw [hbetween.buf]
    decide
  rw [parse_eq_feed hfits]
  show (parser.run (r.push crlf)).2.gotAll = true
  have hzero : (r.push crlf).contentLength = 0 := hlength
  rw [run_of_again (pass_blankLine (r := r.push crlf) hbetween.state hbuf), hzero,
    if_neg (lt_irrefl 0), run_of_done (pass_of_gotAll rfl)]
  rfl

/-- `"Content-Length: 0"` and a blank line complete a head. -/
theorem completes_of_headers {r : HttpRequest} (hbetween : BetweenLines r .kExpectHeaders) :
    Completes r := by
  let line := literal "Content-Length: 0"
  have hvalid : IsHeaderLine line :=
    ⟨by decide, by decide, by decide, fun _ => ⟨0, by decide, by decide⟩⟩
  have hbuf : (r.push (line ++ crlf)).buf = line ++ (crlf ++ []) := by
    rw [push_buf, hbetween.buf, List.nil_append, List.append_nil]
  obtain ⟨r', hpass, hrest, hstate, hlength⟩ :=
    pass_takes_headerLine (r := r.push (line ++ crlf)) hbetween.state hbuf hvalid.nonempty
      hvalid.oneLine
  have hfits : r.buf.length + (line ++ crlf).length ≤ kMaxRequestSize := by
    rw [hbetween.buf]
    decide
  have hafter : BetweenLines r' .kExpectHeaders := ⟨hstate, hrest⟩
  apply completes_of_parse (line ++ crlf)
  rw [parse_ends_line hfits hpass hafter (.inr rfl)]
  apply completes_of_noBody hafter
  rw [hlength hvalid]
  have hname : headerName line = contentLengthKey := by decide
  have hzero : lengthOf line = 0 := by decide
  simp only [storeHeader, hname, hzero, if_true]

/-- A request line can always follow. -/
theorem completes_of_requestLine {r : HttpRequest}
    (hbetween : BetweenLines r .kExpectRequestLine) : Completes r := by
  let line := literal "GET / HTTP/1.1"
  have hvalid : IsRequestLine line := ⟨by decide, by decide, by decide⟩
  have hbuf : (r.push (line ++ crlf)).buf = line ++ (crlf ++ []) := by
    rw [push_buf, hbetween.buf, List.nil_append, List.append_nil]
  obtain ⟨r', hpass, hrest, hstate | ⟨_, hinvalid⟩⟩ :=
    pass_takes_requestLine (r := r.push (line ++ crlf)) hbetween.state hbuf hvalid.oneLine
  · have hfits : r.buf.length + (line ++ crlf).length ≤ kMaxRequestSize := by
      rw [hbetween.buf]
      decide
    have hafter : BetweenLines r' .kExpectHeaders := ⟨hstate, hrest⟩
    apply completes_of_parse (line ++ crlf)
    rw [parse_ends_line hfits hpass hafter (.inr rfl)]
    exact completes_of_headers hafter
  · exact absurd hvalid hinvalid

/-- One more byte completes a terminator only behind a `'\r'`. -/
theorem infix_concat {s : Bytes} {b : UInt8} (hoccurs : crlf <:+: s ++ [b]) :
    crlf <:+: s ∨ (s.getLast? = some cr ∧ b = lf) := by
  obtain ⟨before, after, hsplit⟩ := hoccurs
  cases after using List.reverseRecOn with
  | nil =>
      have hends : before ++ [cr] ++ [lf] = s ++ [b] := by
        rw [← hsplit]
        simp [crlf]
      obtain ⟨hbefore, hlast⟩ := List.append_inj' hends rfl
      right
      rw [← hbefore]
      exact ⟨List.getLast?_concat, (List.singleton_inj.mp hlast).symm⟩
  | append_singleton after last _ =>
      rw [← List.append_assoc] at hsplit
      exact .inl ⟨before, after, (List.append_inj' hsplit rfl).1⟩

/-- Where there is room, a line can be ended, and not as a blank line. -/
theorem exists_line_end {r : HttpRequest} (hsize : r.buf.length ≤ kMaxRequestSize)
    (hstate : r.state = .kExpectRequestLine ∨ r.state = .kExpectHeaders)
    (hnone : ¬ crlf <:+: r.buf) (hroom : ¬ LineTooLong r) :
    ∃ piece line, r.buf.length + piece.length ≤ kMaxRequestSize ∧
      r.buf ++ piece = line ++ (crlf ++ []) ∧ line ≠ [] ∧ ¬ crlf <:+: line := by
  by_cases hthree : r.buf.length + 3 ≤ kMaxRequestSize
  · refine ⟨[slash] ++ crlf, r.buf ++ [slash], hthree, by simp, by simp, ?_⟩
    intro hoccurs
    obtain hearlier | ⟨-, hslash⟩ := infix_concat hoccurs
    · exact hnone hearlier
    · exact absurd hslash (by decide)
  · have hlong : 3 < kMaxRequestSize := by decide
    by_cases htwo : r.buf.length + 2 ≤ kMaxRequestSize
    · refine ⟨crlf, r.buf, htwo, by simp, ?_, hnone⟩
      intro hempty
      rw [hempty, List.length_nil] at hthree
      omega
    · -- only the `'\n'` of the terminator is still missing
      have hone : r.buf.length + 1 = kMaxRequestSize := by
        by_contra hone
        exact hroom ⟨hstate, hnone, .inl (by omega)⟩
      have hlast : r.buf.getLast? = some cr := by
        by_contra hlast
        exact hroom ⟨hstate, hnone, .inr ⟨hone, hlast⟩⟩
      obtain ⟨line, hline⟩ := List.getLast?_eq_some_iff.mp hlast
      refine ⟨[lf], line, hone.le, by rw [hline]; simp [crlf], ?_, ?_⟩
      · intro hempty
        rw [hline, hempty] at hone
        exact absurd hone (by decide)
      · intro hoccurs
        rw [hline] at hnone
        exact hnone (hoccurs.trans (List.prefix_append ..).isInfix)

theorem completes_of_unfinished_line {r : HttpRequest} (hsize : r.buf.length ≤ kMaxRequestSize)
    (hstate : r.state = .kExpectRequestLine ∨ r.state = .kExpectHeaders)
    (hnone : ¬ crlf <:+: r.buf) (hroom : ¬ LineTooLong r) : Completes r := by
  obtain ⟨piece, line, hfits, hbuf, hne, honeLine⟩ := exists_line_end hsize hstate hnone hroom
  apply completes_of_parse piece
  obtain hstate | hstate := hstate
  · obtain ⟨r', hpass, hrest, hafter | ⟨hafter, -⟩⟩ :=
      pass_takes_requestLine (r := r.push piece) hstate hbuf honeLine
    · rw [parse_ends_line hfits hpass ⟨hafter, hrest⟩ (.inr rfl)]
      exact completes_of_headers ⟨hafter, hrest⟩
    · rw [parse_ends_line hfits hpass ⟨hafter, hrest⟩ (.inl rfl)]
      exact completes_of_requestLine ⟨hafter, hrest⟩
  · obtain ⟨r', hpass, hrest, hafter, -⟩ :=
      pass_takes_headerLine (r := r.push piece) hstate hbuf hne honeLine
    rw [parse_ends_line hfits hpass ⟨hafter, hrest⟩ (.inr rfl)]
    exact completes_of_headers ⟨hafter, hrest⟩

theorem completes_of_unfinished_body {r : HttpRequest} (hstate : r.state = .kExpectBody)
    (hshort : r.buf.length < r.contentLength) (hlength : r.contentLength ≤ kMaxRequestSize) :
    Completes r := by
  let missing : Bytes := List.replicate (r.contentLength - r.buf.length) slash
  have hmissing : r.buf.length + missing.length = r.contentLength := by
    simp only [missing, List.length_replicate]
    omega
  apply completes_of_parse missing
  apply completes_of_gotAll
  rw [parse_eq_feed (hmissing.le.trans hlength)]
  have hall : (r.push missing).contentLength ≤ (r.push missing).buf.length := by
    rw [push_buf, List.length_append]
    exact hmissing.ge
  show (parser.run (r.push missing)).2.gotAll = true
  rw [run_of_done (pass_body (r := r.push missing) hstate hall)]
  rfl

/-- A line that has been rejected has left room for its terminator at least. -/
theorem room_of_rejects {r r' : HttpRequest} (hpass : r.pass = .done (false, r')) :
    r'.buf.length + 2 ≤ r.buf.length := by
  have hline : ∃ line, r.buf = line ++ (crlf ++ r'.buf) := by
    cases round_of_pass hpass with
    | badRequestLine line rest r' _ hbuf _ _ hkept =>
        rw [hkept.buf]
        exact ⟨line, hbuf⟩
    | oneTooMany line rest _ hbuf => exact ⟨line, hbuf⟩
    | badHeader line rest r' _ hbuf _ _ _ hkept =>
        rw [hkept.buf]
        exact ⟨line, hbuf⟩
  obtain ⟨line, hbuf⟩ := hline
  rw [hbuf, List.length_append, List.length_append, length_crlf]
  omega

theorem not_lineTooLong {r : HttpRequest} (hroom : r.buf.length + 2 ≤ kMaxRequestSize) :
    ¬ LineTooLong r := by
  intro hlong
  have hfull := hlong.full
  omega

/-- Where neither the line nor the body is too long, first the lines that are
buffered are read to the end, and then what is missing is sent. -/
theorem completes_of_room {r : HttpRequest} (hsize : r.buf.length ≤ kMaxRequestSize)
    (hroom : ¬ LineTooLong r) (hends : ¬ Endless r) : Completes (r.parse []).2 := by
  induction hlength : r.buf.length using Nat.strongRecOn generalizing r with
  | _ n ih =>
      subst hlength
      have hparse {q : HttpRequest} (hq : q.buf.length ≤ kMaxRequestSize) :
          q.parse [] = parser.run q := by
        rw [parse_eq_feed (by simpa using hq), Incremental.feed, parser.push_nil]
      rw [hparse hsize]
      cases hpass : r.pass with
      | again r' =>
          have hleft := room_of_again hpass
          have hsize' : r'.buf.length ≤ kMaxRequestSize := by omega
          have hrest := ih r'.buf.length (by omega) hsize' (not_lineTooLong (by omega))
            (fun hlong => hends ((endless_of_again hpass).mp hlong)) rfl
          rw [hparse hsize'] at hrest
          rw [run_of_again hpass]
          exact hrest
      | done result =>
          obtain ⟨verdict, r'⟩ := result
          rw [run_of_done hpass]
          cases verdict with
          | false =>
              have hleft := room_of_rejects hpass
              have hsize' : r'.buf.length ≤ kMaxRequestSize := by omega
              apply completes_of_parse []
              have hroom' : ¬ LineTooLong r' := not_lineTooLong (by omega)
              exact ih r'.buf.length (by omega) hsize' hroom'
                (fun hlong => hends ((endless_of_rejects hpass).mp hlong)) rfl
          | true =>
              cases round_of_pass hpass with
              | waits hidle =>
                  cases hidle with
                  | line hstate hnone =>
                      exact completes_of_unfinished_line hsize hstate hnone hroom
                  | body hstate hshort =>
                      apply completes_of_unfinished_body hstate hshort
                      by_contra hlong
                      apply hends
                      rw [Endless, hstate]
                      exact .body (not_le.mp hlong)
                  | complete hstate => exact completes_of_gotAll (decide_eq_true hstate)
              | body => exact completes_of_gotAll rfl

/-! ## A request that cannot be completed -/

/-- What fits behind a line that is too long does not end it. -/
theorem lineTooLong_push {r : HttpRequest} (hlong : LineTooLong r) {piece : Bytes}
    (hfits : r.buf.length + piece.length ≤ kMaxRequestSize) : LineTooLong (r.push piece) := by
  cases piece with
  | nil =>
      rw [show r.push [] = r from parser.push_nil r]
      exact hlong
  | cons b rest =>
      rw [List.length_cons] at hfits
      obtain hfull | ⟨hone, hlast⟩ := hlong.full
      · omega
      · have hnil : rest = [] := List.eq_nil_of_length_eq_zero (by omega)
        subst hnil
        refine ⟨hlong.state, ?_, .inl ?_⟩
        · intro hoccurs
          obtain hearlier | ⟨hcr, -⟩ := infix_concat hoccurs
          · exact hlong.unfinished hearlier
          · exact hlast hcr
        · rw [push_buf, List.length_append]
          exact hone

theorem lineTooLong_parse {r : HttpRequest} (hlong : LineTooLong r) (piece : Bytes) :
    LineTooLong (r.parse piece).2 := by
  by_cases hsize : kMaxRequestSize < r.buf.length + piece.length
  · rw [parse_of_too_large hsize]
    exact hlong
  · have hfits := not_lt.mp hsize
    have hpushed := lineTooLong_push hlong hfits
    rw [parse_eq_feed hfits]
    show LineTooLong (parser.run (r.push piece)).2
    rw [run_of_done (pass_unfinished hpushed.state hpushed.unfinished)]
    exact hpushed

theorem endless_of_parse {r : HttpRequest} (hlong : Endless r) (piece : Bytes) :
    Endless (r.parse piece).2 := by
  by_cases hsize : kMaxRequestSize < r.buf.length + piece.length
  · rw [parse_of_too_large hsize]
    exact hlong
  · exact (endless_parse (not_lt.mp hsize)).mpr (hlong.append piece)

theorem gotAll_of_lineTooLong {r : HttpRequest} (hlong : LineTooLong r) : r.gotAll = false := by
  obtain hstate | hstate := hlong.state
  · rw [gotAll, hstate]
    rfl
  · rw [gotAll, hstate]
    rfl

theorem gotAll_of_endless {r : HttpRequest} (hlong : Endless r) : r.gotAll = false := by
  apply decide_eq_false
  intro hstate
  rw [Endless, hstate] at hlong
  cases hlong

/-- A request that some calls complete has a line and a body that end. -/
theorem ends_of_completes {r : HttpRequest} (hcompletes : Completes r) :
    ¬ LineTooLong r ∧ ¬ Endless r := by
  obtain ⟨pieces, hgot⟩ := hcompletes
  induction pieces generalizing r with
  | nil =>
      constructor
      · intro hlong
        rw [parseMany_nil, gotAll_of_lineTooLong hlong] at hgot
        cases hgot
      · intro hlong
        rw [parseMany_nil, gotAll_of_endless hlong] at hgot
        cases hgot
  | cons piece pieces ih =>
      obtain ⟨hline, hbody⟩ := ih hgot
      exact ⟨fun hlong => hline (lineTooLong_parse hlong piece),
        fun hlong => hbody (endless_of_parse hlong piece)⟩

theorem completes_iff {r : HttpRequest} (hsize : r.buf.length ≤ kMaxRequestSize) :
    Completes r ↔ ¬ (LineTooLong r ∨ Endless r) := by
  rw [not_or]
  constructor
  · exact ends_of_completes
  · intro hends
    exact completes_of_parse [] (completes_of_room hsize hends.1 hends.2)

/-! ## Rejected calls -/

theorem room_of_rejected_run {r : HttpRequest} (hrejects : (parser.run r).1 = false) :
    (parser.run r).2.buf.length + 2 ≤ r.buf.length := by
  revert hrejects
  apply Loop.run_induction (L := parser.toLoop)
    (P := fun r result => result.1 = false → result.2.buf.length + 2 ≤ r.buf.length)
  · intro r result hpass hrejects
    obtain ⟨verdict, r'⟩ := result
    have hfalse : verdict = false := hrejects
    subst hfalse
    exact room_of_rejects hpass
  · intro r r' hpass ih hrejects
    exact (ih hrejects).trans (pass_decreases hpass).le

theorem buf_length_le_of_reachable {r : HttpRequest} (hreach : calls.Reachable r) :
    r.buf.length ≤ kMaxRequestSize := by
  apply Machine.Reachable.invariant (I := fun r => r.buf.length ≤ kMaxRequestSize) ?_ ?_ hreach
  · intro r hinit
    rw [show r = fresh from hinit]
    exact Nat.zero_le _
  · intro r call r' hbefore hstep
    cases call with
    | parse data =>
        cases hstep
        exact parse_buf_length_le data hbefore
    | reset =>
        cases hstep
        exact Nat.zero_le _

/-- No continuation completes a request that was not complete. -/
def Final (r : HttpRequest) : Prop :=
  r.gotAll = false → ∀ pieces, (r.parseMany pieces).gotAll = false

theorem final_iff {r : HttpRequest} (hsize : r.buf.length ≤ kMaxRequestSize) :
    Final r ↔ r.gotAll = true ∨ LineTooLong r ∨ Endless r := by
  have hcompletes := completes_iff hsize
  constructor
  · intro hfinal
    cases hgot : r.gotAll with
    | true => exact .inl rfl
    | false =>
        right
        by_contra hends
        obtain ⟨pieces, hcomplete⟩ := hcompletes.mpr hends
        rw [hfinal hgot pieces] at hcomplete
        cases hcomplete
  · rintro (hgot | hends) hnot pieces
    · rw [hgot] at hnot
      cases hnot
    · by_contra hcomplete
      exact hcompletes.mp ⟨pieces, Bool.eq_true_of_not_eq_false hcomplete⟩ hends

/-- What makes a rejection final: the request was complete; or the call was one
too large, and the line or the body is too long already; or the lines that come
with the call end a head whose body is too long. -/
def FinalRejection (r : HttpRequest) (data : Bytes) : Prop :=
  r.gotAll = true ∨
    if kMaxRequestSize < r.buf.length + data.length then LineTooLong r ∨ Endless r
    else Endless (r.push data)

/-- The bytes behind a malformed line are read as a valid request. -/
theorem rejection_not_final : ¬ ∀ (r : HttpRequest) (data : Bytes), calls.Reachable r →
    (r.parse data).1 = false → Final (r.parse data).2 := by
  intro hall
  have hclaimed := hall fresh (literal "x\r\n") (Machine.ReachableWhere.of_init rfl)
    (by decide +kernel) (by decide +kernel) [literal "GET / HTTP/1.1\r\n\r\n"]
  revert hclaimed
  decide +kernel

/-- **When a protocol error is final.** For every request that calls of `parse`
and `reset()` lead to, and every call of `parse` that is rejected: no further calls
of `parse` complete the request from not having been complete if and only if it
was complete, or the buffer has no room for the end of the line it holds, or the
head that it holds declares a body beyond the size limit. -/
theorem rejection_final_iff {r : HttpRequest} (hreach : calls.Reachable r) {data : Bytes}
    (hrejects : (r.parse data).1 = false) :
    Final (r.parse data).2 ↔ FinalRejection r data := by
  have hbuf := buf_length_le_of_reachable hreach
  rw [final_iff (parse_buf_length_le data hbuf), FinalRejection]
  by_cases hsize : kMaxRequestSize < r.buf.length + data.length
  · rw [if_pos hsize, parse_of_too_large hsize]
  · have hfits := not_lt.mp hsize
    have hopen : r.gotAll = false := by
      by_contra hgot
      rw [parse_of_gotAll (Bool.eq_true_of_not_eq_false hgot) hfits] at hrejects
      cases hrejects
    have hnot : (r.parse data).2.gotAll = false := by
      by_contra hgot
      have hwas := parse_rejects_gotAll hrejects (Bool.eq_true_of_not_eq_false hgot)
      rw [hopen] at hwas
      cases hwas
    have hroom : ¬ LineTooLong (r.parse data).2 := by
      rw [parse_eq_feed hfits] at hrejects ⊢
      have hleft := room_of_rejected_run (r := r.push data) hrejects
      rw [push_buf, List.length_append] at hleft
      exact not_lineTooLong (hleft.trans hfits)
    rw [if_neg hsize, hopen, hnot, endless_parse hfits]
    simp only [Bool.false_eq_true, false_or, hroom]

/-- A head with a malformed line that declares a body of 99999 bytes. -/
def oversized : Bytes :=
  literal "POST / HTTP/1.1\r\nContent-Length: 99999\r\nbad\r\n\r\n"

/-- After its rejection nothing completes the request. -/
theorem rejection_final_oversized : Final (fresh.parse oversized).2 := by
  apply (rejection_final_iff (Machine.ReachableWhere.of_init rfl) (by decide +kernel)).mpr
  right
  rw [if_neg (by decide)]
  have hrequestLine : IsRequestLine (literal "POST / HTTP/1.1") :=
    ⟨by decide, by decide, by decide⟩
  have hlength : IsHeaderLine (literal "Content-Length: 99999") :=
    ⟨by decide, by decide, by decide, fun _ => ⟨99999, by decide, by decide⟩⟩
  have hbad : ¬ IsHeaderLine (literal "bad") := fun hvalid => absurd hvalid.hasColon (by decide)
  have hblank : BodyTooLong .kExpectHeaders (lengthOf (literal "Content-Length: 99999"))
      (crlf ++ []) := .blankLine (by decide)
  exact .requestLine hrequestLine
    (.headerLine hlength (.badHeader (by decide) (by decide) hbad hblank))

end HttpRequest

end EpollHttpServer.Http
