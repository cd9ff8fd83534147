/-
# What a request stores

Whatever the parser makes of its input, accepted or rejected, it moves bytes
out of the buffer into the fields of the request and drops some: the fields and
the buffer together never hold more bytes than were passed to `parse()`.  A
call stores any number of header lines as long as there are few, and at most
one more when there are too many, because it rejects there.
-/

import Mathlib.Algebra.Order.BigOperators.Group.List
import Mathlib.Algebra.Order.Ring.Nat
import EpollHttpServer.Http.Rounds

namespace EpollHttpServer.Http

open EpollHttpServer.Lib

namespace HeaderMap

/-- The bytes of all names and values. -/
def bytes (headers : HeaderMap) : ℕ :=
  (headers.entries.map fun entry => entry.1.length + entry.2.length).sum

theorem bytes_insert_le (headers : HeaderMap) (key value : Bytes) :
    bytes (headers.insert key value) ≤ bytes headers + (key.length + value.length) := by
  have hrest : ((headers.entries.kerase key).map
      fun entry => entry.1.length + entry.2.length).sum ≤ bytes headers :=
    ((List.kerase_sublist key headers.entries).map _).sum_le_sum (by simp)
  rw [bytes, AList.entries_insert, List.map_cons, List.sum_cons]
  dsimp only
  omega

theorem size_insert_le (headers : HeaderMap) (key value : Bytes) :
    size (headers.insert key value) ≤ size headers + 1 := by
  rw [size_eq_card, size_eq_card, keys_toFinset_insert]
  exact Finset.card_insert_le ..

end HeaderMap

theorem length_normalizePath_le (path : Bytes) :
    (normalizePath path).length ≤ path.length + 1 := by
  unfold normalizePath
  split
  · simp [slash]
  · split <;> simp

theorem length_trimLeft_le (value : Bytes) : (trimLeft value).length ≤ value.length := by
  unfold trimLeft
  split
  · exact le_rfl
  · simp

/-- The name and the value of a header are parts of the line without its colon. -/
theorem length_header_lt {line : Bytes} (hcolon : colon ∈ line) :
    (headerName line).length + (headerValue line).length < line.length := by
  obtain ⟨before, after, rfl, hfirst⟩ := List.eq_append_cons_of_mem hcolon
  have hvalue := length_trimLeft_le after
  rw [headerName, headerValue, beforeFirst_append hfirst, afterFirst_append hfirst, lowered,
    List.length_map, List.length_append, List.length_cons]
  omega

namespace HttpRequest

/-- The bytes that a request holds. -/
def held (r : HttpRequest) : ℕ :=
  r.method.length + r.path.length + r.version.length + HeaderMap.bytes r.headers +
    r.body.length + r.buf.length

/-- The parts of a request line, with a slash where there is none, take the
place of its two spaces. -/
theorem length_storeRequestLine_lt (r : HttpRequest) {line : Bytes}
    (hspaces : 2 ≤ line.count space) :
    (r.storeRequestLine line).method.length + (r.storeRequestLine line).path.length +
      (r.storeRequestLine line).version.length < line.length := by
  obtain ⟨first, middle, last, rfl, hfirst, hlast⟩ := two_le_count_iff.mp hspaces
  have hpath := length_normalizePath_le middle
  have hshape : first ++ space :: (middle ++ space :: last) =
      (first ++ space :: middle) ++ space :: last := by simp
  have hversion : afterLast space (first ++ space :: (middle ++ space :: last)) = last := by
    rw [hshape, afterLast_append _ hlast]
  dsimp only [storeRequestLine]
  rw [hversion, beforeFirst_append hfirst, afterFirst_append hfirst, beforeLast_append _ hlast]
  simp only [List.length_append, List.length_cons]
  omega

theorem held_parseRequestLine_le (r : HttpRequest) (line : Bytes) :
    (r.parseRequestLine line).2.held ≤ r.held + line.length := by
  by_cases hspaces : 2 ≤ line.count space
  · have hlt := length_storeRequestLine_lt r hspaces
    rw [parseRequestLine_of_spaces r hspaces]
    dsimp only [held, storeRequestLine] at hlt ⊢
    omega
  · rw [parseRequestLine_of_few_spaces r hspaces]
    exact Nat.le_add_right ..

theorem held_parseHeader_le (r : HttpRequest) (line : Bytes) :
    (r.parseHeader line).2.held ≤ r.held + line.length := by
  rcases parseHeader_stores r line with ⟨_, hsame⟩ | ⟨hcolon, contentLength, hstored⟩
  · rw [hsame]
    exact Nat.le_add_right ..
  · have hinsert := HeaderMap.bytes_insert_le r.headers (headerName line) (headerValue line)
    have hlt := length_header_lt hcolon
    rw [hstored]
    dsimp only [held]
    omega

theorem size_parseHeader_le (r : HttpRequest) (line : Bytes) :
    HeaderMap.size (r.parseHeader line).2.headers ≤ HeaderMap.size r.headers + 1 := by
  rcases parseHeader_stores r line with ⟨_, hsame⟩ | ⟨_, contentLength, hstored⟩
  · rw [hsame]
    exact Nat.le_add_right ..
  · rw [hstored]
    exact HeaderMap.size_insert_le ..

/-- A line parser that stores no more than the line keeps the balance. -/
theorem held_line_le {r r' : HttpRequest} {pos : ℕ}
    (hle : r'.held ≤ ({ r with buf := r.buf.drop (pos + 2) } : HttpRequest).held +
      (r.buf.take pos).length) (hpos : find crlf r.buf = some pos) : r'.held ≤ r.held := by
  have hinside := find_le hpos
  rw [length_crlf] at hinside
  rw [List.length_take] at hle
  dsimp only [held] at hle ⊢
  rw [List.length_drop] at hle
  omega

/-- The headers that a verdict leaves room for beyond those there were. -/
def excess (verdict : Bool) : ℕ :=
  if verdict then 0 else 1

/-- What a round that ends with `result` leaves in the request. -/
def HeldWithin (r : HttpRequest) : Pass HttpRequest (Bool × HttpRequest) → Prop
  | .again r' => r'.held ≤ r.held ∧
      HeaderMap.size r'.headers ≤ max kMaxHeaderCount (HeaderMap.size r.headers)
  | .done (verdict, r') => r'.held ≤ r.held ∧
      HeaderMap.size r'.headers ≤ HeaderMap.size r.headers + excess verdict

/-- The step lemma. -/
theorem heldWithin_pass (r : HttpRequest) : r.HeldWithin r.pass := by
  have hrequestLine (pos : ℕ) := held_parseRequestLine_le
    { r with buf := r.buf.drop (pos + 2) } (r.buf.take pos)
  have hheader (pos : ℕ) := held_parseHeader_le
    { r with buf := r.buf.drop (pos + 2) } (r.buf.take pos)
  have hsize (pos : ℕ) := size_parseHeader_le
    { r with buf := r.buf.drop (pos + 2) } (r.buf.take pos)
  have hbranch := r.pass_branch
  generalize r.pass = result at hbranch
  cases hbranch with
  | waits => exact ⟨le_rfl, Nat.le_add_right ..⟩
  | requestLine pos r' hstate hpos hparse =>
      specialize hrequestLine pos
      have hheaders := parseRequestLine_headers
        { r with buf := r.buf.drop (pos + 2) } (r.buf.take pos)
      rw [hparse] at hrequestLine hheaders
      dsimp only at hheaders
      refine ⟨held_line_le hrequestLine hpos, le_max_of_le_right ?_⟩
      rw [hheaders]
  | badRequestLine pos r' hstate hpos hparse =>
      specialize hrequestLine pos
      have hheaders := parseRequestLine_headers
        { r with buf := r.buf.drop (pos + 2) } (r.buf.take pos)
      rw [hparse] at hrequestLine hheaders
      dsimp only at hheaders
      refine ⟨held_line_le hrequestLine hpos, ?_⟩
      rw [hheaders]
      exact Nat.le_add_right ..
  | blankLine pos hstate hpos hblank =>
      refine ⟨?_, le_max_right ..⟩
      simp [held]
  | headerLine pos r' hstate hpos hne hparse hcount =>
      specialize hheader pos
      rw [hparse] at hheader
      exact ⟨held_line_le hheader hpos, le_max_of_le_left hcount⟩
  | oneTooMany pos r' hstate hpos hne hparse hcount =>
      specialize hheader pos
      specialize hsize pos
      rw [hparse] at hheader hsize
      exact ⟨held_line_le hheader hpos, hsize⟩
  | badHeader pos r' hstate hpos hne hparse =>
      specialize hheader pos
      specialize hsize pos
      rw [hparse] at hheader hsize
      exact ⟨held_line_le hheader hpos, hsize⟩
  | body hstate hall =>
      refine ⟨?_, Nat.le_add_right ..⟩
      simp only [held, finish, List.length_take, List.length_drop]
      omega

/-- The run lemma for one call. -/
theorem run_heldWithin (r : HttpRequest) :
    (parser.run r).2.held ≤ r.held ∧ HeaderMap.size (parser.run r).2.headers ≤
      max kMaxHeaderCount (HeaderMap.size r.headers) + excess (parser.run r).1 := by
  apply Loop.run_induction (L := parser.toLoop)
    (P := fun r result => result.2.held ≤ r.held ∧ HeaderMap.size result.2.headers ≤
      max kMaxHeaderCount (HeaderMap.size r.headers) + excess result.1)
  · rintro r ⟨verdict, r'⟩ hpass
    have hwithin : r.HeldWithin (.done (verdict, r')) := hpass ▸ heldWithin_pass r
    exact ⟨hwithin.1, hwithin.2.trans (Nat.add_le_add_right (le_max_right ..) _)⟩
  · intro r r' hpass ih
    have hwithin : r.HeldWithin (.again r') := hpass ▸ heldWithin_pass r
    refine ⟨ih.1.trans hwithin.1, ih.2.trans (Nat.add_le_add_right ?_ _)⟩
    exact max_le (le_max_left ..) hwithin.2

/-- A call stores what it is given or less, and a header too many only if it
rejects. -/
theorem parse_heldWithin (r : HttpRequest) (data : Bytes) :
    (r.parse data).2.held ≤ r.held + data.length ∧ HeaderMap.size (r.parse data).2.headers ≤
      max kMaxHeaderCount (HeaderMap.size r.headers) + excess (r.parse data).1 := by
  by_cases hsize : kMaxRequestSize < r.buf.length + data.length
  · rw [parse_of_too_large hsize]
    exact ⟨Nat.le_add_right .., (le_max_right ..).trans (Nat.le_add_right ..)⟩
  · have hpushed : (r.push data).held = r.held + data.length := by
      simp [held, push, Nat.add_assoc]
    obtain ⟨hheld, hheaders⟩ := run_heldWithin (r.push data)
    rw [hpushed] at hheld
    rw [parse_eq_feed (not_lt.mp hsize)]
    exact ⟨hheld, hheaders⟩

/-! ## Lines that come one at a time -/

theorem storeHeaders_buf (r : HttpRequest) (lines : List Bytes) :
    (r.storeHeaders lines).buf = r.buf := by
  have hset : r.storeHeaders lines = { r.storeHeaders lines with buf := r.buf } :=
    storeHeaders_setBuf r lines r.buf
  rw [hset]

theorem parse_of_empty {r : HttpRequest} {data : Bytes} (hbuf : r.buf = [])
    (hsize : data.length ≤ kMaxRequestSize) :
    r.parse data = parser.run { r with buf := data } := by
  have hfits : r.buf.length + data.length ≤ kMaxRequestSize := by
    rw [hbuf, List.length_nil, Nat.zero_add]
    exact hsize
  have hpushed : r.push data = { r with buf := data } := by
    rw [push, hbuf, List.nil_append]
  rw [parse_eq_feed hfits, ← hpushed]
  rfl

/-- Behind an empty buffer the loop waits for a line. -/
theorem run_of_empty {r : HttpRequest} (hstate : r.state = .kExpectHeaders) (hbuf : r.buf = []) :
    parser.run r = (true, r) := by
  refine run_of_done (pass_unfinished (.inr hstate) ?_)
  rw [hbuf]
  exact not_infix_nil

/-- A request line on its own. -/
theorem parse_requestLine {r : HttpRequest} {line : Bytes} (hstate : r.state = .kExpectRequestLine)
    (hbuf : r.buf = []) (hline : IsRequestLine line)
    (hsize : (line ++ crlf).length ≤ kMaxRequestSize) :
    r.parse (line ++ crlf) = (true, { r.storeRequestLine line with state := .kExpectHeaders }) := by
  have hwhole : line ++ crlf = line ++ (crlf ++ []) := by rw [List.append_nil]
  have hkept : (r.storeRequestLine line).buf = [] := hbuf
  have hpass := pass_requestLine (r := { r with buf := line ++ crlf }) hstate hwhole
    hline.oneLine hline.spaces hline.version
  rw [parse_of_empty hbuf hsize, run_of_again hpass, run_of_empty rfl rfl, ← hkept]
  rfl

/-- A header line on its own is stored, also when it is one too many. -/
theorem parse_headerLine {r : HttpRequest} {line : Bytes} (hstate : r.state = .kExpectHeaders)
    (hbuf : r.buf = []) (hvalid : IsHeaderLine line)
    (hsize : (line ++ crlf).length ≤ kMaxRequestSize) :
    r.parse (line ++ crlf) =
      (decide (HeaderMap.size (r.storeHeader line).headers ≤ kMaxHeaderCount),
        r.storeHeader line) := by
  have hwhole : line ++ crlf = line ++ (crlf ++ []) := by rw [List.append_nil]
  have hpass := pass_completeLine (r := { r with buf := line ++ crlf }) hstate hwhole
    hvalid.nonempty hvalid.oneLine
  have hemptied : ({ r with buf := [] } : HttpRequest) = r := by rw [← hbuf]
  dsimp only at hpass
  rw [hemptied, parseHeader_of_valid _ hvalid] at hpass
  dsimp only at hpass
  rw [parse_of_empty hbuf hsize]
  by_cases hcount : HeaderMap.size (r.storeHeader line).headers ≤ kMaxHeaderCount
  · rw [if_neg (not_lt.mpr hcount)] at hpass
    rw [run_of_again hpass, decide_eq_true hcount]
    exact run_of_empty hstate hbuf
  · rw [if_pos (not_le.mp hcount)] at hpass
    rw [decide_eq_false hcount]
    exact run_of_done hpass

end HttpRequest

end EpollHttpServer.Http
