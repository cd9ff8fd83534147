/-
# What a content length line says

A content length is read by `strtol`, which takes the number at the start of a
text and ignores what follows, and of several lines the last one counts.  So a
request is accepted whose lines say something else to a stricter reader.  Here
the lines that are accepted are compared with the length of the body that is
cut off the stream: they all denote it, as plain numerals, exactly when each of
them is a plain numeral and all give the same number.
-/

import EpollHttpServer.Http.Numerals
import EpollHttpServer.Http.Grammar

namespace EpollHttpServer.Http

open EpollHttpServer.Lib

def IsBlank (b : UInt8) : Prop :=
  b = space ∨ b = tab

instance : DecidablePred IsBlank := fun b => inferInstanceAs (Decidable (b = space ∨ b = tab))

/-- The value without the blanks behind it. -/
def trimRight (value : Bytes) : Bytes :=
  value.rdropWhile fun b => IsBlank b

/-- The value of a header line without blanks on either side. -/
def trimmedValue (line : Bytes) : Bytes :=
  (strippedValue line).rdropWhile fun b => IsBlank b

/-- Every content length line is a numeral of this number. -/
def Unambiguous (lines : List Bytes) (size : ℕ) : Prop :=
  ∀ line ∈ lines, headerName line = contentLengthKey →
    trimmedValue line ≠ [] ∧ (∀ b ∈ trimmedValue line, isDigit b = true) ∧
      digitsValue (trimmedValue line) = size

/-- The value begins with a digit, so with no sign and no other white space, and
only blanks follow the digits. -/
def PlainValue (line : Bytes) : Prop :=
  (∃ b ∈ (strippedValue line).head?, isDigit b = true) ∧
    ∀ b ∈ (strippedValue line).dropWhile isDigit, IsBlank b

/-- The content length lines are plain and agree on the number. -/
structure PlainLengths (lines : List Bytes) : Prop where
  plain : ∀ line ∈ lines, headerName line = contentLengthKey → PlainValue line
  same : ∀ line ∈ lines, ∀ other ∈ lines, headerName line = contentLengthKey →
    headerName other = contentLengthKey → lengthOf line = lengthOf other

theorem not_isBlank_of_isDigit {b : UInt8} (hdigit : isDigit b = true) : ¬ IsBlank b := by
  rintro (rfl | rfl)
  · exact absurd hdigit (by decide)
  · exact absurd hdigit (by decide)

theorem trimmedValue_eq (line : Bytes) : trimmedValue line = trimRight (strippedValue line) :=
  rfl

theorem trimRight_append (value : Bytes) {blanks : Bytes} (hblanks : ∀ b ∈ blanks, IsBlank b) :
    trimRight (value ++ blanks) = trimRight value := by
  have hall : ∀ b ∈ blanks.reverse, decide (IsBlank b) = true := fun b hmem =>
    decide_eq_true (hblanks b (List.mem_reverse.mp hmem))
  rw [trimRight, trimRight, List.rdropWhile, List.rdropWhile, List.reverse_append,
    List.dropWhile_append_of_pos hall]

/-- A value is what trimming keeps, with blanks behind it. -/
theorem exists_trimRight (value : Bytes) :
    ∃ blanks, value = trimRight value ++ blanks ∧ ∀ b ∈ blanks, IsBlank b := by
  refine ⟨value.rtakeWhile fun b => IsBlank b, List.rdropWhile_append_rtakeWhile.symm, ?_⟩
  intro b hmem
  have hblank := List.mem_rtakeWhile_imp hmem
  exact of_decide_eq_true hblank

/-- Digits and blanks are told apart again. -/
theorem trimRight_digits {digits blanks : Bytes} (hdigits : ∀ b ∈ digits, isDigit b = true)
    (hblanks : ∀ b ∈ blanks, IsBlank b) : trimRight (digits ++ blanks) = digits := by
  rw [trimRight_append digits hblanks, trimRight, List.rdropWhile_eq_self_iff]
  intro hne
  rw [decide_eq_true_iff]
  exact not_isBlank_of_isDigit (hdigits _ (List.getLast_mem hne))

/-- The number that `strtol` reads from digits with blanks behind them. -/
theorem lengthOf_of_digits {line digits blanks : Bytes} (hne : digits ≠ [])
    (hdigits : ∀ b ∈ digits, isDigit b = true) (hblanks : ∀ b ∈ blanks, IsBlank b)
    (hvalue : strippedValue line = digits ++ blanks) :
    (lengthOf line : ℤ) = min longMax (digitsValue digits) := by
  have hhead : ∀ b ∈ blanks.head?, isDigit b = false := by
    intro b hmem
    have hblank := hblanks b (List.mem_of_mem_head? hmem)
    exact Bool.eq_false_iff.mpr fun hdigit => not_isBlank_of_isDigit hdigit hblank
  have hread := strtol_of_digits blanks hne hdigits hhead
  have hnonneg : (0 : ℤ) ≤ min longMax (digitsValue digits) :=
    le_min (by decide) (Int.natCast_nonneg _)
  rw [lengthOf, hvalue, hread, Option.getD_some, Int.toNat_of_nonneg hnonneg]

/-- A value that is a numeral when the blanks are taken away is a plain value. -/
theorem plainValue_of_numeral {line : Bytes} (hne : trimmedValue line ≠ [])
    (hdigits : ∀ b ∈ trimmedValue line, isDigit b = true) : PlainValue line := by
  obtain ⟨blanks, hvalue, hblanks⟩ := exists_trimRight (strippedValue line)
  rw [← trimmedValue_eq] at hvalue
  obtain ⟨first, others, hsplit⟩ := List.exists_cons_of_ne_nil hne
  constructor
  · refine ⟨first, ?_, hdigits first (hsplit ▸ List.mem_cons_self ..)⟩
    rw [hvalue, hsplit]
    rfl
  · intro b hmem
    rw [hvalue, List.dropWhile_append_of_pos hdigits] at hmem
    exact hblanks b (List.dropWhile_subset _ hmem)

/-- The digits of a plain value are what is left when the blanks are taken away. -/
theorem numeral_of_plainValue {line : Bytes} (hplain : PlainValue line) :
    trimmedValue line ≠ [] ∧ (∀ b ∈ trimmedValue line, isDigit b = true) := by
  have hsplit : (strippedValue line).takeWhile isDigit ++ (strippedValue line).dropWhile isDigit =
      strippedValue line := List.takeWhile_append_dropWhile
  have hdigits : ∀ b ∈ (strippedValue line).takeWhile isDigit, isDigit b = true := fun b hmem =>
    List.mem_takeWhile_imp hmem
  have htrimmed : trimmedValue line = (strippedValue line).takeWhile isDigit := by
    rw [trimmedValue_eq, ← hsplit, trimRight_digits hdigits hplain.2, hsplit]
  rw [htrimmed]
  refine ⟨?_, hdigits⟩
  obtain ⟨b, hhead, hdigit⟩ := hplain.1
  obtain ⟨rest, hcons⟩ := List.head?_eq_some_iff.mp hhead
  rw [hcons, List.takeWhile_cons_of_pos hdigit]
  exact List.cons_ne_nil _ _

/-- A plain numeral denotes a number below the bound of `long` exactly when
`strtol` reads that number. -/
theorem digitsValue_eq_iff {line : Bytes} (hne : trimmedValue line ≠ [])
    (hdigits : ∀ b ∈ trimmedValue line, isDigit b = true) {size : ℕ}
    (hsize : size ≤ kMaxRequestSize) :
    digitsValue (trimmedValue line) = size ↔ lengthOf line = size := by
  obtain ⟨blanks, hvalue, hblanks⟩ := exists_trimRight (strippedValue line)
  rw [← trimmedValue_eq] at hvalue
  have hlength := lengthOf_of_digits hne hdigits hblanks hvalue
  have hbound : ((kMaxRequestSize : ℕ) : ℤ) < longMax := by decide
  constructor
  · intro hdenotes
    rw [hdenotes] at hlength
    omega
  · intro hreads
    rw [hreads] at hlength
    omega

/-- The length that the lines declare is the one that each of them gives. -/
theorem declaredLength_of_same {lines : List Bytes}
    (hsame : ∀ line ∈ lines, ∀ other ∈ lines, headerName line = contentLengthKey →
      headerName other = contentLengthKey → lengthOf line = lengthOf other)
    {line : Bytes} (hmem : line ∈ lines) (hname : headerName line = contentLengthKey) :
    declaredLength lines = lengthOf line := by
  obtain ⟨last, hmemLast, hlast, hlastName⟩ := exists_lastLine hmem
  rw [hname] at hlast hlastName
  rw [declaredLength, hlast, Option.elim_some]
  exact hsame last hmemLast line hmem hlastName hname

/-- Lines that declare a length within the limit say so unambiguously exactly
when they are plain and agree. -/
theorem unambiguous_iff {lines : List Bytes} (hsize : declaredLength lines ≤ kMaxRequestSize) :
    Unambiguous lines (declaredLength lines) ↔ PlainLengths lines := by
  constructor
  · intro hunambiguous
    have hlength (line : Bytes) (hmem : line ∈ lines) (hname : headerName line = contentLengthKey) :
        lengthOf line = declaredLength lines := by
      obtain ⟨hne, hdigits, hvalue⟩ := hunambiguous line hmem hname
      exact (digitsValue_eq_iff hne hdigits hsize).mp hvalue
    constructor
    · intro line hmem hname
      obtain ⟨hne, hdigits, -⟩ := hunambiguous line hmem hname
      exact plainValue_of_numeral hne hdigits
    · intro line hmem other hother hname hotherName
      rw [hlength line hmem hname, hlength other hother hotherName]
  · intro hplain line hmem hname
    obtain ⟨hne, hdigits⟩ := numeral_of_plainValue (hplain.plain line hmem hname)
    refine ⟨hne, hdigits, (digitsValue_eq_iff hne hdigits hsize).mpr ?_⟩
    exact (declaredLength_of_same hplain.same hmem hname).symm

namespace HttpRequest

/-- A request of which a stricter reader would take another part for the body. -/
def signedLength : RequestText where
  requestLine := literal "POST / HTTP/1.1"
  headerLines := [literal "Content-Length: 2", literal "Content-Length: +1x"]
  body := literal "a"
  requestLine_oneLine := by decide
  requestLine_spaces := by decide
  requestLine_version := by decide
  headerLines_valid := by
    intro line hmem
    rw [List.mem_cons, List.mem_singleton] at hmem
    rcases hmem with rfl | rfl
    · exact ⟨by decide, by decide, by decide, fun _ => ⟨2, by decide, by decide⟩⟩
    · exact ⟨by decide, by decide, by decide, fun _ => ⟨1, by decide, by decide⟩⟩
  headerLines_names := by decide
  body_length := by decide

/-- Its two content length lines disagree, and one of them is no numeral. -/
theorem ambiguous_length_accepted : ¬ ∀ pieces : List Bytes,
    (fresh.parseAll pieces).1 = true → (fresh.parseAll pieces).2.gotAll = true →
      ∀ (m : RequestText) (rest : Bytes), pieces.flatten = m.bytes ++ rest →
        Unambiguous m.headerLines (fresh.parseAll pieces).2.body.length := by
  intro hall
  have hclaimed := hall [signedLength.bytes] (by decide +kernel) (by decide +kernel)
    signedLength [] rfl (literal "Content-Length: +1x") (by decide) (by decide)
  exact absurd (hclaimed.2.1 43 (by decide)) (by decide)

/-- **When content lengths are unambiguous.** For every stream that is accepted
and completes a request, in whatever chunks: every content length line is, up to
blanks, a numeral of the length of the body if and only if every such line
begins with a digit, has nothing but blanks behind its digits, and all of them
give the same number. -/
theorem content_length_unambiguous_iff (pieces : List Bytes)
    (haccepts : (fresh.parseAll pieces).1 = true)
    (hgot : (fresh.parseAll pieces).2.gotAll = true) :
    (∃ (m : RequestText) (rest : Bytes), pieces.flatten = m.bytes ++ rest) ∧
    ∀ (m : RequestText) (rest : Bytes), pieces.flatten = m.bytes ++ rest →
      (Unambiguous m.headerLines (fresh.parseAll pieces).2.body.length ↔
        PlainLengths m.headerLines) := by
  obtain ⟨hexists, hbody⟩ := text_of_accepts haccepts hgot
  refine ⟨hexists, ?_⟩
  intro m rest htext
  have hsize := (parseAll_lengths_le (r := fresh) pieces (Nat.zero_le _) (Nat.zero_le _)).2
  rw [hbody m rest htext, m.body_length] at hsize ⊢
  exact unambiguous_iff hsize

/-- A request with its length written twice. -/
def repeatedLength : RequestText where
  requestLine := literal "POST / HTTP/1.1"
  headerLines := [literal "Content-Length: 1", literal "content-length:01 "]
  body := literal "a"
  requestLine_oneLine := by decide
  requestLine_spaces := by decide
  requestLine_version := by decide
  headerLines_valid := by
    intro line hmem
    rw [List.mem_cons, List.mem_singleton] at hmem
    rcases hmem with rfl | rfl
    · exact ⟨by decide, by decide, by decide, fun _ => ⟨1, by decide, by decide⟩⟩
    · exact ⟨by decide, by decide, by decide, fun _ => ⟨1, by decide, by decide⟩⟩
  headerLines_names := by decide
  body_length := by decide

/-- Both lines of it are plain and agree. -/
theorem content_length_unambiguous_repeated :
    Unambiguous repeatedLength.headerLines 1 := by
  have hiff := (content_length_unambiguous_iff [repeatedLength.bytes] (by decide +kernel)
    (by decide +kernel)).2 repeatedLength [] rfl
  have hbody : (fresh.parseAll [repeatedLength.bytes]).2.body.length = 1 := by decide +kernel
  rw [hbody] at hiff
  apply hiff.mpr
  constructor
  · intro line hmem _
    rw [repeatedLength, List.mem_cons, List.mem_singleton] at hmem
    rcases hmem with rfl | rfl
    · exact ⟨⟨49, by decide, by decide⟩, by decide +kernel⟩
    · exact ⟨⟨48, by decide, by decide⟩, by decide +kernel⟩
  · decide

end HttpRequest

end EpollHttpServer.Http
