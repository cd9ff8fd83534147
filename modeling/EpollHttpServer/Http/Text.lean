/-
# Bytes, header maps and number conversion

The pieces of the C++ standard library that the HTTP classes stand on, at the
behaviour they have in the "C" locale on a platform with 64-bit `long`:
`tolower` on a `char`, `strtol` in base 10 on a C string, and an unordered map
from strings to strings with at most one value for each key.
-/

import Mathlib.Algebra.Group.Int.Defs
import Mathlib.Data.Finset.Card
import Mathlib.Data.List.AList
import EpollHttpServer.Lib.Search

namespace EpollHttpServer.Http

open EpollHttpServer.Lib

/-- A `std::string`: a sequence of bytes, with no assumption on its contents. -/
abbrev Bytes : Type := List UInt8

/-- The bytes of a string literal of the source. -/
def literal (text : String) : Bytes :=
  text.toList.map fun c => UInt8.ofNat c.toNat

def cr : UInt8 := 13
def lf : UInt8 := 10
def tab : UInt8 := 9
def space : UInt8 := 32
def colon : UInt8 := 58
def slash : UInt8 := 47

/-- The line terminator `"\r\n"`. -/
def crlf : Bytes := [cr, lf]

theorem cr_ne_lf : cr ≠ lf := by decide

theorem crlf_ne_nil : crlf ≠ [] := by decide

@[simp]
theorem length_crlf : crlf.length = 2 := rfl

/-- `tolower` in the "C" locale: bytes above 127 are left alone. -/
def toLower (b : UInt8) : UInt8 :=
  if 65 ≤ b ∧ b ≤ 90 then b + 32 else b

/-- `std::transform(.., ::tolower)`. -/
def lowered (s : Bytes) : Bytes :=
  s.map toLower

/-- `isspace` in the "C" locale. -/
def isSpace (b : UInt8) : Bool :=
  b = 32 ∨ (9 ≤ b ∧ b ≤ 13)

def isDigit (b : UInt8) : Bool :=
  48 ≤ b ∧ b ≤ 57

/-- The number that decimal digits denote. -/
def digitsValue (digits : Bytes) : ℕ :=
  digits.foldl (fun acc b => 10 * acc + (b.toNat - 48)) 0

def longMax : ℤ := 2 ^ 63 - 1
def longMin : ℤ := -2 ^ 63

/-- The optional sign of a number, and what follows it. -/
def splitSign : Bytes → Bool × Bytes
  | [] => (false, [])
  | b :: rest =>
    if b = 45 then (true, rest)
    else if b = 43 then (false, rest)
    else (false, b :: rest)

/-- `strtol(s.c_str(), &end, 10)`: `none` when `end` is left at the start,
otherwise the value, saturated at the bounds of `long`.  The C string ends at
the first NUL. -/
def strtol (s : Bytes) : Option ℤ :=
  let text := (s.takeWhile (· ≠ 0)).dropWhile isSpace
  let (negative, unsigned) := splitSign text
  let digits := unsigned.takeWhile isDigit
  if digits = [] then none
  else
    let magnitude : ℤ := digitsValue digits
    some (max longMin (min longMax (if negative then -magnitude else magnitude)))

/-- The headers of a message, `std::unordered_map<std::string, std::string>`.
The entries carry the proof that no key occurs twice. -/
abbrev HeaderMap : Type := AList fun _ : Bytes => Bytes

namespace HeaderMap

/-- The number of distinct keys, `headers_.size()`. -/
def size (headers : HeaderMap) : ℕ :=
  headers.keys.length

/-- The value stored under a key, or the empty string. -/
def valueOf (headers : HeaderMap) (key : Bytes) : Bytes :=
  (headers.lookup key).getD []

@[simp]
theorem valueOf_insert (headers : HeaderMap) (key value : Bytes) :
    valueOf (headers.insert key value) key = value := by
  simp [valueOf]

theorem valueOf_insert_ne (headers : HeaderMap) {key other : Bytes} (value : Bytes)
    (hne : other ≠ key) : valueOf (headers.insert key value) other = valueOf headers other := by
  simp [valueOf, AList.lookup_insert_ne hne]

/-- The size counts the keys as a set, since none occurs twice. -/
theorem size_eq_card (headers : HeaderMap) : size headers = headers.keys.toFinset.card :=
  (List.toFinset_card_of_nodup headers.keys_nodup).symm

theorem keys_toFinset_insert (headers : HeaderMap) (key value : Bytes) :
    (headers.insert key value).keys.toFinset = insert key headers.keys.toFinset := by
  ext other
  rw [List.mem_toFinset, Finset.mem_insert, List.mem_toFinset, AList.mem_keys.symm,
    AList.mem_keys.symm, AList.mem_insert]

end HeaderMap

end EpollHttpServer.Http
