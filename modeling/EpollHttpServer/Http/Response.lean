/-
# Responses

`HttpResponse` is a record with setters; `toMessage` renders it.  The headers
live in an unordered map, so the order in which `toMessage` writes them is any
order of the entries: it is a parameter here, and what is proved holds for all
of them.
-/

import Mathlib.Data.Nat.Digits.Defs
import EpollHttpServer.Http.Text

namespace EpollHttpServer.Http

/-- The order in which the entries of an unordered map are iterated: every
entry once. -/
structure IterationOrder where
  iterate : HeaderMap → List (Bytes × Bytes)
  perm : ∀ headers, (iterate headers).Perm (headers.entries.map fun entry => (entry.1, entry.2))

/-- The order in which the model happens to keep the entries. -/
def IterationOrder.stored : IterationOrder where
  iterate headers := headers.entries.map fun entry => (entry.1, entry.2)
  perm _ := .refl _

/-- A number as `operator<<` writes it. -/
def decimal (n : ℕ) : Bytes :=
  if n = 0 then [48] else (Nat.digits 10 n).reverse.map fun digit => UInt8.ofNat (48 + digit)

def decimalInt (z : ℤ) : Bytes :=
  if z < 0 then 45 :: decimal z.natAbs else decimal z.natAbs

structure HttpResponse where
  statusCode : ℤ
  statusMessage : Bytes
  headers : HeaderMap
  body : Bytes
  keepAlive : Bool
  deriving DecidableEq

namespace HttpResponse

/-- The default constructor. -/
def default : HttpResponse where
  statusCode := 200
  statusMessage := literal "OK"
  headers := ∅
  body := []
  keepAlive := false

def setStatusCode (resp : HttpResponse) (code : ℤ) : HttpResponse :=
  { resp with
    statusCode := code
    statusMessage :=
      if code = 200 then literal "OK"
      else if code = 404 then literal "Not Found"
      else if code = 400 then literal "Bad Request"
      else if code = 500 then literal "Internal Server Error"
      else literal "Unknown" }

def setStatusMessage (resp : HttpResponse) (msg : Bytes) : HttpResponse :=
  { resp with statusMessage := msg }

def setHeader (resp : HttpResponse) (key value : Bytes) : HttpResponse :=
  { resp with headers := resp.headers.insert key value }

def setContentType (resp : HttpResponse) (type : Bytes) : HttpResponse :=
  resp.setHeader (literal "Content-Type") type

def setBody (resp : HttpResponse) (body : Bytes) : HttpResponse :=
  { resp with body := body }

def setKeepAlive (resp : HttpResponse) (on : Bool) : HttpResponse :=
  { resp with keepAlive := on }

/-- One header line. -/
def headerLine (entry : Bytes × Bytes) : Bytes :=
  entry.1 ++ literal ": " ++ entry.2 ++ crlf

def statusLine (resp : HttpResponse) : Bytes :=
  literal "HTTP/1.1 " ++ decimalInt resp.statusCode ++ [space] ++ resp.statusMessage ++ crlf

/-- The message: status line, the headers of the map, the two headers that are
always written, a blank line and the body. -/
def toMessage (order : IterationOrder) (resp : HttpResponse) : Bytes :=
  resp.statusLine ++
  (order.iterate resp.headers).flatMap headerLine ++
  headerLine (literal "Content-Length", decimal resp.body.length) ++
  headerLine
    (literal "Connection", if resp.keepAlive then literal "keep-alive" else literal "close") ++
  crlf ++
  resp.body

/-- A message is never empty. -/
theorem length_toMessage_pos (order : IterationOrder) (resp : HttpResponse) :
    0 < (resp.toMessage order).length := by
  simp only [toMessage, List.length_append, length_crlf]
  omega

/-- The answer to a request that cannot be parsed. -/
def badRequest : HttpResponse :=
  (default.setStatusCode 400).setBody (literal "Bad Request\n")

example : badRequest.toMessage .stored =
    literal "HTTP/1.1 400 Bad Request\r\nContent-Length: 12\r\nConnection: close\r\n\r\n" ++
      literal "Bad Request\n" := by
  decide +kernel

end HttpResponse

end EpollHttpServer.Http
