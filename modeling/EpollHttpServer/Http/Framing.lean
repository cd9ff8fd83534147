/-
# The header lines of a response

A caller builds a response by calling setters, so a response is the outcome of
a list of calls.  The map remembers the last value set under every name that
was ever set, and `toMessage` writes those entries and two fields of its own.

Read back as text, the head of a message consists of exactly those lines.  The
map tells names apart that a reader of the message does not, so whether a name
is announced twice is decided by the spellings that the callers have used.
-/

import EpollHttpServer.Http.Grammar
import EpollHttpServer.Http.Numerals

namespace EpollHttpServer.Http

open EpollHttpServer.Lib

/-- A call of one of the setters of a response. -/
inductive Setter where
  | setStatusCode (code : ℤ)
  | setStatusMessage (msg : Bytes)
  | setContentType (type : Bytes)
  | setHeader (key value : Bytes)
  | setBody (body : Bytes)
  | setKeepAlive (on : Bool)
  deriving DecidableEq

/-- No byte of a line terminator occurs. -/
def Unbroken (s : Bytes) : Prop :=
  cr ∉ s ∧ lf ∉ s

instance (s : Bytes) : Decidable (Unbroken s) :=
  inferInstanceAs (Decidable (cr ∉ s ∧ lf ∉ s))

namespace Setter

/-- The map entry that a call writes. -/
def stored : Setter → Option (Bytes × Bytes)
  | .setContentType type => some (literal "Content-Type", type)
  | .setHeader key value => some (key, value)
  | _ => none

/-- The texts of the call cannot break out of their lines. -/
def Clean : Setter → Prop
  | .setStatusMessage msg => Unbroken msg
  | .setContentType type => Unbroken type
  | .setHeader key value => Unbroken key ∧ colon ∉ key ∧ Unbroken value
  | _ => True

instance : DecidablePred Clean := fun call =>
  match call with
  | .setStatusMessage msg => inferInstanceAs (Decidable (Unbroken msg))
  | .setContentType type => inferInstanceAs (Decidable (Unbroken type))
  | .setHeader key value =>
    inferInstanceAs (Decidable (Unbroken key ∧ colon ∉ key ∧ Unbroken value))
  | .setStatusCode _ | .setBody _ | .setKeepAlive _ => inferInstanceAs (Decidable True)

end Setter

/-- The entries that a sequence of calls writes, in the order of the calls. -/
def storedEntries (calls : List Setter) : List (Bytes × Bytes) :=
  calls.filterMap Setter.stored

/-- The last value set under a name. -/
def lastSet (calls : List Setter) (name : Bytes) : Option Bytes :=
  ((storedEntries calls).reverse.find? fun entry => entry.1 = name).map Prod.snd

theorem storedEntries_concat (calls : List Setter) (call : Setter) :
    storedEntries (calls ++ [call]) = storedEntries calls ++ call.stored.toList := by
  rw [storedEntries, List.filterMap_append]
  cases hstored : call.stored <;> simp [storedEntries, hstored]

namespace HttpResponse

def call (resp : HttpResponse) : Setter → HttpResponse
  | .setStatusCode code => resp.setStatusCode code
  | .setStatusMessage msg => resp.setStatusMessage msg
  | .setContentType type => resp.setContentType type
  | .setHeader key value => resp.setHeader key value
  | .setBody body => resp.setBody body
  | .setKeepAlive on => resp.setKeepAlive on

/-- The response that a sequence of calls builds from a new one. -/
def built (calls : List Setter) : HttpResponse :=
  calls.foldl call default

theorem built_concat (calls : List Setter) (call : Setter) :
    built (calls ++ [call]) = (built calls).call call := by
  simp [built]

/-- A call writes its entry into the map and no other. -/
theorem headers_call (resp : HttpResponse) (call : Setter) :
    (resp.call call).headers =
      call.stored.elim resp.headers fun entry => resp.headers.insert entry.1 entry.2 := by
  cases call <;> rfl

/-- The map holds the last value set under every name. -/
theorem lookup_built (calls : List Setter) (name : Bytes) :
    (built calls).headers.lookup name = lastSet calls name := by
  induction calls using List.reverseRecOn with
  | nil => rfl
  | append_singleton calls call ih =>
      rw [built_concat, headers_call, lastSet, storedEntries_concat]
      cases hstored : call.stored with
      | none => simpa [lastSet] using ih
      | some entry =>
          by_cases hname : entry.1 = name
          · subst hname
            simp
          · rw [Option.elim_some, AList.lookup_insert_ne (Ne.symm hname), ih]
            simp [lastSet, hname]

theorem mem_storedEntries_of_lastSet {calls : List Setter} {name value : Bytes}
    (hlast : lastSet calls name = some value) : (name, value) ∈ storedEntries calls := by
  rw [lastSet, Option.map_eq_some_iff] at hlast
  obtain ⟨⟨key, last⟩, hfind, hvalue⟩ := hlast
  have hname := List.find?_some hfind
  have hmem := List.mem_of_find?_eq_some hfind
  simp only [decide_eq_true_eq] at hname
  subst hname hvalue
  exact List.mem_reverse.mp hmem

/-- Every name that was ever set has a last value. -/
theorem exists_lastSet {calls : List Setter} {entry : Bytes × Bytes}
    (hmem : entry ∈ storedEntries calls) : ∃ value, lastSet calls entry.1 = some value := by
  have hlast := exists_find_reverse (fun other => decide (other.1 = entry.1)) hmem
    (decide_eq_true rfl)
  obtain ⟨other, -, hfind, -⟩ := hlast
  exact ⟨other.2, by rw [lastSet, hfind]; rfl⟩

/-! ## A message as lines -/

/-- The text of a header line. -/
def headerText (entry : Bytes × Bytes) : Bytes :=
  entry.1 ++ literal ": " ++ entry.2

/-- The text of the status line. -/
def statusText (resp : HttpResponse) : Bytes :=
  literal "HTTP/1.1 " ++ decimalInt resp.statusCode ++ [space] ++ resp.statusMessage

def connectionValue (resp : HttpResponse) : Bytes :=
  if resp.keepAlive then literal "keep-alive" else literal "close"

/-- The two fields that are always written. -/
def framingFields (resp : HttpResponse) : List (Bytes × Bytes) :=
  [(literal "Content-Length", decimal resp.body.length),
    (literal "Connection", resp.connectionValue)]

/-- The fields of the head, in the order in which they are written. -/
def fields (order : IterationOrder) (resp : HttpResponse) : List (Bytes × Bytes) :=
  order.iterate resp.headers ++ resp.framingFields

theorem toMessage_eq_lines (order : IterationOrder) (resp : HttpResponse) :
    resp.toMessage order = resp.statusText ++ (crlf ++
      (RequestText.linesBytes ((resp.fields order).map headerText) ++ (crlf ++ resp.body))) := by
  have hmap (entries : List (Bytes × Bytes)) :
      RequestText.linesBytes (entries.map headerText) = entries.flatMap headerLine := by
    rw [RequestText.linesBytes, List.flatMap_map]
    rfl
  have hlines : RequestText.linesBytes ((resp.fields order).map headerText) =
      (order.iterate resp.headers).flatMap headerLine ++
        (headerLine (literal "Content-Length", decimal resp.body.length) ++
          headerLine (literal "Connection", resp.connectionValue)) := by
    rw [hmap, fields, List.flatMap_append]
    simp [framingFields]
  rw [hlines, toMessage, statusLine, statusText, connectionValue]
  simp only [List.append_assoc]

end HttpResponse

/-- What follows the first line of a text. -/
def behindLine (s : Bytes) : Option Bytes :=
  (find crlf s).map fun pos => s.drop (pos + 2)

/-- The lines of a head, up to its blank line. -/
def headLines (s : Bytes) : List Bytes :=
  match hpos : find crlf s with
  | none => []
  | some pos => if s.take pos = [] then [] else s.take pos :: headLines (s.drop (pos + 2))
termination_by s.length
decreasing_by
  have hroom := HttpRequest.length_behind_line hpos
  omega

theorem behindLine_append {line : Bytes} (honeLine : ¬ crlf <:+: line) (rest : Bytes) :
    behindLine (line ++ (crlf ++ rest)) = some rest := by
  obtain ⟨hpos, -, hrest⟩ := HttpRequest.split_complete_line honeLine rest
  rw [behindLine, hpos, Option.map_some, hrest]

theorem headLines_of_find {s : Bytes} {pos : ℕ} (hpos : find crlf s = some pos) :
    headLines s =
      if s.take pos = [] then [] else s.take pos :: headLines (s.drop (pos + 2)) := by
  rw [headLines]
  split
  · next hnone =>
    rw [hpos] at hnone
    cases hnone
  · next pos' hsome =>
    rw [hpos] at hsome
    cases hsome
    rfl

/-- The lines of a head are found again, whatever follows the blank line. -/
theorem headLines_linesBytes {lines : List Bytes}
    (hlines : ∀ line ∈ lines, line ≠ [] ∧ ¬ crlf <:+: line) (rest : Bytes) :
    headLines (RequestText.linesBytes lines ++ (crlf ++ rest)) = lines := by
  induction lines with
  | nil =>
      have hpos : find crlf (crlf ++ rest) = some 0 :=
        find_of_starts (List.prefix_append crlf rest)
      rw [RequestText.linesBytes_nil, List.nil_append, headLines_of_find hpos]
      rfl
  | cons line lines ih =>
      obtain ⟨hne, honeLine⟩ := hlines line (List.mem_cons_self ..)
      obtain ⟨hpos, hline, hrest⟩ := HttpRequest.split_complete_line honeLine
        (RequestText.linesBytes lines ++ (crlf ++ rest))
      have htail := ih fun other hmem => hlines other (List.mem_cons_of_mem line hmem)
      rw [RequestText.linesBytes_cons, List.append_assoc, List.append_assoc,
        headLines_of_find hpos, hline, if_neg hne, hrest, htail]

theorem Unbroken.append {s t : Bytes} (hs : Unbroken s) (ht : Unbroken t) : Unbroken (s ++ t) := by
  constructor
  · rw [List.mem_append]
    exact not_or.mpr ⟨hs.1, ht.1⟩
  · rw [List.mem_append]
    exact not_or.mpr ⟨hs.2, ht.2⟩

theorem Unbroken.oneLine {s : Bytes} (hs : Unbroken s) : ¬ crlf <:+: s := fun hoccurs =>
  hs.1 (hoccurs.subset (List.mem_cons_self ..))

theorem unbroken_of_printable {s : Bytes} (hs : ∀ b ∈ s, 32 < b.toNat) : Unbroken s := by
  constructor
  · intro hmem
    exact absurd (hs cr hmem) (by decide)
  · intro hmem
    exact absurd (hs lf hmem) (by decide)

/-- A field that stays on its line, and whose name ends where the colon stands. -/
structure CleanField (field : Bytes × Bytes) : Prop where
  name : Unbroken field.1
  colon : colon ∉ field.1
  value : Unbroken field.2

theorem cleanField_of {name value : Bytes} (hname : Unbroken name ∧ colon ∉ name)
    (hvalue : Unbroken value) : CleanField (name, value) :=
  ⟨hname.1, hname.2, hvalue⟩

namespace HttpResponse

/-- A response whose texts cannot break out of their lines. -/
structure Clean (resp : HttpResponse) : Prop where
  message : Unbroken resp.statusMessage
  headers : ∀ name value, resp.headers.lookup name = some value → CleanField (name, value)

theorem message_call {resp : HttpResponse} {call : Setter} (hcall : call.Clean)
    (hresp : Unbroken resp.statusMessage) : Unbroken (resp.call call).statusMessage := by
  cases call with
  | setStatusMessage msg => exact hcall
  | setStatusCode code =>
      simp only [HttpResponse.call, setStatusCode]
      split_ifs <;> decide
  | setContentType | setHeader | setBody | setKeepAlive => exact hresp

theorem cleanField_of_stored {call : Setter} (hcall : call.Clean) {entry : Bytes × Bytes}
    (hstored : call.stored = some entry) : CleanField entry := by
  cases call with
  | setContentType type =>
      cases hstored
      exact cleanField_of (by decide) hcall
  | setHeader key value =>
      cases hstored
      exact ⟨hcall.1, hcall.2.1, hcall.2.2⟩
  | setStatusCode | setStatusMessage | setBody | setKeepAlive => cases hstored

/-- Clean calls build a clean response. -/
theorem clean_built {calls : List Setter} (hcalls : ∀ call ∈ calls, call.Clean) :
    (built calls).Clean := by
  constructor
  · induction calls using List.reverseRecOn with
    | nil => exact (by decide : Unbroken (literal "OK"))
    | append_singleton calls call ih =>
        rw [built_concat]
        apply message_call (hcalls call (by simp))
        exact ih fun other hmem => hcalls other (List.mem_append_left _ hmem)
  · intro name value hlookup
    rw [lookup_built] at hlookup
    have hmem := mem_storedEntries_of_lastSet hlookup
    obtain ⟨call, hcall, hstored⟩ := List.mem_filterMap.mp hmem
    exact cleanField_of_stored (hcalls call hcall) hstored

variable {order : IterationOrder} {resp : HttpResponse}

theorem mem_iterate {name value : Bytes} :
    (name, value) ∈ order.iterate resp.headers ↔ resp.headers.lookup name = some value := by
  rw [(order.perm resp.headers).mem_iff, List.mem_map, ← Option.mem_def, AList.mem_lookup_iff]
  constructor
  · rintro ⟨entry, hmem, heq⟩
    cases heq
    exact hmem
  · intro hmem
    exact ⟨_, hmem, rfl⟩

theorem cleanField_framing {field : Bytes × Bytes} (hmem : field ∈ resp.framingFields) :
    CleanField field := by
  rw [framingFields, List.mem_cons, List.mem_singleton] at hmem
  rcases hmem with rfl | rfl
  · have hdigits : Unbroken (decimal resp.body.length) :=
      unbroken_of_printable fun b hb => by
        have hdigit := isDigit_iff.mp (isDigit_of_mem_decimal hb)
        omega
    exact cleanField_of (by decide) hdigits
  · apply cleanField_of (by decide)
    show Unbroken resp.connectionValue
    unfold connectionValue
    split <;> decide

theorem Clean.cleanField (hclean : resp.Clean) {field : Bytes × Bytes}
    (hmem : field ∈ resp.fields order) : CleanField field := by
  rcases List.mem_append.mp hmem with hstored | hframing
  · exact hclean.headers field.1 field.2 (mem_iterate.mp hstored)
  · exact cleanField_framing hframing

theorem unbroken_headerText {field : Bytes × Bytes} (hfield : CleanField field) :
    Unbroken (headerText field) :=
  (hfield.name.append (by decide)).append hfield.value

theorem headerText_ne_nil (field : Bytes × Bytes) : headerText field ≠ [] := by
  apply List.append_ne_nil_of_left_ne_nil
  exact List.append_ne_nil_of_right_ne_nil _ (by decide)

theorem headerText_eq (field : Bytes × Bytes) :
    headerText field = field.1 ++ colon :: (space :: field.2) := by
  have hsep : literal ": " = [colon, space] := by decide
  rw [headerText, hsep]
  simp

theorem headerName_headerText {field : Bytes × Bytes} (hcolon : colon ∉ field.1) :
    headerName (headerText field) = lowered field.1 := by
  rw [headerName, headerText_eq, beforeFirst_append hcolon]

theorem unbroken_statusText (hclean : Unbroken resp.statusMessage) :
    Unbroken resp.statusText := by
  have hcode : Unbroken (decimalInt resp.statusCode) :=
    unbroken_of_printable fun _ hmem => lt_of_mem_decimalInt hmem
  exact (((by decide : Unbroken (literal "HTTP/1.1 ")).append hcode).append (by decide)).append
    hclean

/-- The message behind its status line. -/
theorem behindLine_toMessage (order : IterationOrder) (hclean : Unbroken resp.statusMessage)
    (rest : Bytes) :
    behindLine (resp.toMessage order ++ rest) =
      some (RequestText.linesBytes ((resp.fields order).map headerText) ++
        (crlf ++ (resp.body ++ rest))) := by
  rw [toMessage_eq_lines, List.append_assoc, List.append_assoc, List.append_assoc,
    List.append_assoc]
  exact behindLine_append (unbroken_statusText hclean).oneLine _

/-- The header lines of a message, read off its bytes. -/
def emittedLines (order : IterationOrder) (resp : HttpResponse) : List Bytes :=
  (behindLine (resp.toMessage order)).elim [] headLines

/-- The lines that can be read off a clean message are the fields. -/
theorem emittedLines_eq (order : IterationOrder) (hclean : resp.Clean) :
    resp.emittedLines order = (resp.fields order).map headerText := by
  have hbehind := behindLine_toMessage order hclean.message []
  rw [List.append_nil, List.append_nil] at hbehind
  rw [emittedLines, hbehind, Option.elim_some]
  apply headLines_linesBytes
  intro line hmem
  obtain ⟨field, hfield, rfl⟩ := List.mem_map.mp hmem
  exact ⟨headerText_ne_nil field, (unbroken_headerText (hclean.cleanField hfield)).oneLine⟩

/-! ## Names that are announced twice -/

/-- The names that the calls have set a field under. -/
def setNames (calls : List Setter) : List Bytes :=
  (storedEntries calls).map Prod.fst

/-- No two names set by the calls differ in case only, and none of them is a
spelling of a field that is always written. -/
structure NamesDistinct (calls : List Setter) : Prop where
  notFraming : ∀ name ∈ setNames calls,
    lowered name ≠ contentLengthKey ∧ lowered name ≠ connectionKey
  oneSpelling : ∀ name ∈ setNames calls, ∀ other ∈ setNames calls,
    lowered name = lowered other → name = other

/-- The same of the names in the map. -/
structure NamesApart (resp : HttpResponse) : Prop where
  notFraming : ∀ name ∈ resp.headers,
    lowered name ≠ contentLengthKey ∧ lowered name ≠ connectionKey
  oneSpelling : ∀ name ∈ resp.headers, ∀ other ∈ resp.headers,
    lowered name = lowered other → name = other

/-- A head that announces every name once, in whatever case: in particular the
length of the body and the fate of the connection. -/
structure OneFraming (order : IterationOrder) (resp : HttpResponse) : Prop where
  distinct : ((resp.emittedLines order).map headerName).Nodup
  contentLength : ((resp.emittedLines order).filter fun line =>
      headerName line = contentLengthKey) =
    [literal "Content-Length: " ++ decimal resp.body.length]
  connection : ((resp.emittedLines order).filter fun line =>
      headerName line = connectionKey) =
    [literal "Connection: " ++ if resp.keepAlive then literal "keep-alive" else literal "close"]

theorem mem_setNames {calls : List Setter} {name : Bytes} :
    name ∈ setNames calls ↔ name ∈ (built calls).headers := by
  rw [← AList.lookup_isSome, lookup_built, Option.isSome_iff_exists]
  constructor
  · intro hmem
    obtain ⟨entry, hentry, rfl⟩ := List.mem_map.mp hmem
    exact exists_lastSet hentry
  · rintro ⟨value, hlast⟩
    exact List.mem_map_of_mem (mem_storedEntries_of_lastSet hlast)

theorem namesApart_built {calls : List Setter} :
    (built calls).NamesApart ↔ NamesDistinct calls := by
  constructor
  · intro hapart
    exact ⟨fun name hname => hapart.notFraming name (mem_setNames.mp hname),
      fun name hname other hother =>
        hapart.oneSpelling name (mem_setNames.mp hname) other (mem_setNames.mp hother)⟩
  · intro hdistinct
    exact ⟨fun name hname => hdistinct.notFraming name (mem_setNames.mpr hname),
      fun name hname other hother =>
        hdistinct.oneSpelling name (mem_setNames.mpr hname) other (mem_setNames.mpr hother)⟩

theorem mem_iterate_names (order : IterationOrder) {name : Bytes} :
    name ∈ (order.iterate resp.headers).map Prod.fst ↔ name ∈ resp.headers := by
  have hperm := (order.perm resp.headers).map Prod.fst
  rw [List.map_map] at hperm
  exact hperm.mem_iff

/-- The map keeps every spelling of a name once. -/
theorem nodup_iterate_names : ((order.iterate resp.headers).map Prod.fst).Nodup := by
  have hperm := (order.perm resp.headers).map Prod.fst
  rw [List.map_map] at hperm
  exact hperm.nodup_iff.mpr resp.headers.keys_nodup

/-- The names of the lines are those of the fields, in lower case. -/
theorem names_fields (order : IterationOrder) (hclean : resp.Clean) :
    ((resp.fields order).map headerText).map headerName =
      (((order.iterate resp.headers).map Prod.fst).map lowered) ++
        [contentLengthKey, connectionKey] := by
  have hnames : ((resp.fields order).map headerText).map headerName =
      (resp.fields order).map fun field => lowered field.1 := by
    rw [List.map_map]
    apply List.map_congr_left
    intro field hmem
    exact headerName_headerText (hclean.cleanField hmem).colon
  have hframing : resp.framingFields.map (fun field => lowered field.1) =
      [contentLengthKey, connectionKey] :=
    (by decide : [lowered (literal "Content-Length"), lowered (literal "Connection")] =
      [contentLengthKey, connectionKey])
  rw [hnames, fields, List.map_append, hframing, List.map_map]
  rfl

/-- Every name is announced once exactly when the map has one spelling of every
name and leaves the framing fields alone. -/
theorem nodup_names_iff (order : IterationOrder) (hclean : resp.Clean) :
    (((resp.fields order).map headerText).map headerName).Nodup ↔ resp.NamesApart := by
  have hframing : [contentLengthKey, connectionKey].Nodup := by decide
  rw [names_fields order hclean, List.nodup_append]
  constructor
  · rintro ⟨hnodup, -, hdisjoint⟩
    have hinj := List.inj_on_of_nodup_map hnodup
    constructor
    · intro name hname
      have hmem := List.mem_map_of_mem (f := lowered)
        ((mem_iterate_names order).mpr hname)
      exact ⟨hdisjoint _ hmem _ (by simp), hdisjoint _ hmem _ (by simp)⟩
    · intro name hname other hother
      exact hinj ((mem_iterate_names order).mpr hname) ((mem_iterate_names order).mpr hother)
  · intro hapart
    refine ⟨?_, hframing, ?_⟩
    · apply List.Nodup.map_on _ nodup_iterate_names
      intro name hname other hother
      exact hapart.oneSpelling name ((mem_iterate_names order).mp hname)
        other ((mem_iterate_names order).mp hother)
    · intro key hkey other hother
      obtain ⟨name, hname, rfl⟩ := List.mem_map.mp hkey
      have hnot := hapart.notFraming name ((mem_iterate_names order).mp hname)
      rw [List.mem_cons, List.mem_singleton] at hother
      rcases hother with rfl | rfl
      · exact hnot.1
      · exact hnot.2

/-- A line with a name that occurs once is the only one with that name. -/
theorem filter_name_eq {lines : List Bytes} (hnodup : (lines.map headerName).Nodup)
    {line : Bytes} (hmem : line ∈ lines) :
    lines.filter (fun other => headerName other = headerName line) = [line] := by
  induction lines with
  | nil => cases hmem
  | cons first lines ih =>
      rw [List.map_cons, List.nodup_cons] at hnodup
      rcases List.mem_cons.mp hmem with rfl | hrest
      · have hnone : lines.filter (fun other => headerName other = headerName line) = [] := by
          rw [List.filter_eq_nil_iff]
          intro other hother
          rw [decide_eq_true_iff]
          intro hname
          exact hnodup.1 (hname ▸ List.mem_map_of_mem hother)
        rw [List.filter_cons_of_pos (by simp), hnone]
      · have hne : headerName first ≠ headerName line := by
          intro hname
          exact hnodup.1 (hname ▸ List.mem_map_of_mem hrest)
        rw [List.filter_cons_of_neg (by simpa using hne), ih hnodup.2 hrest]

/-- A response that sets a content length of its own announces two. -/
theorem two_lengths_announced :
    (∀ call ∈ [Setter.setHeader (literal "content-length") (literal "5")], call.Clean) ∧
    ¬ OneFraming .stored (built [.setHeader (literal "content-length") (literal "5")]) := by
  refine ⟨by decide, fun hframing => ?_⟩
  exact absurd hframing.distinct (by decide +kernel)

/-- **When a message has one framing.** Whatever clean calls have built the
response and in whatever order its headers are iterated: no name is announced
twice, the length of the body and the fate of the connection in particular are
announced once and truly, if and only if the calls keep to one spelling of every
name and set neither of the two framing fields. -/
theorem one_framing_iff (order : IterationOrder) (calls : List Setter)
    (hcalls : ∀ call ∈ calls, call.Clean) :
    OneFraming order (built calls) ↔ NamesDistinct calls := by
  have hclean := clean_built hcalls
  have hlines := emittedLines_eq order hclean
  rw [← namesApart_built, ← nodup_names_iff order hclean, ← hlines]
  constructor
  · intro hframing
    exact hframing.distinct
  · intro hnodup
    have hmem {field : Bytes × Bytes} (hfield : field ∈ (built calls).framingFields) :
        headerText field ∈ (built calls).emittedLines order := by
      rw [hlines]
      exact List.mem_map_of_mem (List.mem_append_right _ hfield)
    have hname {field : Bytes × Bytes} (hfield : field ∈ (built calls).framingFields) :
        headerName (headerText field) = lowered field.1 :=
      headerName_headerText (cleanField_framing hfield).colon
    have hfirst : _ ∈ (built calls).framingFields := List.mem_cons_self ..
    have hsecond : _ ∈ (built calls).framingFields :=
      List.mem_cons_of_mem _ (List.mem_cons_self ..)
    have hlength := filter_name_eq hnodup (hmem hfirst)
    have hconnection := filter_name_eq hnodup (hmem hsecond)
    rw [hname hfirst] at hlength
    rw [hname hsecond] at hconnection
    exact ⟨hnodup, hlength, hconnection⟩

/-- A header that is set twice under one name is announced once. -/
theorem one_framing_overwritten :
    OneFraming .stored (built [.setHeader (literal "X-Id") (literal "1"),
      .setContentType (literal "text/plain"), .setHeader (literal "X-Id") (literal "2"),
      .setBody (literal "\r\n"), .setKeepAlive true]) :=
  (one_framing_iff .stored _ (by decide)).mpr ⟨by decide, by decide⟩

end HttpResponse

end EpollHttpServer.Http
