/-
# Keeping or closing after a response

When the first write takes a whole message, `sendResponse` keeps or closes the
connection as the response says.  When it does not, `onWrite` decides later,
and it asks the request that is left in the connection.  The two agree for a
response to a complete request, which copies the wish of the request.  They
disagree when a request is rejected after a part of it has been stored that
already asks to keep the connection.
-/

import EpollHttpServer.Server.OutputStream

namespace EpollHttpServer.Server

open EpollHttpServer.Lib EpollHttpServer.Http EpollHttpServer.Reactor

def ReadResult.bytes : ReadResult → Bytes
  | .data bytes => bytes
  | .error _ => []

namespace Session

/-- The verdict of the parser on what is read, and the request it leaves. -/
def parsed (s : Session) (d : Dispatch) : Bool × HttpRequest :=
  s.conn.request.parse d.read.bytes

/-- The response that `onRead` passes to `sendResponse`. -/
def responseFor (service : Service) (s : Session) (d : Dispatch) : HttpResponse :=
  if (s.parsed d).1 = false then .badRequest else s.responseTo service (s.parsed d).2

/-- What the first write takes of the response, if it does not fail. -/
def firstSent (service : Service) (s : Session) (d : Dispatch) : Option ℕ :=
  sentCount (d.writes.headD (.fail EAGAIN))
    ((s.responseFor service d).toMessage service.order).length

/-- The first write takes the whole message. -/
def takesWhole (service : Service) (s : Session) (d : Dispatch) : Prop :=
  s.firstSent service d = some ((s.responseFor service d).toMessage service.order).length

/-- The same read when there is room for the whole message. -/
def withRoom (service : Service) (s : Session) (d : Dispatch) : Dispatch :=
  { d with writes := [.room ((s.responseFor service d).toMessage service.order).length] }

/-- Steps that only deliver: no write fails, nothing more is read from the
client and it does not hang up. -/
def delivering : Machine.Discipline Session Dispatch := fun s d =>
  (∀ answer ∈ d.writes, answer.isSoft) ∧ (s.selects d = some .read → d.read.fails) ∧
    s.selects d ≠ some .close

instance (s : Session) (d : Dispatch) : Decidable (delivering s d) :=
  inferInstanceAs (Decidable (_ ∧ _ ∧ _))

/-- From `s`, the response to what `d` reads is delivered completely, and `t`
is the session when all of it is out. -/
inductive Delivered (service : Service) (s : Session) (d : Dispatch) : Session → Prop where
  | atOnce {t : Session} (hstep : (sessions service).step s d = some t)
      (hwhole : s.takesWhole service d) : Delivered service s d t
  | buffered {mid t : Session} {n : ℕ} {later : List Dispatch}
      (hstep : (sessions service).step s d = some mid)
      (hsent : s.firstSent service d = some n) (hpart : ¬ s.takesWhole service d)
      (hfollows : (sessions service).Follows delivering mid later)
      (hrun : (sessions service).run mid later = some t)
      (hout : t.conn.pending = []) : Delivered service s d t

/-- Both connections are removed, or both are kept with the same request. -/
def SameOutcome (s t : Session) : Prop :=
  s.conn.closing = t.conn.closing ∧ (s.conn.closing = false → s.conn.request = t.conn.request)

variable {s t : Session} {service : Service} {d : Dispatch}

variable (service) in
/-- A read that asks for a response ends in `sendResponse`. -/
theorem onRead_of_asksResponse (hlive : s.conn.Live)
    (hasks : d.read.asksResponse s.conn.request) :
    ∃ notes, s.onRead service d = (s.afterParse d.read (s.parsed d).2 notes).sendResponse service
      (d.writes.headD (.fail EAGAIN)) (s.responseFor service d) := by
  generalize hresult : s.onRead service d = u
  have houtcome : ReadOutcome service d s u := hresult ▸ onRead_outcome hlive d
  have hparsed {bytes : Bytes} (hread : d.read = .data bytes) :
      s.parsed d = s.conn.request.parse bytes := by
    rw [parsed, hread]
    rfl
  cases houtcome with
  | failed errno hread =>
      rw [hread] at hasks
      exact hasks.elim
  | ended hread =>
      rw [hread] at hasks
      exact hasks.elim
  | waiting bytes request hread hbytes hparse hgot =>
      obtain ⟨b, rest, rfl⟩ := List.exists_cons_of_ne_nil hbytes
      rw [hread] at hasks
      rcases hasks with hrejects | hcomplete
      · rw [hparse] at hrejects
        cases hrejects
      · rw [hparse] at hcomplete
        exact absurd (hgot.symm.trans hcomplete) Bool.false_ne_true
  | rejected bytes request hread hbytes hparse =>
      refine ⟨[], ?_⟩
      rw [responseFor, hparsed hread, hparse]
      rfl
  | answered bytes request hread hbytes hparse hgot =>
      refine ⟨completion s.conn.request request ++ handover service request, ?_⟩
      rw [responseFor, hparsed hread, hparse]
      rfl

/-- A connection while a response is delivered, and afterwards. -/
inductive Delivery (left : HttpRequest) (c : Connection) : Prop where
  | sending (hlive : c.Live) (hrequest : c.request = left) (hrest : c.pending ≠ [])
  | kept (hlive : c.Live) (hrequest : c.request = .fresh) (hout : c.pending = [])
      (hkeep : left.keepAlive = true)
  | removed (hclosed : c.Closed) (hkeep : left.keepAlive = false)

theorem delivery_onWrite {left : HttpRequest} (hlive : s.conn.Live)
    (hrequest : s.conn.request = left) (hsoft : ∀ answer ∈ d.writes, answer.isSoft) :
    Delivery left (s.onWrite d).conn := by
  rcases onWrite_cases hlive d with ⟨writes, count, hcount, _, _, hresult⟩ |
    ⟨writes, count, _, _, _, ⟨answer, hanswer, hhard⟩, _⟩ | ⟨writes, _, _, hkeep, hresult⟩ |
    ⟨writes, _, _, hkeep, hresult⟩
  · have hrest : (s.conn.advance count).pending ≠ [] := by
      rw [Connection.pending_advance, Ne, List.drop_eq_nil_iff, not_le]
      exact hcount
    rw [hresult]
    exact .sending (hlive.advance hcount) hrequest hrest
  · exact absurd (hsoft answer hanswer) hhard
  · rw [hresult]
    exact .kept (hlive.drain.withRequest _) rfl rfl (hrequest ▸ hkeep)
  · rw [hresult]
    exact .removed (Connection.closed_remove _) (hrequest ▸ hkeep)

/-- The step lemma of a delivery. -/
theorem delivery_step {left : HttpRequest} (hdelivery : Delivery left s.conn)
    (hdelivering : delivering s d) (hstep : (sessions service).step s d = some t) :
    Delivery left t.conn := by
  have hlive : s.conn.Live := by
    cases hdelivery with
    | sending hlive => exact hlive
    | kept hlive => exact hlive
    | removed hclosed => exact live_of_step (.inr hclosed) hstep
  have hopen : ¬ s.conn.Closed := fun hclosed =>
    absurd (hlive.notClosing.symm.trans hclosed.closing) Bool.false_ne_true
  have hlive' : (s.notified d.revents).conn.Live := hlive.withRevents d.revents
  obtain ⟨hmay, _, rfl⟩ := sessions_step hstep
  obtain ⟨hsoft, hnothing, hstays⟩ := hdelivering
  -- Dispatches that leave the connection as it is.
  have hidle : Delivery left (s.notified d.revents).conn := by
    cases hdelivery with
    | sending _ hrequest hrest => exact .sending hlive' hrequest hrest
    | kept _ hrequest hout hkeep => exact .kept hlive' hrequest hout hkeep
    | removed hclosed _ => exact absurd hclosed hopen
  rw [dispatch_eq]
  cases hselects : s.selects d with
  | none => exact hidle
  | some selected =>
      cases selected with
      | write =>
          have hrest := pending_of_selects_write hlive hmay hselects
          cases hdelivery with
          | sending _ hrequest _ => exact delivery_onWrite hlive' hrequest hsoft
          | kept _ _ hout _ => exact absurd hout hrest
          | removed hclosed _ => exact absurd hclosed hopen
      | read =>
          show Delivery left ((s.notified d.revents).onRead service d).conn
          rw [onRead_of_fails hlive' (hnothing hselects)]
          exact hidle
      | close => exact absurd hselects hstays
      | error => exact hidle

variable (service) in
/-- A dispatch that responds ends in `sendResponse` on the connection that
keeps the request the parser has left. -/
theorem dispatch_of_responds (hlive : s.conn.Live) (hresponds : s.responds d) :
    ∃ u : Session, u.conn.Live ∧ u.conn.request = (s.parsed d).2 ∧
      s.dispatch service d = u.sendResponse service (d.writes.headD (.fail EAGAIN))
        (s.responseFor service d) := by
  have hlive' : (s.notified d.revents).conn.Live := hlive.withRevents d.revents
  obtain ⟨notes, hresult⟩ := onRead_of_asksResponse service hlive' hresponds.2
  refine ⟨_, live_afterParse hlive' d.read (s.parsed d).2 notes, rfl, ?_⟩
  rw [dispatch_eq, hresponds.1]
  exact hresult

/-- The connection is kept or removed as `keep` says, and reset if it is kept. -/
structure DecidedBy (keep : Bool) (c : Connection) : Prop where
  closing : c.closing = !keep
  reset : c.closing = false → c.request = .fresh

theorem DecidedBy.closing_iff {keep : Bool} {c : Connection} (hdecided : DecidedBy keep c) :
    c.closing = true ↔ keep = false := by
  rw [hdecided.closing, Bool.not_eq_true']

theorem DecidedBy.sameOutcome {keep : Bool} (hs : DecidedBy keep s.conn)
    (ht : DecidedBy keep t.conn) : SameOutcome s t := by
  have hclosing : s.conn.closing = t.conn.closing := hs.closing.trans ht.closing.symm
  refine ⟨hclosing, fun hkept => ?_⟩
  rw [hs.reset hkept, ht.reset (hclosing.symm.trans hkept)]

/-- What is decided when the first write takes the whole message. -/
theorem decidedBy_of_takesWhole (hlive : s.conn.Live) (hresponds : s.responds d)
    (hwhole : s.takesWhole service d) :
    DecidedBy (s.responseFor service d).keepAlive (s.dispatch service d).conn := by
  obtain ⟨u, hu, _, hresult⟩ := dispatch_of_responds service hlive hresponds
  rw [hresult]
  rcases sendResponse_cases service hu (d.writes.headD (.fail EAGAIN))
    (s.responseFor service d) with ⟨hnone, _⟩ | ⟨n, hn, hsome, _⟩ | ⟨_, hkeep, hsent⟩ |
      ⟨_, hclose, hsent⟩
  · exact absurd (hnone.symm.trans hwhole) (by simp)
  · have hall : n = _ := Option.some.inj (hsome.symm.trans hwhole)
    exact absurd hall hn.ne
  · rw [hsent, hkeep]
    exact ⟨hu.notClosing, fun _ => rfl⟩
  · rw [hsent, hclose]
    exact ⟨rfl, fun hkept => absurd hkept (by simp [Connection.remove])⟩

/-- What is decided when the rest of the message is buffered. -/
theorem delivery_of_buffered (hlive : s.conn.Live) (hresponds : s.responds d) {n : ℕ}
    (hsent : s.firstSent service d = some n) (hpart : ¬ s.takesWhole service d) :
    Delivery (s.parsed d).2 (s.dispatch service d).conn := by
  obtain ⟨u, hu, hrequest, hresult⟩ := dispatch_of_responds service hlive hresponds
  rw [hresult]
  rcases sendResponse_cases service hu (d.writes.headD (.fail EAGAIN))
    (s.responseFor service d) with ⟨hnone, _⟩ | ⟨m, hm, _, hbuffered⟩ | ⟨hwhole, _⟩ | ⟨hwhole, _⟩
  · exact absurd (hnone.symm.trans hsent) (by simp)
  · have hrest : ((s.responseFor service d).toMessage service.order).drop m ≠ [] := by
      rw [Ne, List.drop_eq_nil_iff, not_le]
      exact hm
    rw [hbuffered]
    exact .sending (hu.buffer hrest) hrequest hrest
  · exact absurd hwhole hpart
  · exact absurd hwhole hpart

/-- At the end of a delivery the request that was left has decided. -/
theorem Delivery.decidedBy {left : HttpRequest} {c : Connection} (hdelivery : Delivery left c)
    (hout : c.pending = []) : DecidedBy left.keepAlive c := by
  cases hdelivery with
  | sending _ _ hrest => exact absurd hout hrest
  | kept hlive hrequest _ hkeep =>
      rw [hkeep]
      exact ⟨hlive.notClosing, fun _ => hrequest⟩
  | removed hclosed hkeep =>
      rw [hkeep]
      exact ⟨hclosed.closing, fun hkept => absurd (hkept.symm.trans hclosed.closing) (by simp)⟩

theorem responseFor_keepAlive_of_accepts (haccepts : (s.parsed d).1 = true) :
    (s.responseFor service d).keepAlive = (s.parsed d).2.keepAlive := by
  rw [responseFor, if_neg (by simp [haccepts])]
  rfl

variable (service) in
theorem responseFor_keepAlive_of_rejects (hrejects : (s.parsed d).1 = false) :
    (s.responseFor service d).keepAlive = false := by
  rw [responseFor, if_pos hrejects]
  rfl

theorem withRoom_takesWhole (service : Service) (s : Session) (d : Dispatch) :
    s.takesWhole service (s.withRoom service d) :=
  congrArg some (min_self _)

/-- **When the buffered path decides like the immediate one.** Let a connection
that is in service respond to what it reads, and let the response be delivered
in whatever pieces while nothing else arrives.  The connection ends up as it
would if the first write had taken the whole message, and it is removed exactly
if the response does not keep the connection, if and only if the first write
did take the whole message, or the bytes were accepted by the parser, or the
request that the rejected bytes left behind does not ask to keep the
connection. -/
theorem buffered_close_decision_iff (service : Service) (s t : Session) (d : Dispatch)
    (hreach : (sessions service).Reachable s) (hopen : s.conn.closing = false)
    (hresponds : s.responds d) (hdelivered : Delivered service s d t) :
    (SameOutcome t (s.dispatch service (s.withRoom service d)) ∧
      (t.conn.closing = true ↔ (s.responseFor service d).keepAlive = false)) ↔
    s.takesWhole service d ∨ (s.parsed d).1 = true ∨ (s.parsed d).2.keepAlive = false := by
  have hlive : s.conn.Live := by
    rcases live_or_closed_of_reachable hreach with hlive | hclosed
    · exact hlive
    · exact absurd (hopen.symm.trans hclosed.closing) Bool.false_ne_true
  have hroom : DecidedBy (s.responseFor service d).keepAlive
      (s.dispatch service (s.withRoom service d)).conn :=
    decidedBy_of_takesWhole (d := s.withRoom service d) hlive hresponds
      (s.withRoom_takesWhole service d)
  cases hdelivered with
  | atOnce hstep hwhole =>
      obtain ⟨_, _, rfl⟩ := sessions_step hstep
      have hdecided := decidedBy_of_takesWhole hlive hresponds hwhole
      exact ⟨fun _ => .inl hwhole, fun _ => ⟨hdecided.sameOutcome hroom, hdecided.closing_iff⟩⟩
  | buffered hstep hsent hpart hfollows hrun hout =>
      obtain ⟨_, _, rfl⟩ := sessions_step hstep
      have hdelivery : Delivery (s.parsed d).2 t.conn :=
        Machine.run_invariant (I := fun u : Session => Delivery (s.parsed d).2 u.conn)
          (fun _ _ _ hI hok hnext => delivery_step hI hok hnext)
          (delivery_of_buffered hlive hresponds hsent hpart) hrun hfollows
      have hdecided := hdelivery.decidedBy hout
      constructor
      · rintro ⟨_, hcloses⟩
        cases haccepts : (s.parsed d).1 with
        | true => exact .inr (.inl rfl)
        | false =>
            have hresp := responseFor_keepAlive_of_rejects service haccepts
            exact .inr (.inr (hdecided.closing_iff.mp (hcloses.mpr hresp)))
      · intro hcondition
        have hagree : (s.responseFor service d).keepAlive = (s.parsed d).2.keepAlive := by
          cases haccepts : (s.parsed d).1 with
          | true => exact responseFor_keepAlive_of_accepts haccepts
          | false =>
              rcases hcondition with hwhole | haccepts' | hcloses
              · exact absurd hwhole hpart
              · exact absurd (haccepts.symm.trans haccepts') Bool.false_ne_true
              · rw [responseFor_keepAlive_of_rejects service haccepts, hcloses]
        rw [hagree] at hroom ⊢
        exact ⟨hdecided.sameOutcome hroom, hdecided.closing_iff⟩

/-- A computed run in which a first write of ten bytes is followed by writes
that bring the rest out, and the connection stays. -/
theorem exists_delivered (d : Dispatch) (later : List Dispatch)
    (hmay : (created 0 7).conn.channel.mayReport d.revents ∧ d.read.fits)
    (hsent : (created 0 7).firstSent plainService d = some 10)
    (hpart : ¬ (created 0 7).takesWhole plainService d)
    (hfollows : (sessions plainService).Follows delivering
      ((created 0 7).dispatch plainService d) later)
    (hrun : ((sessions plainService).run ((created 0 7).dispatch plainService d) later).any
      (fun t => decide (t.conn.pending = [] ∧ t.conn.closing = false)) = true) :
    ∃ t, Delivered plainService (created 0 7) d t ∧ t.conn.pending = [] ∧
      t.conn.closing = false := by
  rw [Option.any_eq_true] at hrun
  obtain ⟨t, ht, hdone⟩ := hrun
  obtain ⟨hout, hkept⟩ := of_decide_eq_true hdone
  exact ⟨t, .buffered (if_pos hmay) hsent hpart hfollows ht hout, hout, hkept⟩

/-- A response to a complete request that goes out in two pieces. -/
theorem buffered_close_decision_keepAlive :
    ∃ t : Session, t.conn.closing = false ∧ t.conn.pending = [] ∧
      SameOutcome t ((created 0 7).dispatch plainService ((created 0 7).withRoom plainService
        (readable (literal "GET / HTTP/1.1\r\n\r\n") [.room 10]))) := by
  let d := readable (literal "GET / HTTP/1.1\r\n\r\n") [.room 10]
  have hpart : ¬ (created 0 7).takesWhole plainService d := by
    unfold takesWhole
    decide +kernel
  obtain ⟨t, hdelivered, hout, hkept⟩ := exists_delivered d
    [writable [.room 20, .fail EAGAIN], writable [.room 100]] (by decide +kernel)
    (by decide +kernel) hpart (by decide +kernel) (by decide +kernel)
  have hdecision := buffered_close_decision_iff plainService (created 0 7) t d
    (.of_init ⟨0, 7, rfl⟩) (by decide +kernel) (by decide +kernel) hdelivered
  exact ⟨t, hkept, hout, (hdecision.mpr (.inr (.inl (by decide +kernel)))).1⟩

/-- A request of `HTTP/1.1` that is rejected at its first header is answered
with 400 and the connection is kept when the answer goes out in two pieces. -/
theorem buffered_bad_request_kept : ¬ ∀ (service : Service) (s t : Session) (d : Dispatch),
    (sessions service).Reachable s → s.conn.closing = false → s.responds d →
      Delivered service s d t →
        SameOutcome t (s.dispatch service (s.withRoom service d)) ∧
          (t.conn.closing = true ↔ (s.responseFor service d).keepAlive = false) := by
  intro hall
  let d := readable (literal "GET / HTTP/1.1\r\nbad\r\n") [.room 10]
  have hpart : ¬ (created 0 7).takesWhole plainService d := by
    unfold takesWhole
    decide +kernel
  obtain ⟨t, hdelivered, _, hkept⟩ := exists_delivered d [writable [.room 1000]]
    (by decide +kernel) (by decide +kernel) hpart (by decide +kernel) (by decide +kernel)
  have hdecision := hall plainService (created 0 7) t d
    (.of_init ⟨0, 7, rfl⟩) (by decide +kernel) (by decide +kernel) hdelivered
  have hcloses := hdecision.2.mpr (by decide +kernel)
  rw [hkept] at hcloses
  exact absurd hcloses Bool.false_ne_true

end Session

end EpollHttpServer.Server
