/-
# A connection under the event loop

`epoll_wait` returns a batch of events, and the loop then hands them out one by
one.  Here the wait and the hand-out are separate steps.  An event for the
connection gets into a batch only if its descriptor is in the interest set when
`epoll_wait` is called, a batch holds at most one, and its mask is arbitrary:
nothing is assumed about which bits are reported.  The interest set is not the
flag that the channel keeps, but what the successful `epoll_ctl` and `close`
calls of the connection have made of it.

Two things hold of every such run.  Closing happens once and is the last thing
that is done with the descriptor, and while the connection is open its mask
asks for exactly what its buffers need.
-/

import EpollHttpServer.Server.OutputStream

namespace EpollHttpServer.Server

open EpollHttpServer.Lib EpollHttpServer.Http EpollHttpServer.Reactor

/-- What a call makes of the presence of a descriptor in the interest set. -/
def Effect.presence (fd : ℕ) (present : Bool) : Effect → Bool
  | .epollCtl fd' (.add _) => if fd' = fd then true else present
  | .epollCtl fd' .del => if fd' = fd then false else present
  | .close fd' => if fd' = fd then false else present
  | _ => present

/-- Whether a descriptor is in the interest set after these calls. -/
def registeredBy (fd : ℕ) (log : List Effect) : Bool :=
  log.foldl (Effect.presence fd) false

/-- The calls that only `removeConnection` makes. -/
def Effect.isTeardown : Effect → Bool
  | .epollCtl _ .del => true
  | .close _ => true
  | .queueErase _ => true
  | _ => false

/-- A connection, and whether the batch in hand still holds an event for it. -/
structure Watched where
  session : Session
  reported : Bool
  deriving DecidableEq

/-- A turn of the loop, as far as it concerns one connection. -/
inductive Turn where
  | wait (reports : Bool)
  | dispatch (d : Dispatch)
  deriving DecidableEq

/-- Runs of one connection under its event loop. -/
def watched (service : Service) : Machine Watched Turn where
  init w := ∃ loop fd, w = ⟨.created loop fd, false⟩
  step w
    | .wait reports =>
      if reports = true → registeredBy w.session.fd w.session.log = true then
        some { w with reported := reports }
      else none
    | .dispatch d =>
      if w.reported = true then some ⟨w.session.dispatch service d, false⟩ else none

/-! ## What local effects leave alone -/

theorem registeredBy_append (fd : ℕ) (first second : List Effect) :
    registeredBy fd (first ++ second) =
      second.foldl (Effect.presence fd) (registeredBy fd first) :=
  List.foldl_append ..

/-- Local effects leave the interest set alone. -/
theorem foldl_presence_of_local {fd : ℕ} {effects : List Effect}
    (hlocal : ∀ e ∈ effects, e.isLocal fd) (present : Bool) :
    effects.foldl (Effect.presence fd) present = present := by
  induction effects with
  | nil => rfl
  | cons e effects ih =>
      have he : Effect.presence fd present e = present := by
        have hfirst := hlocal e (List.mem_cons_self ..)
        cases e with
        | epollCtl fd' ctl =>
            cases ctl with
            | mod events => rfl
            | add events => exact hfirst.elim
            | del => exact hfirst.elim
        | close fd' => exact hfirst.elim
        | read | write | queueErase | completed | callback | respond | reset => rfl
      rw [List.foldl_cons, he]
      exact ih fun other hmem => hlocal other (List.mem_cons_of_mem e hmem)

theorem registeredBy_teardown (fd : ℕ) (log : List Effect) :
    registeredBy fd (log ++ teardown fd) = false := by
  rw [registeredBy_append]
  simp [teardown, Effect.presence]

theorem not_isTeardown_of_local {fd : ℕ} {e : Effect} (hlocal : e.isLocal fd) :
    e.isTeardown = false := by
  cases e with
  | epollCtl fd' ctl =>
      cases ctl with
      | mod events => rfl
      | add events => exact hlocal.elim
      | del => exact hlocal.elim
  | close fd' => exact hlocal.elim
  | queueErase fd' => exact hlocal.elim
  | read | write | completed | callback | respond | reset => rfl

/-! ## Closing -/

namespace Watched

open Session (Leads leads_dispatch plainService readable writable)

/-- What a run has left of a connection: it is served and nothing has been
closed, or it was taken out of service with its last effects and no event is
due for it. -/
inductive Standing (w : Watched) : Prop where
  | served (hlive : w.session.conn.Live)
      (hpresent : registeredBy w.session.fd w.session.log = true)
      (hnever : ∀ e ∈ w.session.log, e.isTeardown = false)
  | ended (before : List Effect) (hclosed : w.session.conn.Closed)
      (hlog : w.session.log = before ++ teardown w.session.fd)
      (hnever : ∀ e ∈ before, e.isTeardown = false)
      (hquiet : w.reported = false)

theorem standing_created (loop fd : ℕ) : Standing ⟨.created loop fd, false⟩ := by
  apply Standing.served (Session.live_created loop fd)
  · rw [Session.created_eq]
    simp [registeredBy, Session.fd, Effect.presence]
  · rw [Session.created_eq]
    simp [Effect.isTeardown]

/-- A connection that has been taken out of service is not reported again. -/
theorem Standing.wait {w : Watched} (hstanding : w.Standing) {reports : Bool}
    (hallowed : reports = true → registeredBy w.session.fd w.session.log = true) :
    Standing { w with reported := reports } := by
  cases hstanding with
  | served hlive hpresent hnever => exact .served hlive hpresent hnever
  | ended before hclosed hlog hnever hquiet =>
      rw [hlog, registeredBy_teardown] at hallowed
      have hunreported : reports = false :=
        Bool.eq_false_iff.mpr fun hreports => Bool.false_ne_true (hallowed hreports)
      exact .ended before hclosed hlog hnever hunreported

/-- A handler runs on a connection that is served, and either leaves it served
or takes it out of service with the last things it does. -/
theorem Standing.dispatch {service : Service} {w : Watched} (hstanding : w.Standing)
    (hreported : w.reported = true) (d : Dispatch) :
    Standing ⟨w.session.dispatch service d, false⟩ := by
  cases hstanding with
  | ended before hclosed hlog hnever hquiet =>
      rw [hquiet] at hreported
      exact absurd hreported Bool.false_ne_true
  | served hlive hpresent hnever =>
      have hextended {effects : List Effect} (hlocal : ∀ e ∈ effects, e.isLocal w.session.fd) :
          ∀ e ∈ w.session.log ++ effects, e.isTeardown = false := by
        intro e hmem
        rcases List.mem_append.mp hmem with hold | hnew
        · exact hnever e hold
        · exact not_isTeardown_of_local (hlocal e hnew)
      have hleads : Leads w.session (w.session.dispatch service d) := leads_dispatch hlive d
      cases hleads with
      | stays effects hlocal hlog hfd hlive' =>
          apply Standing.served hlive'
          · show registeredBy (w.session.dispatch service d).fd _ = true
            rw [hfd, hlog, registeredBy_append, foldl_presence_of_local hlocal, hpresent]
          · show ∀ e ∈ (w.session.dispatch service d).log, _
            rw [hlog]
            exact hextended hlocal
      | ends effects hlocal hlog hfd hclosed =>
          apply Standing.ended (w.session.log ++ effects) hclosed _ (hextended hlocal) rfl
          show (w.session.dispatch service d).log = _ ++ teardown (w.session.dispatch service d).fd
          rw [hfd, hlog, List.append_assoc]

/-- The run lemma. -/
theorem standing_of_reachable {service : Service} {w : Watched}
    (hreach : (watched service).Reachable w) : w.Standing := by
  apply Machine.Reachable.invariant (I := Standing) _ _ hreach
  · rintro w ⟨loop, fd, rfl⟩
    exact standing_created loop fd
  · intro w turn w' hstanding hstep
    cases turn with
    | wait reports =>
        simp only [watched, Option.ite_none_right_eq_some, Option.some.injEq] at hstep
        obtain ⟨hallowed, rfl⟩ := hstep
        exact hstanding.wait hallowed
    | dispatch d =>
        simp only [watched, Option.ite_none_right_eq_some, Option.some.injEq] at hstep
        obtain ⟨hreported, rfl⟩ := hstep
        exact hstanding.dispatch hreported d

/-- A run in which every event is dispatched to what is registered, with a mask
that epoll may report, is a run under the loop: each event is a batch of its own. -/
theorem reachable_of_session {service : Service} {s : Session}
    (hreach : (sessions service).Reachable s) : (watched service).Reachable ⟨s, false⟩ := by
  have hboth : (watched service).Reachable ⟨s, false⟩ ∧ (s.conn.Live ∨ s.conn.Closed) := by
    apply Machine.Reachable.invariant (M := sessions service)
      (I := fun s : Session => (watched service).Reachable ⟨s, false⟩ ∧
        (s.conn.Live ∨ s.conn.Closed)) _ _ hreach
    · rintro s ⟨loop, fd, rfl⟩
      exact ⟨.of_init ⟨loop, fd, rfl⟩, .inl (Session.live_created loop fd)⟩
    · rintro s d t ⟨hwatched, hconn⟩ hstep
      have hlive := Session.live_of_step hconn hstep
      have hpresent : registeredBy s.fd s.log = true := by
        cases standing_of_reachable hwatched with
        | served _ hpresent _ => exact hpresent
        | ended _ hclosed => exact absurd (hlive.notClosing.symm.trans hclosed.closing) (by decide)
      have hwait : (watched service).step ⟨s, false⟩ (.wait true) = some ⟨s, true⟩ :=
        if_pos fun _ => hpresent
      have hdispatch : (watched service).step ⟨s, true⟩ (.dispatch d) =
          some ⟨s.dispatch service d, false⟩ := by simp [watched]
      rw [(Session.sessions_step hstep).2.2]
      exact ⟨(hwatched.next trivial hwait).next trivial hdispatch,
        (Session.leads_dispatch hlive d).live_or_closed⟩
  exact hboth.1

theorem filter_isTeardown_of_never {effects : List Effect}
    (hnever : ∀ e ∈ effects, e.isTeardown = false) : effects.filter Effect.isTeardown = [] := by
  rw [List.filter_eq_nil_iff]
  intro e hmem
  rw [hnever e hmem]
  exact Bool.false_ne_true

/-- Behind the first descriptor that is closed stands only the queued erase. -/
theorem after_close {before after first : List Effect} {fd fd' : ℕ}
    (hnever : ∀ e ∈ first, e.isTeardown = false)
    (hlog : first ++ teardown fd = before ++ .close fd' :: after) :
    fd' = fd ∧ after = [.queueErase fd] := by
  have hshape : first ++ teardown fd =
      (first ++ [.epollCtl fd .del]) ++ .close fd :: [.queueErase fd] := by
    simp [teardown]
  have hnot : Effect.close fd' ∉ first ++ [.epollCtl fd .del] := by
    intro hmem
    rcases List.mem_append.mp hmem with hfirst | hdel
    · exact absurd (hnever _ hfirst) (by simp [Effect.isTeardown])
    · simp at hdel
  have hnotLast : Effect.close fd' ∉ [Effect.queueErase fd] := by simp
  rw [hshape, List.append_cons_inj_of_notMem hnot hnotLast] at hlog
  obtain ⟨-, hclose, hafter⟩ := hlog
  exact ⟨(Effect.close.inj hclose).symm, hafter.symm⟩

/-- **Closing is done once and is final.** In every run under the loop, whatever
is read, written, parsed and reported: the effects of `removeConnection` are in
the log once if the connection is closing and never otherwise, so the
descriptor is closed and its erase queued at most once.  Behind the `close` the
connection does nothing but queue that erase, its channel asks for nothing, it
is not in the interest set and no event is due for it. -/
theorem closed_once_and_final (service : Service) (w : Watched)
    (hreach : (watched service).Reachable w) :
    w.session.log.filter Effect.isTeardown =
        (if w.session.conn.closing = true then teardown w.session.fd else []) ∧
      w.session.log.count (.close w.session.fd) ≤ 1 ∧
      w.session.log.count (.queueErase w.session.fd) ≤ 1 ∧
      ∀ before after fd, w.session.log = before ++ .close fd :: after →
        fd = w.session.fd ∧ after = [.queueErase fd] ∧ w.session.conn.channel.events = 0 ∧
          registeredBy fd w.session.log = false ∧ w.reported = false := by
  have hcount {e : Effect} (he : e.isTeardown = true) :
      w.session.log.count e = (w.session.log.filter Effect.isTeardown).count e :=
    (List.count_filter he).symm
  cases standing_of_reachable hreach with
  | served hlive hpresent hnever =>
      have hfilter := filter_isTeardown_of_never hnever
      refine ⟨?_, ?_, ?_, ?_⟩
      · rw [hfilter, hlive.notClosing]
        rfl
      · rw [hcount rfl, hfilter]
        exact Nat.zero_le _
      · rw [hcount rfl, hfilter]
        exact Nat.zero_le _
      · intro before after fd hlog
        have hclose := hnever (.close fd) (by rw [hlog]; simp)
        exact absurd hclose (by simp [Effect.isTeardown])
  | ended first hclosed hlog hnever hquiet =>
      have hfilter : w.session.log.filter Effect.isTeardown = teardown w.session.fd := by
        rw [hlog, List.filter_append, filter_isTeardown_of_never hnever]
        rfl
      refine ⟨?_, ?_, ?_, ?_⟩
      · rw [hfilter, hclosed.closing]
        rfl
      · rw [hcount rfl, hfilter]
        simp [teardown]
      · rw [hcount rfl, hfilter]
        simp [teardown]
      · intro before after fd hsplit
        obtain ⟨rfl, hafter⟩ := after_close hnever (hlog.symm.trans hsplit)
        exact ⟨rfl, hafter, hclosed.events, by rw [hlog, registeredBy_teardown], hquiet⟩

/-- A request to be closed after the answer, whose end of stream is never read. -/
theorem closed_once_and_final_get :
    ∃ w : Watched, w.session.conn.closing = true ∧
      w.session.log.filter Effect.isTeardown = teardown w.session.fd := by
  obtain ⟨w, hreach, hclosing⟩ := Machine.exists_reachable_of_run
    (M := watched plainService) (s := ⟨.created 0 7, false⟩)
    (P := fun w => w.session.conn.closing = true) Machine.anyStep
    [.wait true, .dispatch (readable (literal "GET / HTTP/1.0\r\n\r\n") [.room 10]),
      .wait true, .dispatch (writable [.room 100]), .wait false]
    ⟨0, 7, rfl⟩ (Machine.follows_anyStep _ _) (by decide +kernel)
  have honce := (closed_once_and_final plainService w hreach).1
  rw [if_pos hclosing] at honce
  exact ⟨w, hclosing, honce⟩

end Watched

/-! ## Buffer and mask -/

/-- The calls of `write` that the loop of `onWrite` makes from an offset, with
so many bytes remaining: each as the offset and the length it passes. -/
inductive WriteCall : ℕ → ℕ → List WriteAnswer → ℕ → ℕ → Prop where
  | first {sent remaining : ℕ} {answers : List WriteAnswer} (hremaining : remaining ≠ 0) :
      WriteCall sent remaining answers sent remaining
  | later {sent remaining count offset length : ℕ} {answer : WriteAnswer}
      {answers : List WriteAnswer} (hremaining : remaining ≠ 0)
      (hresult : answer.result remaining = .accepted count) (hcount : 0 < count)
      (hcall : WriteCall (sent + count) (remaining - count) answers offset length) :
      WriteCall sent remaining (answer :: answers) offset length

theorem count_le_of_result {answer : WriteAnswer} {remaining count : ℕ}
    (hresult : answer.result remaining = .accepted count) : count ≤ remaining := by
  cases answer with
  | room bytes =>
      cases hresult
      exact min_le_right _ _
  | fail errno => cases hresult

/-- The offset and what remains always add up to the same end. -/
theorem WriteCall.in_range {sent remaining offset length : ℕ} {answers : List WriteAnswer}
    (hcall : WriteCall sent remaining answers offset length) :
    0 < length ∧ offset + length = sent + remaining := by
  induction hcall with
  | first hremaining => exact ⟨Nat.pos_of_ne_zero hremaining, rfl⟩
  | later hremaining hresult hcount hcall ih =>
      have hle := count_le_of_result hresult
      exact ⟨ih.1, by omega⟩

namespace Session

/-- The effects that were added, if they are calls of `write`, are calls in range. -/
def WritesWithin (s t : Session) (remaining : ℕ) (answers : List WriteAnswer) : Prop :=
  ∃ effects, t.log = s.log ++ effects ∧ ∀ fd data result, .write fd data result ∈ effects →
    fd = s.fd ∧ ∃ offset length, WriteCall s.conn.writeSent remaining answers offset length ∧
      data = (s.conn.writeBuf.drop offset).take length

/-- More effects, none of which is a call of `write`. -/
def AddsNoWrite (s t : Session) : Prop :=
  ∃ effects, t.log = s.log ++ effects ∧ ∀ fd data result, .write fd data result ∉ effects

theorem addsNoWrite_onChannel (s : Session) (op : Channel → Channel × List EpollCtl) :
    AddsNoWrite s (s.onChannel op) :=
  ⟨_, rfl, by simp⟩

theorem AddsNoWrite.trans {s t u : Session} (hst : AddsNoWrite s t) (htu : AddsNoWrite t u) :
    AddsNoWrite s u := by
  obtain ⟨first, hfirst, hnone⟩ := hst
  obtain ⟨second, hsecond, hnone'⟩ := htu
  refine ⟨first ++ second, by rw [hsecond, hfirst, List.append_assoc], ?_⟩
  intro fd data result hmem
  exact (List.mem_append.mp hmem).elim (hnone fd data result) (hnone' fd data result)

theorem addsNoWrite_removeConnection (s : Session) : AddsNoWrite s s.removeConnection := by
  unfold removeConnection
  split
  · exact ⟨[], (List.append_nil _).symm, by simp⟩
  · have hdisable := addsNoWrite_onChannel { s with conn.closing := true } Channel.disableAll
    exact hdisable.trans ⟨[.close s.fd, .queueErase s.fd], by simp [emit], by simp⟩

variable {s : Session}

theorem WritesWithin.append {t u : Session} {remaining : ℕ} {answers : List WriteAnswer}
    (hwithin : WritesWithin s t remaining answers) (hadds : AddsNoWrite t u) :
    WritesWithin s u remaining answers := by
  obtain ⟨effects, hlog, hcalls⟩ := hwithin
  obtain ⟨more, hmore, hnone⟩ := hadds
  refine ⟨effects ++ more, by rw [hmore, hlog, List.append_assoc], ?_⟩
  intro fd data result hmem
  rcases List.mem_append.mp hmem with hcall | hother
  · exact hcalls fd data result hcall
  · exact absurd hother (hnone fd data result)

/-- One call of `write` for all that remains. -/
theorem writesWithin_emit {remaining : ℕ} (hremaining : remaining ≠ 0)
    (answers : List WriteAnswer) (result : WriteResult) :
    WritesWithin s (s.emit (.write s.fd
      ((s.conn.writeBuf.drop s.conn.writeSent).take remaining) result)) remaining answers := by
  refine ⟨_, rfl, ?_⟩
  intro fd data result' hmem
  cases List.mem_singleton.mp hmem
  exact ⟨rfl, _, _, .first hremaining, rfl⟩

/-- The loop of `onWrite` makes its calls in range.  The induction is on the
answers of the kernel. -/
theorem writesWithin_writeLoop (s : Session) (remaining : ℕ) (answers : List WriteAnswer) :
    WritesWithin s (s.writeLoop remaining answers).2 remaining answers := by
  have hidle (answers : List WriteAnswer) : WritesWithin s s remaining answers :=
    ⟨[], (List.append_nil _).symm, by simp⟩
  induction answers generalizing s remaining with
  | nil =>
      by_cases hremaining : remaining = 0
      · simpa [writeLoop, hremaining] using hidle []
      · simpa [writeLoop, hremaining] using writesWithin_emit hremaining [] _
  | cons answer answers ih =>
      by_cases hremaining : remaining = 0
      · simpa [writeLoop, hremaining] using hidle (answer :: answers)
      · have hemit := writesWithin_emit (s := s) hremaining (answer :: answers)
          (answer.result remaining)
        rw [writeLoop, if_neg hremaining]
        cases hresult : answer.result remaining with
        | accepted count =>
            rw [hresult] at hemit
            by_cases hcount : 0 < count
            · let w : Effect := .write s.fd
                ((s.conn.writeBuf.drop s.conn.writeSent).take remaining) (.accepted count)
              let next : Session :=
                { s.emit w with conn.writeSent := s.conn.writeSent + count }
              obtain ⟨effects, hlog, hcalls⟩ := ih next (remaining - count)
                fun answers => ⟨[], (List.append_nil _).symm, by simp⟩
              simp only [hcount, if_true]
              refine ⟨w :: effects, ?_, ?_⟩
              · rw [hlog]
                simp [next, emit]
              · intro fd data result hmem
                rcases List.mem_cons.mp hmem with hfirst | hlater
                · obtain ⟨rfl, rfl, -⟩ := Effect.write.inj hfirst
                  exact ⟨rfl, _, _, .first hremaining, rfl⟩
                · obtain ⟨hfd, offset, length, hcall, hdata⟩ := hcalls fd data result hlater
                  exact ⟨hfd, offset, length, .later hremaining hresult hcount hcall, hdata⟩
            · simp only [hcount, if_false]
              exact hemit.append (addsNoWrite_removeConnection _)
        | error errno =>
            rw [hresult] at hemit
            dsimp only
            split
            · exact hemit
            · exact hemit.append (addsNoWrite_removeConnection _)

/-- So does `onWrite`. -/
theorem writesWithin_onWrite (s : Session) (d : Dispatch) :
    WritesWithin s (s.onWrite d) (s.conn.writeBuf.length - s.conn.writeSent) d.writes := by
  have hloop := writesWithin_writeLoop s (s.conn.writeBuf.length - s.conn.writeSent) d.writes
  unfold onWrite
  cases hresult : s.writeLoop (s.conn.writeBuf.length - s.conn.writeSent) d.writes with
  | mk done t =>
      rw [hresult] at hloop
      cases done with
      | false => exact hloop
      | true =>
          have hdrained : AddsNoWrite t ({ t with
              conn.writeBuf := [], conn.writeSent := 0 }.onChannel Channel.disableWriting) :=
            addsNoWrite_onChannel { t with conn.writeBuf := [], conn.writeSent := 0 } _
          apply hloop.append
          dsimp only
          split
          · exact hdrained.trans ⟨[.reset], rfl, by simp⟩
          · exact hdrained.trans (addsNoWrite_removeConnection _)

/-- **Buffer and mask agree.** In every state between two handlers, whatever is
read, written and reported, an open connection has sent no more than it has
buffered, asks for `EPOLLIN`, and asks for `EPOLLOUT` exactly while bytes are
unsent.  So the subtraction in `onWrite` does not underflow, and every call of
`write` in its loop gets a range that ends where the buffer ends. -/
theorem buffer_and_mask_agree (service : Service) (w : Watched)
    (hreach : (watched service).Reachable w) (hopen : w.session.conn.closing = false) :
    w.session.conn.writeSent ≤ w.session.conn.writeBuf.length ∧
      w.session.conn.channel.events.has EPOLLIN ∧
      (w.session.conn.channel.events.has EPOLLOUT ↔
        w.session.conn.writeSent < w.session.conn.writeBuf.length) ∧
      ∀ d, ∃ effects, (w.session.onWrite d).log = w.session.log ++ effects ∧
        ∀ fd data result, .write fd data result ∈ effects → ∃ offset length,
          WriteCall w.session.conn.writeSent
            (w.session.conn.writeBuf.length - w.session.conn.writeSent) d.writes offset length ∧
          data = (w.session.conn.writeBuf.drop offset).take length ∧ 0 < length ∧
          offset + length = w.session.conn.writeBuf.length := by
  have hlive : w.session.conn.Live := by
    cases Watched.standing_of_reachable hreach with
    | served hlive => exact hlive
    | ended _ hclosed => exact absurd (hopen.symm.trans hclosed.closing) Bool.false_ne_true
  refine ⟨hlive.sent_le, ?_, ?_, ?_⟩
  · rw [hlive.events]
    split <;> decide
  · rw [hlive.events]
    by_cases hunsent : w.session.conn.writeSent < w.session.conn.writeBuf.length
    · simp only [hunsent, if_true, iff_true]
      decide
    · simp only [hunsent, if_false, iff_false]
      decide
  · intro d
    obtain ⟨effects, hlog, hcalls⟩ := writesWithin_onWrite w.session d
    refine ⟨effects, hlog, ?_⟩
    intro fd data result hmem
    obtain ⟨-, offset, length, hcall, hdata⟩ := hcalls fd data result hmem
    have hrange := hcall.in_range
    have hle := hlive.sent_le
    exact ⟨offset, length, hcall, hdata, hrange.1, by omega⟩

/-- A connection with a part of its response unsent. -/
theorem buffer_and_mask_agree_part :
    ∃ w : Watched, w.session.conn.writeSent = 20 ∧
      w.session.conn.writeSent ≤ w.session.conn.writeBuf.length ∧
      w.session.conn.channel.events.has EPOLLIN := by
  obtain ⟨w, hreach, hopen, hsent⟩ := Machine.exists_reachable_of_run
    (M := watched plainService) (s := ⟨.created 0 7, false⟩)
    (P := fun w => w.session.conn.closing = false ∧ w.session.conn.writeSent = 20)
    Machine.anyStep
    [.wait true, .dispatch (readable (literal "GET / HTTP/1.1\r\n\r\n") [.room 10]),
      .wait true, .dispatch (writable [.room 20, .fail EAGAIN])]
    ⟨0, 7, rfl⟩ (Machine.follows_anyStep _ _) (by decide +kernel)
  have hagree := buffer_and_mask_agree plainService w hreach hopen
  exact ⟨w, hsent, hagree.1, hagree.2.1⟩

end Session

end EpollHttpServer.Server
