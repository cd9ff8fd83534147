/-
# The interest set and its copies

What one event loop waits for is kept three times: as the mask in each
`Channel`, as the flag that says whether the channel has been added, and in the
kernel.  Only `updateChannel` writes the second and the third copy, and it
decides by the flag which call of `epoll_ctl` it makes.  Here any number of
channels is constructed, operated and closed in any order; a closed channel
stays allocated while its descriptor number is already in use by another one.

The kernel refuses a call whose precondition is violated, and nothing in the
program would notice.
-/

import Mathlib.Logic.Function.Basic
import EpollHttpServer.Lib.Machine
import EpollHttpServer.Reactor.Channel

namespace EpollHttpServer.Reactor

open EpollHttpServer.Lib

/-- Which `Channel` object it is, the pointer that epoll stores. -/
abbrev ChannelId : Type := ℕ

/-- The kernel's set: the mask and the channel registered for each descriptor. -/
abbrev InterestSet : Type := ℕ → Option (Events × ChannelId)

/-- The precondition of a call: a new descriptor is added, a present one is
modified or deleted. -/
def EpollCtl.Allowed (interest : InterestSet) (fd : ℕ) : EpollCtl → Prop
  | .add _ => interest fd = none
  | .mod _ => interest fd ≠ none
  | .del => interest fd ≠ none

instance (interest : InterestSet) (fd : ℕ) (ctl : EpollCtl) :
    Decidable (ctl.Allowed interest fd) := by
  cases ctl <;> unfold EpollCtl.Allowed <;> infer_instance

/-- What a call that succeeds registers for the descriptor. -/
def EpollCtl.entry (id : ChannelId) : EpollCtl → Option (Events × ChannelId)
  | .add events => some (events, id)
  | .mod events => some (events, id)
  | .del => none

/-- The public operations of a channel on its mask. -/
inductive ChannelOp where
  | enableReading
  | enableWriting
  | disableReading
  | disableWriting
  | disableAll
  deriving DecidableEq, Repr

def ChannelOp.run : ChannelOp → Channel → Channel × List EpollCtl
  | .enableReading => Channel.enableReading
  | .enableWriting => Channel.enableWriting
  | .disableReading => Channel.disableReading
  | .disableWriting => Channel.disableWriting
  | .disableAll => Channel.disableAll

/-- What an operation makes of the mask. -/
def ChannelOp.mask : ChannelOp → Events → Events
  | .enableReading, events => events ||| EPOLLIN
  | .enableWriting, events => events ||| EPOLLOUT
  | .disableReading, events => events &&& ~~~EPOLLIN
  | .disableWriting, events => events &&& ~~~EPOLLOUT
  | .disableAll, _ => 0

/-- A channel object, and whether its descriptor has been closed. -/
structure ChannelObject where
  channel : Channel
  closed : Bool
  deriving DecidableEq

/-- One event loop with the channels that have been made for it. -/
structure Poller where
  channels : ChannelId → Option ChannelObject
  /-- The objects made so far. -/
  count : ℕ
  interest : InterestSet
  /-- The calls of `epoll_ctl` that the kernel has refused. -/
  refused : ℕ

inductive PollerAction where
  | /-- A channel is constructed on a descriptor. -/
    construct (fd : ℕ)
  | operate (id : ChannelId) (op : ChannelOp)
  | /-- The descriptor of a channel that asks for nothing is closed. -/
    close (id : ChannelId)
  deriving DecidableEq

namespace Poller

/-- A loop without channels. -/
def empty : Poller where
  channels _ := none
  count := 0
  interest _ := none
  refused := 0

/-- A channel uses a descriptor until the descriptor is closed. -/
def Uses (p : Poller) (id : ChannelId) (fd : ℕ) : Prop :=
  ∃ ch, p.channels id = some ⟨ch, false⟩ ∧ ch.fd = fd

instance (p : Poller) (id : ChannelId) (fd : ℕ) : Decidable (p.Uses id fd) :=
  match hobject : p.channels id with
  | none => isFalse (by
      rintro ⟨ch, hch, -⟩
      rw [hobject] at hch
      cases hch)
  | some ⟨ch, closed⟩ => decidable_of_iff (closed = false ∧ ch.fd = fd) (by
      constructor
      · rintro ⟨rfl, hfd⟩
        exact ⟨ch, hobject, hfd⟩
      · rintro ⟨ch', hch, hfd⟩
        rw [hobject] at hch
        cases hch
        exact ⟨rfl, hfd⟩)

/-- A call of `epoll_ctl` for a channel. -/
def epollCtl (id : ChannelId) (fd : ℕ) (p : Poller) (ctl : EpollCtl) : Poller :=
  if ctl.Allowed p.interest fd then
    { p with interest := Function.update p.interest fd (ctl.entry id) }
  else { p with refused := p.refused + 1 }

def operate (p : Poller) (id : ChannelId) (ch : Channel) (op : ChannelOp) : Poller :=
  let p' := { p with channels := Function.update p.channels id (some ⟨(op.run ch).1, false⟩) }
  (op.run ch).2.foldl (epollCtl id ch.fd) p'

/-- What is done to the channels of one loop.  No two channels that are in use
share a descriptor, a channel is not operated after its descriptor has been
closed, and closing takes the descriptor out of the set. -/
def pollers : Machine Poller PollerAction where
  init p := p = empty
  step p
    | .construct fd =>
      if ∀ id < p.count, ¬ p.Uses id fd then
        some { p with
          channels := Function.update p.channels p.count (some ⟨Channel.create fd, false⟩)
          count := p.count + 1 }
      else none
    | .operate id op =>
      match p.channels id with
      | some ⟨ch, false⟩ => some (p.operate id ch op)
      | _ => none
    | .close id =>
      match p.channels id with
      | some ⟨ch, false⟩ =>
        if ch.events = 0 then
          some { p with
            channels := Function.update p.channels id (some ⟨ch, true⟩)
            interest := Function.update p.interest ch.fd none }
        else none
      | _ => none

end Poller

/-! ## One operation -/

theorem ChannelOp.run_eq (op : ChannelOp) (ch : Channel) :
    op.run ch = Channel.updateChannel { ch with events := op.mask ch.events } := by
  cases op <;> rfl

/-- The channel after an update: the flag says whether it asks for anything. -/
theorem Channel.updateChannel_fst (ch : Channel) :
    ch.updateChannel.1 = { ch with addedToEpoll := decide (ch.events ≠ 0) } := by
  obtain ⟨fd, events, revents, addedToEpoll, callbacks⟩ := ch
  by_cases hevents : events = 0
  · cases addedToEpoll <;> simp [updateChannel, hevents]
  · cases addedToEpoll <;> simp [updateChannel, hevents]

namespace Poller

/-- What the three copies of the interest set have to do with each other. -/
structure Mirrors (p : Poller) : Prop where
  /-- The flag of a channel says whether it asks for anything. -/
  flags : ∀ id object, p.channels id = some object →
    object.channel.addedToEpoll = decide (object.channel.events ≠ 0)
  /-- A closed channel asks for nothing. -/
  retired : ∀ id ch, p.channels id = some ⟨ch, true⟩ → ch.events = 0
  /-- No two channels use one descriptor. -/
  unique : ∀ id id' fd, p.Uses id fd → p.Uses id' fd → id = id'
  /-- The kernel has what a channel in use asks for. -/
  entries : ∀ id ch, p.channels id = some ⟨ch, false⟩ →
    p.interest ch.fd = if ch.events = 0 then none else some (ch.events, id)
  /-- The kernel has nothing else. -/
  others : ∀ fd, (∀ id, ¬ p.Uses id fd) → p.interest fd = none
  made : ∀ id, p.count ≤ id → p.channels id = none
  accepted : p.refused = 0

theorem mirrors_empty : Mirrors empty where
  flags _ _ hobject := by cases hobject
  retired _ _ hobject := by cases hobject
  unique _ _ _ huses := by
    obtain ⟨ch, hobject, -⟩ := huses
    cases hobject
  entries _ _ hobject := by cases hobject
  others _ _ := rfl
  made _ _ := rfl
  accepted := rfl

variable {p : Poller} {id : ChannelId} {ch : Channel}

/-- An operation on a channel in use, when the copies agree: every call is
allowed, and afterwards the kernel has the new mask. -/
theorem operate_eq (hmirrors : p.Mirrors) (hobject : p.channels id = some ⟨ch, false⟩)
    (op : ChannelOp) :
    p.operate id ch op =
      { p with
        channels := Function.update p.channels id (some ⟨{ ch with
          events := op.mask ch.events
          addedToEpoll := decide (op.mask ch.events ≠ 0) }, false⟩)
        interest := Function.update p.interest ch.fd
          (if op.mask ch.events = 0 then none else some (op.mask ch.events, id)) } := by
  have hflag := hmirrors.flags id _ hobject
  have hentry := hmirrors.entries id ch hobject
  dsimp only at hflag
  have hfst := Channel.updateChannel_fst { ch with events := op.mask ch.events }
  unfold operate
  rw [op.run_eq, hfst]
  by_cases hbefore : ch.events = 0
  · rw [if_pos hbefore] at hentry
    have hadded : ch.addedToEpoll = false := by simpa [hbefore] using hflag
    by_cases hafter : op.mask ch.events = 0
    · simp [Channel.updateChannel, hafter, hadded, ← hentry]
    · simp [Channel.updateChannel, hafter, hadded, epollCtl, EpollCtl.Allowed, EpollCtl.entry,
        hentry]
  · rw [if_neg hbefore] at hentry
    have hadded : ch.addedToEpoll = true := by simpa [hbefore] using hflag
    by_cases hafter : op.mask ch.events = 0
    · simp [Channel.updateChannel, hafter, hadded, epollCtl, EpollCtl.Allowed, EpollCtl.entry,
        hentry]
    · simp [Channel.updateChannel, hafter, hadded, epollCtl, EpollCtl.Allowed, EpollCtl.entry,
        hentry]

/-- The objects after one of them has been replaced. -/
theorem update_cases {channels : ChannelId → Option ChannelObject} {other : ChannelId}
    {new object : ChannelObject}
    (hother : Function.update channels id (some new) other = some object) :
    (other = id ∧ object = new) ∨ (other ≠ id ∧ channels other = some object) := by
  by_cases hid : other = id
  · subst hid
    rw [Function.update_self] at hother
    exact .inl ⟨rfl, (Option.some.inj hother).symm⟩
  · rw [Function.update_of_ne hid] at hother
    exact .inr ⟨hid, hother⟩

/-- Objects that have not been made are not there after a replacement either. -/
theorem Mirrors.made_update (hmirrors : p.Mirrors) {object : ChannelObject}
    (hobject : p.channels id = some object) (new : Option ChannelObject) (other : ChannelId)
    (hle : p.count ≤ other) : Function.update p.channels id new other = none := by
  have hid : other ≠ id := by
    rintro rfl
    rw [hmirrors.made other hle] at hobject
    cases hobject
  rw [Function.update_of_ne hid]
  exact hmirrors.made other hle

theorem Mirrors.flags_update (hmirrors : p.Mirrors) {new : ChannelObject}
    (hnew : new.channel.addedToEpoll = decide (new.channel.events ≠ 0)) (other : ChannelId)
    (object : ChannelObject)
    (hother : Function.update p.channels id (some new) other = some object) :
    object.channel.addedToEpoll = decide (object.channel.events ≠ 0) := by
  rcases update_cases hother with ⟨-, rfl⟩ | ⟨-, hold⟩
  · exact hnew
  · exact hmirrors.flags other object hold

theorem Mirrors.retired_update (hmirrors : p.Mirrors) {new : ChannelObject}
    (hnew : new.closed = true → new.channel.events = 0) (other : ChannelId) (retired : Channel)
    (hother : Function.update p.channels id (some new) other = some ⟨retired, true⟩) :
    retired.events = 0 := by
  rcases update_cases hother with ⟨-, rfl⟩ | ⟨-, hold⟩
  · exact hnew rfl
  · exact hmirrors.retired other retired hold

/-- Who uses which descriptor does not depend on masks and flags. -/
theorem uses_update_open {object : Channel} (hfd : object.fd = ch.fd)
    (hobject : p.channels id = some ⟨ch, false⟩) (p' : Poller)
    (hp' : p'.channels = Function.update p.channels id (some ⟨object, false⟩))
    (other : ChannelId) (fd : ℕ) : p'.Uses other fd ↔ p.Uses other fd := by
  unfold Uses
  rw [hp']
  by_cases hother : other = id
  · subst hother
    simp [hobject, hfd]
  · rw [Function.update_of_ne hother]

theorem Mirrors.operate (hmirrors : p.Mirrors) (hobject : p.channels id = some ⟨ch, false⟩)
    (op : ChannelOp) : (p.operate id ch op).Mirrors := by
  let ch' : Channel := { ch with
    events := op.mask ch.events
    addedToEpoll := decide (op.mask ch.events ≠ 0) }
  have huses : p.Uses id ch.fd := ⟨ch, hobject, rfl⟩
  rw [operate_eq hmirrors hobject]
  have hfd : ch'.fd = ch.fd := rfl
  have hsame := uses_update_open hfd hobject
    { p with
      channels := Function.update p.channels id (some ⟨ch', false⟩)
      interest := Function.update p.interest ch.fd
        (if op.mask ch.events = 0 then none else some (op.mask ch.events, id)) } rfl
  refine ⟨hmirrors.flags_update rfl, hmirrors.retired_update nofun, ?_, ?_, ?_, ?_,
    hmirrors.accepted⟩
  · intro first second fd hfirst hsecond
    exact hmirrors.unique first second fd ((hsame first fd).mp hfirst)
      ((hsame second fd).mp hsecond)
  · intro other open' hother
    rcases update_cases hother with ⟨rfl, hnew⟩ | ⟨hid, hold⟩
    · cases hnew
      exact Function.update_self ..
    · have hfd : open'.fd ≠ ch.fd := fun hfd =>
        hid (hmirrors.unique other id ch.fd ⟨open', hold, hfd⟩ huses)
      show Function.update p.interest ch.fd _ open'.fd = _
      rw [Function.update_of_ne hfd]
      exact hmirrors.entries other open' hold
  · intro fd hnone
    have hfd : fd ≠ ch.fd := by
      rintro rfl
      exact hnone id ((hsame id ch.fd).mpr huses)
    show Function.update p.interest ch.fd _ fd = none
    rw [Function.update_of_ne hfd]
    exact hmirrors.others fd fun other hother => hnone other ((hsame other fd).mpr hother)
  · exact hmirrors.made_update hobject _

/-- A new channel asks for nothing, and its descriptor is not in the set. -/
theorem Mirrors.construct (hmirrors : p.Mirrors) {fd : ℕ}
    (hfree : ∀ id < p.count, ¬ p.Uses id fd) :
    Mirrors { p with
      channels := Function.update p.channels p.count (some ⟨Channel.create fd, false⟩)
      count := p.count + 1 } := by
  have hunused (id : ChannelId) : ¬ p.Uses id fd := by
    by_cases hid : id < p.count
    · exact hfree id hid
    · rintro ⟨ch, hobject, -⟩
      rw [hmirrors.made id (not_lt.mp hid)] at hobject
      cases hobject
  have huses {id : ChannelId} {fd' : ℕ} (hid : Uses { p with
      channels := Function.update p.channels p.count (some ⟨Channel.create fd, false⟩)
      count := p.count + 1 } id fd') : (id = p.count ∧ fd' = fd) ∨ p.Uses id fd' := by
    obtain ⟨ch, hobject, hfd⟩ := hid
    rcases update_cases hobject with ⟨rfl, hnew⟩ | ⟨-, hold⟩
    · cases hnew
      exact .inl ⟨rfl, hfd.symm⟩
    · exact .inr ⟨ch, hold, hfd⟩
  refine ⟨hmirrors.flags_update rfl, hmirrors.retired_update nofun, ?_, ?_, ?_, ?_,
    hmirrors.accepted⟩
  · intro id id' fd' hid hid'
    rcases huses hid with ⟨rfl, rfl⟩ | hold
    · rcases huses hid' with ⟨rfl, -⟩ | hold'
      · rfl
      · exact absurd hold' (hunused id')
    · rcases huses hid' with ⟨rfl, rfl⟩ | hold'
      · exact absurd hold (hunused id)
      · exact hmirrors.unique id id' fd' hold hold'
  · intro id ch hid
    rcases update_cases hid with ⟨rfl, hnew⟩ | ⟨-, hold⟩
    · cases hnew
      exact hmirrors.others fd hunused
    · exact hmirrors.entries id ch hold
  · intro fd' hnone
    apply hmirrors.others
    rintro id ⟨ch, hobject, hfd⟩
    apply hnone id
    have hid : id ≠ p.count := by
      rintro rfl
      rw [hmirrors.made p.count le_rfl] at hobject
      cases hobject
    exact ⟨ch, by rw [← hobject]; exact Function.update_of_ne hid .., hfd⟩
  · intro id hle
    have hid : id ≠ p.count := by
      have hlt : p.count < id := hle
      omega
    show Function.update p.channels p.count _ id = none
    rw [Function.update_of_ne hid]
    exact hmirrors.made id (le_trans (Nat.le_succ _) hle)

/-- A descriptor that is closed after its channel asks for nothing was not in
the set any more. -/
theorem Mirrors.close (hmirrors : p.Mirrors) (hobject : p.channels id = some ⟨ch, false⟩)
    (hevents : ch.events = 0) :
    Mirrors { p with
      channels := Function.update p.channels id (some ⟨ch, true⟩)
      interest := Function.update p.interest ch.fd none } := by
  have hentry := hmirrors.entries id ch hobject
  rw [if_pos hevents] at hentry
  have hinterest : Function.update p.interest ch.fd none = p.interest := by
    rw [← hentry, Function.update_eq_self]
  have huses {other : ChannelId} {fd : ℕ} (hother : Uses { p with
      channels := Function.update p.channels id (some ⟨ch, true⟩)
      interest := Function.update p.interest ch.fd none } other fd) : p.Uses other fd := by
    obtain ⟨ch', hch', hfd⟩ := hother
    rcases update_cases hch' with ⟨-, hnew⟩ | ⟨-, hold⟩
    · cases hnew
    · exact ⟨ch', hold, hfd⟩
  have hflag := hmirrors.flags id ⟨ch, false⟩ hobject
  refine ⟨hmirrors.flags_update hflag, hmirrors.retired_update fun _ => hevents, ?_, ?_, ?_, ?_,
    hmirrors.accepted⟩
  · intro first second fd hfirst hsecond
    exact hmirrors.unique first second fd (huses hfirst) (huses hsecond)
  · intro other ch' hother
    rcases update_cases hother with ⟨-, hnew⟩ | ⟨-, hold⟩
    · cases hnew
    · show Function.update p.interest ch.fd none ch'.fd = _
      rw [hinterest]
      exact hmirrors.entries other ch' hold
  · intro fd hnone
    show Function.update p.interest ch.fd none fd = none
    by_cases hfd : fd = ch.fd
    · rw [hfd, Function.update_self]
    · rw [Function.update_of_ne hfd]
      apply hmirrors.others
      rintro other ⟨ch', hch', hother⟩
      have hid : other ≠ id := by
        rintro rfl
        rw [hobject] at hch'
        cases hch'
        exact hfd hother.symm
      exact hnone other ⟨ch', by rw [← hch']; exact Function.update_of_ne hid .., hother⟩
  · exact hmirrors.made_update hobject _

/-- The step lemma. -/
theorem mirrors_step {a : PollerAction} {p' : Poller} (hmirrors : p.Mirrors)
    (hstep : pollers.step p a = some p') : p'.Mirrors := by
  cases a with
  | construct fd =>
      simp only [pollers, Option.ite_none_right_eq_some, Option.some.injEq] at hstep
      obtain ⟨hfree, rfl⟩ := hstep
      exact hmirrors.construct hfree
  | operate id op =>
      simp only [pollers] at hstep
      split at hstep
      · next ch hobject =>
        cases hstep
        exact hmirrors.operate hobject op
      · cases hstep
  | close id =>
      simp only [pollers] at hstep
      split at hstep
      · next ch hobject =>
        rw [Option.ite_none_right_eq_some] at hstep
        obtain ⟨hevents, hclosed⟩ := hstep
        cases hclosed
        exact hmirrors.close hobject hevents
      · cases hstep

/-- The run lemma. -/
theorem mirrors_of_reachable (hreach : pollers.Reachable p) : p.Mirrors := by
  apply Machine.Reachable.invariant (I := Mirrors) _ _ hreach
  · rintro p rfl
    exact mirrors_empty
  · intro p a p' hmirrors hstep
    exact mirrors_step hmirrors hstep

/-- **The interest set mirrors the channels.** However many channels are
constructed, operated and closed in whatever order, also on descriptor numbers
that are used again: no call of `epoll_ctl` is refused, the kernel's set holds
exactly the channels that ask for something, each with its descriptor and its
mask, and exactly these are flagged as added. -/
theorem interest_set_mirrors_channels (p : Poller) (hreach : pollers.Reachable p) :
    p.refused = 0 ∧
      (∀ fd events id, p.interest fd = some (events, id) ↔
        ∃ object, p.channels id = some object ∧ object.channel.fd = fd ∧
          object.channel.events = events ∧ events ≠ 0) ∧
      ∀ id object, p.channels id = some object →
        (object.channel.addedToEpoll = true ↔ object.channel.events ≠ 0) := by
  have hmirrors := mirrors_of_reachable hreach
  refine ⟨hmirrors.accepted, ?_, ?_⟩
  · intro fd events id
    constructor
    · intro hentry
      have hused : ∃ other, p.Uses other fd := by
        by_contra hnone
        rw [hmirrors.others fd (not_exists.mp hnone)] at hentry
        cases hentry
      obtain ⟨other, ch, hobject, rfl⟩ := hused
      rw [hmirrors.entries other ch hobject] at hentry
      split at hentry
      · cases hentry
      · next hevents =>
        cases hentry
        exact ⟨⟨ch, false⟩, hobject, rfl, rfl, hevents⟩
    · rintro ⟨⟨ch, closed⟩, hobject, rfl, rfl, hevents⟩
      cases closed with
      | true => exact absurd (hmirrors.retired id ch hobject) hevents
      | false =>
          rw [hmirrors.entries id ch hobject]
          exact if_neg hevents
  · intro id object hobject
    rw [hmirrors.flags id object hobject, decide_eq_true_iff]

/-- A descriptor number that a second channel uses while the first one is still
allocated. -/
theorem interest_set_mirrors_reused_fd :
    ∃ p : Poller, p.channels 0 ≠ none ∧ p.interest 5 = some (EPOLLIN, 1) ∧ p.refused = 0 := by
  obtain ⟨p, hreach, hold, hnew⟩ := Machine.exists_reachable_of_run
    (M := pollers) (s := empty)
    (P := fun p => p.channels 0 ≠ none ∧ p.interest 5 = some (EPOLLIN, 1)) Machine.anyStep
    [.construct 5, .operate 0 .enableReading, .operate 0 .enableWriting, .operate 0 .disableAll,
      .close 0, .construct 5, .operate 1 .enableReading]
    rfl (Machine.follows_anyStep _ _) (by decide +kernel)
  exact ⟨p, hold, hnew, (interest_set_mirrors_channels p hreach).1⟩

end Poller

end EpollHttpServer.Reactor
