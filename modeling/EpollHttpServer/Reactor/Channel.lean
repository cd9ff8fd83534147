/-
# Channels and their epoll registration

A `Channel` caches the event mask of one file descriptor and whether the
descriptor is in the epoll set.  Every change of the mask goes through
`EventLoop::updateChannel`, which turns it into at most one `epoll_ctl` call.
-/

import Mathlib.Data.UInt
import Mathlib.Tactic.Tauto

namespace EpollHttpServer.Reactor

/-- A bit mask of epoll events. -/
abbrev Events : Type := UInt32

def EPOLLIN : Events := 0x001
def EPOLLOUT : Events := 0x004
def EPOLLERR : Events := 0x008
def EPOLLHUP : Events := 0x010
def EPOLLRDHUP : Events := 0x2000

/-- The masks overlap. -/
def Events.has (mask bits : Events) : Prop :=
  mask &&& bits ≠ 0

instance (mask bits : Events) : Decidable (mask.has bits) :=
  inferInstanceAs (Decidable (_ ≠ _))

theorem Events.has_or (mask first second : Events) :
    mask.has (first ||| second) ↔ mask.has first ∨ mask.has second := by
  have hdistrib : mask &&& (first ||| second) = (mask &&& first) ||| (mask &&& second) :=
    UInt32.eq_of_toBitVec_eq BitVec.and_or_distrib_left
  unfold Events.has
  rw [hdistrib, Ne, UInt32.or_eq_zero_iff]
  tauto

/-- A mask within the allowed bits has none of the others. -/
theorem Events.not_has_of_allowed {mask allowed bits : Events} (hmask : mask &&& ~~~allowed = 0)
    (hbits : bits &&& ~~~allowed = bits) : ¬ mask.has bits := by
  intro hhas
  apply hhas
  calc mask &&& bits
      = (mask &&& ~~~allowed) &&& bits := by
        rw [UInt32.and_assoc, UInt32.and_comm (~~~allowed), hbits]
    _ = 0 := by rw [hmask, UInt32.zero_and]

/-- The calls of `epoll_ctl`, with the mask where one is passed. -/
inductive EpollCtl where
  | add (events : Events)
  | mod (events : Events)
  | del
  deriving DecidableEq, Repr

/-- The callbacks of a channel, in no particular order. -/
inductive Callback where
  | read
  | write
  | close
  | error
  deriving DecidableEq, Repr

structure Channel where
  fd : ℕ
  events : Events
  revents : Events
  addedToEpoll : Bool
  /-- The callbacks that have been set. -/
  callbacks : List Callback
  deriving DecidableEq, Repr

namespace Channel

/-- A channel as its constructor leaves it: no events, no callbacks. -/
def create (fd : ℕ) : Channel where
  fd := fd
  events := 0
  revents := 0
  addedToEpoll := false
  callbacks := []

/-- The callback that `handleEvent` invokes.  Writing goes first, and a bit
whose callback is not set is passed over. -/
def selected (ch : Channel) : Option Callback :=
  if ch.revents.has EPOLLOUT ∧ .write ∈ ch.callbacks then some .write
  else if ch.revents.has EPOLLIN ∧ .read ∈ ch.callbacks then some .read
  else if ch.revents.has (EPOLLHUP ||| EPOLLRDHUP) ∧ .close ∈ ch.callbacks then some .close
  else if ch.revents.has EPOLLERR ∧ .error ∈ ch.callbacks then some .error
  else none

theorem has_of_selected_write {ch : Channel} (hselected : ch.selected = some .write) :
    ch.revents.has EPOLLOUT := by
  unfold selected at hselected
  split at hselected
  · next hwritable => exact hwritable.1
  · split at hselected
    · cases hselected
    · split at hselected
      · cases hselected
      · split at hselected <;> cases hselected

theorem has_of_selected_close {ch : Channel} (hselected : ch.selected = some .close) :
    ch.revents.has (EPOLLHUP ||| EPOLLRDHUP) := by
  unfold selected at hselected
  split at hselected
  · cases hselected
  · split at hselected
    · cases hselected
    · split at hselected
      · next hclosed => exact hclosed.1
      · split at hselected <;> cases hselected

/-- `EventLoop::updateChannel`: bring the epoll set in line with the mask. -/
def updateChannel (ch : Channel) : Channel × List EpollCtl :=
  if ch.events = 0 then
    if ch.addedToEpoll then ({ ch with addedToEpoll := false }, [.del]) else (ch, [])
  else if ch.addedToEpoll then (ch, [.mod ch.events])
  else ({ ch with addedToEpoll := true }, [.add ch.events])

def enableReading (ch : Channel) : Channel × List EpollCtl :=
  updateChannel { ch with events := ch.events ||| EPOLLIN }

def enableWriting (ch : Channel) : Channel × List EpollCtl :=
  updateChannel { ch with events := ch.events ||| EPOLLOUT }

def disableReading (ch : Channel) : Channel × List EpollCtl :=
  updateChannel { ch with events := ch.events &&& ~~~EPOLLIN }

def disableWriting (ch : Channel) : Channel × List EpollCtl :=
  updateChannel { ch with events := ch.events &&& ~~~EPOLLOUT }

def disableAll (ch : Channel) : Channel × List EpollCtl :=
  updateChannel { ch with events := 0 }

def setRevents (ch : Channel) (revents : Events) : Channel :=
  { ch with revents := revents }

/-- What epoll reports for a registration: bits that were asked for, and
errors and hang-ups, which are always reported. -/
def mayReport (ch : Channel) (revents : Events) : Prop :=
  ch.addedToEpoll = true ∧ revents &&& ~~~(ch.events ||| EPOLLERR ||| EPOLLHUP) = 0

instance (ch : Channel) (revents : Events) : Decidable (ch.mayReport revents) :=
  inferInstanceAs (Decidable (_ ∧ _))

end Channel

end EpollHttpServer.Reactor
