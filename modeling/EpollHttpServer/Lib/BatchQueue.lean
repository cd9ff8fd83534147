/-
# Queues that are drained in batches

Items are pushed into an inbox.  A consumer swaps the inbox with its batch and
then starts the items of the batch one by one, while others go on pushing.  As
long as a swap waits for the end of the batch, the items started, the rest of
the batch and the inbox are together what was pushed, in order.
-/

import Mathlib.Data.List.Basic

namespace EpollHttpServer.Lib

universe u

structure BatchQueue (α : Type u) where
  /-- Pushed and not yet taken. -/
  inbox : List α
  /-- Taken and not yet started. -/
  batch : List α
  /-- Started, oldest first. -/
  started : List α
  deriving DecidableEq

namespace BatchQueue

variable {α : Type u}

def empty : BatchQueue α where
  inbox := []
  batch := []
  started := []

def push (q : BatchQueue α) (a : α) : BatchQueue α :=
  { q with inbox := q.inbox ++ [a] }

/-- Exchange the inbox and the batch. -/
def swap (q : BatchQueue α) : BatchQueue α :=
  { q with inbox := q.batch, batch := q.inbox }

/-- Start the next item of the batch, if there is one. -/
def next (q : BatchQueue α) : Option (α × BatchQueue α) :=
  match q.batch with
  | [] => none
  | a :: rest => some (a, { q with batch := rest, started := q.started ++ [a] })

/-- Everything that was pushed, oldest first. -/
def contents (q : BatchQueue α) : List α :=
  q.started ++ q.batch ++ q.inbox

/-- Everything that was pushed and not started, in the order in which it will be. -/
def pending (q : BatchQueue α) : List α :=
  q.batch ++ q.inbox

/-- How many items have left the inbox. -/
def taken (q : BatchQueue α) : ℕ :=
  q.started.length + q.batch.length

theorem contents_push (q : BatchQueue α) (a : α) : (q.push a).contents = q.contents ++ [a] := by
  simp [contents, push]

theorem length_contents (q : BatchQueue α) : q.contents.length = q.taken + q.inbox.length := by
  simp [contents, taken, Nat.add_assoc]

/-- A swap at the end of a batch keeps every item and its place. -/
theorem contents_swap {q : BatchQueue α} (hdone : q.batch = []) : q.swap.contents = q.contents := by
  simp [contents, swap, hdone]

theorem inbox_swap {q : BatchQueue α} (hdone : q.batch = []) : q.swap.inbox = [] := hdone

theorem next_eq_some {q q' : BatchQueue α} {a : α} (hnext : q.next = some (a, q')) :
    q.batch = a :: q'.batch ∧ q'.started = q.started ++ [a] ∧ q'.inbox = q.inbox := by
  unfold next at hnext
  cases hbatch : q.batch with
  | nil => simp [hbatch] at hnext
  | cons b rest =>
      simp only [hbatch, Option.some.injEq, Prod.mk.injEq] at hnext
      obtain ⟨rfl, rfl⟩ := hnext
      exact ⟨rfl, rfl, rfl⟩

theorem next_eq_none {q : BatchQueue α} (hnext : q.next = none) : q.batch = [] := by
  unfold next at hnext
  cases hbatch : q.batch with
  | nil => rfl
  | cons b rest => simp [hbatch] at hnext

theorem contents_next {q q' : BatchQueue α} {a : α} (hnext : q.next = some (a, q')) :
    q'.contents = q.contents := by
  obtain ⟨hbatch, hstarted, hinbox⟩ := next_eq_some hnext
  simp [contents, hbatch, hstarted, hinbox]

theorem pending_push (q : BatchQueue α) (a : α) : (q.push a).pending = q.pending ++ [a] :=
  (List.append_assoc ..).symm

/-- A swap at the end of a batch changes nothing about what is to be started. -/
theorem pending_swap {q : BatchQueue α} (hdone : q.batch = []) : q.swap.pending = q.pending := by
  simp [pending, swap, hdone]

theorem pending_next {q q' : BatchQueue α} {a : α} (hnext : q.next = some (a, q')) :
    q.pending = a :: q'.pending := by
  obtain ⟨hbatch, _, hinbox⟩ := next_eq_some hnext
  rw [pending, pending, hbatch, hinbox, List.cons_append]

theorem taken_next {q q' : BatchQueue α} {a : α} (hnext : q.next = some (a, q')) :
    q'.taken = q.taken := by
  obtain ⟨hbatch, hstarted, _⟩ := next_eq_some hnext
  simp only [taken, hbatch, hstarted, List.length_append, List.length_cons, List.length_nil]
  omega

/-- Every item that has not left the inbox is in it. -/
theorem inbox_eq_nil_of_taken {q : BatchQueue α} (hall : q.contents.length ≤ q.taken) :
    q.inbox = [] := by
  rw [length_contents] at hall
  exact List.length_eq_zero_iff.mp (by omega)

end BatchQueue

end EpollHttpServer.Lib
