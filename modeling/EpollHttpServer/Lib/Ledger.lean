/-
# Ledgers of one stream

Some entries of a log promise items of a stream, others deliver items, and most
do neither.  A log is in order when at every moment what has been delivered is
the beginning of what has been promised: nothing is lost, repeated or
overtaken.  To extend a log it is enough to know what it still owes.
-/

import Mathlib.Data.List.Basic

namespace EpollHttpServer.Lib

universe u v

/-- What the entries of a log promise and deliver. -/
structure Ledger (ε : Type u) (α : Type v) where
  promised : ε → List α
  delivered : ε → List α

namespace Ledger

variable {ε : Type u} {α : Type v} (L : Ledger ε α)

/-- Everything that a log promises, in order. -/
def allPromised (log : List ε) : List α :=
  log.flatMap L.promised

/-- Everything that a log delivers, in order. -/
def allDelivered (log : List ε) : List α :=
  log.flatMap L.delivered

/-- At every moment the delivered items are the first of the promised ones. -/
def InOrder (log : List ε) : Prop :=
  ∀ moment, moment <+: log → L.allDelivered moment <+: L.allPromised moment

/-- The log is in order, and `rest` is what it has yet to deliver. -/
structure Owes (log : List ε) (rest : List α) : Prop where
  inOrder : L.InOrder log
  balance : L.allDelivered log ++ rest = L.allPromised log

variable {L}

theorem allPromised_append (first second : List ε) :
    L.allPromised (first ++ second) = L.allPromised first ++ L.allPromised second :=
  List.flatMap_append

theorem allDelivered_append (first second : List ε) :
    L.allDelivered (first ++ second) = L.allDelivered first ++ L.allDelivered second :=
  List.flatMap_append

theorem owes_nil : L.Owes [] [] where
  inOrder := by
    intro moment hmoment
    rw [List.prefix_nil.mp hmoment]
    exact List.prefix_refl _
  balance := rfl

/-- A moment of an extended log lies in the old log or in the extension. -/
theorem moment_cases {moment log entries : List ε} (hmoment : moment <+: log ++ entries) :
    moment <+: log ∨ ∃ later, later <+: entries ∧ moment = log ++ later := by
  rcases List.prefix_or_prefix_of_prefix hmoment (List.prefix_append log entries) with
    hearly | ⟨later, rfl⟩
  · exact .inl hearly
  · exact .inr ⟨later, (List.prefix_append_right_inj log).mp hmoment, rfl⟩

variable {log entries : List ε} {rest : List α}

/-- Entries that promise nothing and deliver the first of what is owed keep the
log in order. -/
theorem Owes.inOrder_append (howes : L.Owes log rest) (hpromised : L.allPromised entries = [])
    (hdelivered : L.allDelivered entries <+: rest) : L.InOrder (log ++ entries) := by
  intro moment hmoment
  rcases moment_cases hmoment with hearly | ⟨later, ⟨remaining, rfl⟩, rfl⟩
  · exact howes.inOrder moment hearly
  · rw [allPromised_append, List.append_eq_nil_iff] at hpromised
    rw [allDelivered_append] at hdelivered
    rw [allPromised_append, allDelivered_append, hpromised.1, List.append_nil, ← howes.balance]
    have hlater : L.allDelivered later <+: rest := (List.prefix_append ..).trans hdelivered
    exact (List.prefix_append_right_inj _).mpr hlater

/-- Deliver the first of what is owed. -/
theorem Owes.deliver {rest' : List α} (howes : L.Owes log rest)
    (hpromised : L.allPromised entries = []) (hdelivered : L.allDelivered entries ++ rest' = rest) :
    L.Owes (log ++ entries) rest' where
  inOrder := howes.inOrder_append hpromised ⟨rest', hdelivered⟩
  balance := by
    rw [allDelivered_append, allPromised_append, hpromised, List.append_nil, List.append_assoc,
      hdelivered, howes.balance]

/-- Entries that neither promise nor deliver change nothing. -/
theorem Owes.silent (howes : L.Owes log rest) (hpromised : L.allPromised entries = [])
    (hdelivered : L.allDelivered entries = []) : L.Owes (log ++ entries) rest :=
  howes.deliver hpromised (by rw [hdelivered, List.nil_append])

/-- A promise is owed behind everything that was owed before. -/
theorem Owes.promise {e : ε} (howes : L.Owes log rest) (hdelivered : L.delivered e = []) :
    L.Owes (log ++ [e]) (rest ++ L.promised e) := by
  have hpaid : L.allDelivered (log ++ [e]) = L.allDelivered log := by
    rw [allDelivered_append]
    show _ ++ (L.delivered e ++ []) = _
    rw [hdelivered, List.append_nil, List.append_nil]
  have howed : L.allPromised (log ++ [e]) = L.allPromised log ++ L.promised e := by
    rw [allPromised_append]
    show _ ++ (L.promised e ++ []) = _
    rw [List.append_nil]
  have hbalance : L.allDelivered (log ++ [e]) ++ (rest ++ L.promised e) =
      L.allPromised (log ++ [e]) := by
    rw [hpaid, howed, ← howes.balance, List.append_assoc]
  refine ⟨fun moment hmoment => ?_, hbalance⟩
  rcases List.prefix_concat_iff.mp hmoment with rfl | hearly
  · exact ⟨_, hbalance⟩
  · exact howes.inOrder moment hearly

end Ledger

end EpollHttpServer.Lib
