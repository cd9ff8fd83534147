/-
# Tables of items in a stage

Items go through stages one at a time.  A table that has, under its key, exactly
the items whose stage has a key is inverse to the stages, so that no key is
given to two items; when an item moves, the entry that has to be removed or
made is the only one that changes.  A queue shows the items in certain stages
in the same way, but without keys.
-/

import Mathlib.Logic.Function.Basic
import Mathlib.Data.Option.Basic
import Mathlib.Data.List.Nodup

namespace EpollHttpServer.Lib

universe u v w

variable {ι : Type u} {κ : Type v} {σ : Type w}

/-- The entries of the table are the items whose stage has a key, each under its
key. -/
def Shows (table : κ → Option ι) (key : σ → Option κ) (stages : ι → Option σ) : Prop :=
  ∀ k i, table k = some i ↔ (stages i).bind key = some k

namespace Shows

variable {table : κ → Option ι} {key : σ → Option κ} {stages : ι → Option σ} {i j : ι} {k : κ}
  {stage : σ} {x : Option σ}

theorem entry (h : Shows table key stages) (hstage : stages i = some stage)
    (hkey : key stage = some k) : table k = some i := by
  rw [h k i, hstage, Option.bind_some, hkey]

theorem exists_stage (h : Shows table key stages) (hentry : table k = some i) :
    ∃ stage, stages i = some stage ∧ key stage = some k :=
  Option.bind_eq_some_iff.mp ((h k i).mp hentry)

theorem unique (h : Shows table key stages) {stage' : σ} (hi : stages i = some stage)
    (hkey : key stage = some k) (hj : stages j = some stage') (hkey' : key stage' = some k) :
    i = j :=
  Option.some.inj ((h.entry hi hkey).symm.trans (h.entry hj hkey'))

theorem empty (hnone : ∀ k, table k = none) (hunborn : ∀ i, stages i = none) :
    Shows table key stages := by
  intro k i
  simp [hnone k, hunborn i]

variable [DecidableEq ι]

/-- An item moves and keeps its key, or has none before and after. -/
theorem keep (h : Shows table key stages) (hsame : x.bind key = (stages i).bind key) :
    Shows table key (Function.update stages i x) := by
  intro k j
  rw [h k j]
  by_cases hj : j = i
  · rw [hj, Function.update_self, hsame]
  · rw [Function.update_of_ne hj]

variable [DecidableEq κ]

/-- An item gives up its key. -/
theorem leave (h : Shows table key stages) (hkey : (stages i).bind key = some k)
    (hgone : x.bind key = none) :
    Shows (Function.update table k none) key (Function.update stages i x) := by
  intro k' j
  have hentry : table k = some i := (h k i).mpr hkey
  by_cases hj : j = i
  · rw [hj, Function.update_self, hgone]
    refine iff_of_false (fun hkept => ?_) nofun
    by_cases hk : k' = k
    · rw [hk, Function.update_self] at hkept
      cases hkept
    · rw [Function.update_of_ne hk, h k' i, hkey] at hkept
      exact hk (Option.some.inj hkept).symm
  · rw [Function.update_of_ne hj, ← h k' j]
    by_cases hk : k' = k
    · rw [hk, Function.update_self, hentry]
      refine iff_of_false nofun fun hsame => hj (Option.some.inj hsame).symm
    · rw [Function.update_of_ne hk]

/-- An item is given a key that is free. -/
theorem enter (h : Shows table key stages) (hout : (stages i).bind key = none)
    (hkey : x.bind key = some k) (hfree : table k = none) :
    Shows (Function.update table k (some i)) key (Function.update stages i x) := by
  intro k' j
  by_cases hj : j = i
  · rw [hj, Function.update_self, hkey]
    by_cases hk : k' = k
    · rw [hk, Function.update_self]
      exact iff_of_true rfl rfl
    · rw [Function.update_of_ne hk, h k' i, hout]
      exact iff_of_false nofun fun hsame => hk (Option.some.inj hsame).symm
  · rw [Function.update_of_ne hj, ← h k' j]
    by_cases hk : k' = k
    · rw [hk, Function.update_self, hfree]
      exact iff_of_false (fun hsame => hj (Option.some.inj hsame).symm) nofun
    · rw [Function.update_of_ne hk]

end Shows

/-- The queue holds the items whose stage is one of these, once each. -/
structure Queues (queue : List ι) (waits : σ → Prop) (stages : ι → Option σ) : Prop where
  nodup : queue.Nodup
  mem_iff : ∀ i, i ∈ queue ↔ ∃ stage, stages i = some stage ∧ waits stage

namespace Queues

variable {queue : List ι} {waits : σ → Prop} {stages : ι → Option σ} {i : ι} {x : Option σ}

theorem empty (hunborn : ∀ i, stages i = none) : Queues [] waits stages where
  nodup := List.nodup_nil
  mem_iff i := by simp [hunborn i]

variable [DecidableEq ι]

/-- An item moves that is not in the queue before and after. -/
theorem keep (h : Queues queue waits stages) (hbefore : ∀ stage ∈ stages i, ¬ waits stage)
    (hafter : ∀ stage ∈ x, ¬ waits stage) : Queues queue waits (Function.update stages i x) where
  nodup := h.nodup
  mem_iff j := by
    rw [h.mem_iff j]
    by_cases hj : j = i
    · rw [hj, Function.update_self]
      refine iff_of_false ?_ ?_
      · rintro ⟨stage, hstage, hwaits⟩
        exact hbefore stage hstage hwaits
      · rintro ⟨stage, hstage, hwaits⟩
        exact hafter stage hstage hwaits
    · rw [Function.update_of_ne hj]

/-- An item joins the queue. -/
theorem push (h : Queues queue waits stages) (hbefore : ∀ stage ∈ stages i, ¬ waits stage)
    {stage : σ} (hwaits : waits stage) :
    Queues (queue ++ [i]) waits (Function.update stages i (some stage)) where
  nodup := by
    rw [← List.concat_eq_append]
    refine h.nodup.concat fun hmem => ?_
    obtain ⟨stage, hstage, hwaits⟩ := (h.mem_iff i).mp hmem
    exact hbefore stage hstage hwaits
  mem_iff j := by
    rw [List.mem_append, List.mem_singleton, h.mem_iff j]
    by_cases hj : j = i
    · rw [hj, Function.update_self]
      exact iff_of_true (.inr rfl) ⟨stage, rfl, hwaits⟩
    · rw [Function.update_of_ne hj, or_iff_left hj]

/-- The first item leaves the queue. -/
theorem pop (h : Queues (i :: queue) waits stages) (hafter : ∀ stage ∈ x, ¬ waits stage) :
    Queues queue waits (Function.update stages i x) where
  nodup := (List.nodup_cons.mp h.nodup).2
  mem_iff j := by
    by_cases hj : j = i
    · rw [hj, Function.update_self]
      refine iff_of_false (List.nodup_cons.mp h.nodup).1 ?_
      rintro ⟨stage, hstage, hwaits⟩
      exact hafter stage hstage hwaits
    · rw [Function.update_of_ne hj, ← h.mem_iff j, List.mem_cons, or_iff_right hj]

end Queues

end EpollHttpServer.Lib
