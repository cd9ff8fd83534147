/-
# Queues that are drained again and again

An item of a batch queue has to wait for a swap and then for the end of the
batch that it is in.  If a swap comes sooner or later while the inbox is not
empty, and batches come to their end, then every item is started.
-/

import EpollHttpServer.Lib.BatchQueue
import EpollHttpServer.Lib.History

namespace EpollHttpServer.Lib

universe u v w

namespace BatchQueue

variable {α : Type u} {q q' : BatchQueue α}

/-- What a step may do to a queue: items are pushed, the inbox is taken when
the batch has come to its end, or the next item is started. -/
inductive Moves (q q' : BatchQueue α) : Prop where
  | pushed (later : List α) (hafter : q' = { q with inbox := q.inbox ++ later })
  | swapped (hdone : q.batch = []) (hafter : q' = q.swap)
  | started (a : α) (hnext : q.next = some (a, q'))

theorem Moves.refl (q : BatchQueue α) : q.Moves q :=
  .pushed [] (by rw [List.append_nil])

/-- The queue remembers all that was pushed. -/
theorem Moves.contents_grow (hmoves : q.Moves q') : q.contents <+: q'.contents := by
  cases hmoves with
  | pushed later hafter =>
      rw [hafter, contents, contents, ← List.append_assoc]
      exact List.prefix_append _ _
  | swapped hdone hafter => rw [hafter, contents_swap hdone]
  | started a hnext => rw [contents_next hnext]

theorem Moves.taken_le (hmoves : q.Moves q') : q.taken ≤ q'.taken := by
  cases hmoves with
  | pushed later hafter => rw [hafter, taken, taken]
  | swapped hdone hafter =>
      rw [hafter, taken, taken, hdone]
      exact Nat.le_add_right _ _
  | started a hnext => exact (taken_next hnext).ge

/-- What has been started is the beginning of what has been pushed. -/
theorem started_first (q : BatchQueue α) : q.started <+: q.contents := by
  rw [contents, List.append_assoc]
  exact List.prefix_append _ _

/-- A swap at the end of a batch takes everything. -/
theorem taken_swap (hdone : q.batch = []) : q.swap.taken = q.contents.length := by
  have hlength := q.swap.length_contents
  rw [contents_swap hdone, inbox_swap hdone, List.length_nil, Nat.add_zero] at hlength
  exact hlength.symm

end BatchQueue

namespace Machine.History

variable {σ : Type v} {β : Type w} {α : Type u} {M : Machine σ β} {ok : Discipline σ β}

/-- Draining rule: every item that has been pushed is started, in its place. -/
theorem exists_started (h : M.History ok) (view : σ → BatchQueue α)
    (hmoves : ∀ s a t, M.ReachableWhere ok s → ok s a → M.step s a = some t →
      (view s).Moves (view t))
    {m : ℕ}
    (hswaps : (∀ k, m ≤ k → (view (h.state k)).inbox ≠ []) → ∃ k, m ≤ k ∧
      (view (h.state k)).batch = [] ∧ view (h.state (k + 1)) = (view (h.state k)).swap)
    (hdrains : ∀ k, m ≤ k → ∃ w, k ≤ w ∧ (view (h.state w)).batch = [])
    {i : ℕ} {a : α} (hi : (view (h.state m)).contents[i]? = some a) :
    ∃ k, m ≤ k ∧ (view (h.state k)).started[i]? = some a := by
  have hmove (k : ℕ) : (view (h.state k)).Moves (view (h.state (k + 1))) := by
    rcases h.rests_or_steps k with hsame | ⟨a, _, hok, hstep⟩
    · rw [hsame]
      exact .refl _
    · exact hmoves _ a _ (h.reachable k) hok hstep
  have hcontents {k : ℕ} (hk : m ≤ k) : (view (h.state k)).contents[i]? = some a := by
    induction k, hk using Nat.le_induction with
    | base => exact hi
    | succ k hk ih =>
        obtain ⟨hlt, hitem⟩ := List.getElem?_eq_some_iff.mp ih
        rw [List.prefix_iff_getElem?.mp (hmove k).contents_grow i hlt, hitem]
  have htaken : Monotone fun k => (view (h.state k)).taken :=
    monotone_nat_of_le_succ fun k => (hmove k).taken_le
  have hlength {k : ℕ} (hk : m ≤ k) : i < (view (h.state k)).contents.length :=
    (List.getElem?_eq_some_iff.mp (hcontents hk)).1
  -- sooner or later the item is taken
  have hswapped : ∃ k, m ≤ k ∧ i < (view (h.state k)).taken := by
    by_contra hnever
    have hwaits (k : ℕ) (hk : m ≤ k) : (view (h.state k)).taken ≤ i := by
      by_contra hlt
      exact hnever ⟨k, hk, not_le.mp hlt⟩
    obtain ⟨k, hk, hdone, hswap⟩ := hswaps fun k hk hempty => by
      have hsum := (view (h.state k)).length_contents
      rw [hempty, List.length_nil] at hsum
      have hin := hlength hk
      have hout := hwaits k hk
      omega
    have hlate := hwaits (k + 1) (Nat.le_succ_of_le hk)
    rw [hswap, BatchQueue.taken_swap hdone] at hlate
    exact absurd hlate (not_le.mpr (hlength hk))
  obtain ⟨k, hk, hlt⟩ := hswapped
  obtain ⟨w, hw, hempty⟩ := hdrains k hk
  refine ⟨w, hk.trans hw, ?_⟩
  have hall : (view (h.state w)).taken = (view (h.state w)).started.length := by
    rw [BatchQueue.taken, hempty, List.length_nil, Nat.add_zero]
  have hstarted : i < (view (h.state w)).started.length := by
    rw [← hall]
    exact hlt.trans_le (htaken hw)
  rw [← hcontents (hk.trans hw), List.getElem?_eq_getElem hstarted]
  exact (List.prefix_iff_getElem?.mp (view (h.state w)).started_first i hstarted).symm

end Machine.History

end EpollHttpServer.Lib
