/-
# Loops and incremental consumers

A `while (true)` loop whose body either goes round again or leaves with a
result is modelled by its body alone, together with a variant that every
further round decreases.  The result is then a total function of the state.

An incremental consumer is such a loop over a state that input can be appended
to.  Three laws on one round of the body (a round that goes on, rejects or
waits is not disturbed by more input behind what it has seen) make feeding an
action of the list monoid: how the input is cut into pieces cannot be observed.
-/

import Mathlib.Data.List.Basic

namespace EpollHttpServer.Lib

universe u v w x

/-- One round of a loop body: go round again or leave the loop. -/
inductive Pass (σ : Type u) (ρ : Type v) where
  | /-- The next round starts in this state. -/
    again (next : σ)
  | /-- The loop is left with this result. -/
    done (result : ρ)

/-- Rounds that both go on, to related states, or both leave, with related
results. -/
def Pass.Related {σ : Type u} {ρ : Type v} {τ : Type w} {ρ' : Type x} (R : σ → τ → Prop)
    (Q : ρ → ρ' → Prop) : Pass σ ρ → Pass τ ρ' → Prop
  | .again s, .again t => R s t
  | .done result, .done result' => Q result result'
  | _, _ => False

/-- A loop body with the variant that makes the loop terminate. -/
structure Loop (σ : Type u) (ρ : Type v) where
  /-- One round. -/
  pass : σ → Pass σ ρ
  /-- What every further round decreases. -/
  variant : σ → ℕ
  /-- A round that goes on decreases the variant. -/
  decreases : ∀ {s t : σ}, pass s = .again t → variant t < variant s

namespace Loop

variable {σ : Type u} {ρ : Type v} (L : Loop σ ρ)

/-- The result of the loop from a state. -/
def run (s : σ) : ρ :=
  match _hpass : L.pass s with
  | .again t => run t
  | .done result => result
termination_by L.variant s
decreasing_by exact L.decreases _hpass

variable {L}

theorem run_of_again {s t : σ} (hpass : L.pass s = .again t) : L.run s = L.run t := by
  rw [run]
  split
  · next t' heq =>
    rw [hpass] at heq
    cases heq
    rfl
  · next heq =>
    rw [hpass] at heq
    cases heq

theorem run_of_done {s : σ} {result : ρ} (hpass : L.pass s = .done result) :
    L.run s = result := by
  rw [run]
  split
  · next heq =>
    rw [hpass] at heq
    cases heq
  · next heq =>
    rw [hpass] at heq
    cases heq
    rfl

/-- States with the same round have the same result. -/
theorem run_congr {s t : σ} (hpass : L.pass s = L.pass t) : L.run s = L.run t := by
  cases hs : L.pass s with
  | again next => rw [run_of_again hs, run_of_again (hpass.symm.trans hs)]
  | done result => rw [run_of_done hs, run_of_done (hpass.symm.trans hs)]

/-- Induction over the rounds of a loop. -/
theorem run_induction {P : σ → ρ → Prop}
    (hdone : ∀ s result, L.pass s = .done result → P s result)
    (hagain : ∀ s t, L.pass s = .again t → P t (L.run t) → P s (L.run t))
    (s : σ) : P s (L.run s) := by
  induction hv : L.variant s using Nat.strongRecOn generalizing s with
  | _ n ih =>
      subst hv
      cases hpass : L.pass s with
      | again t =>
          rw [run_of_again hpass]
          exact hagain s t hpass (ih _ (L.decreases hpass) t rfl)
      | done result =>
          rw [run_of_done hpass]
          exact hdone s result hpass

/-- Invariant rule: what every further round preserves holds in the round that
leaves the loop. -/
theorem run_invariant {I : σ → Prop} {Q : ρ → Prop}
    (hagain : ∀ s t, I s → L.pass s = .again t → I t)
    (hdone : ∀ s result, I s → L.pass s = .done result → Q result)
    {s : σ} (hI : I s) : Q (L.run s) := by
  revert hI
  apply run_induction (L := L) (P := fun s result => I s → Q result)
  · intro s result hpass hI
    exact hdone s result hI hpass
  · intro s t hpass ih hI
    exact ih (hagain s t hI hpass)

/-- Simulation rule: loops whose rounds stay related have related results. -/
theorem run_related {τ : Type w} {ρ' : Type x} {K : Loop τ ρ'} {R : σ → τ → Prop}
    {Q : ρ → ρ' → Prop} (hround : ∀ s t, R s t → Pass.Related R Q (L.pass s) (K.pass t))
    {s : σ} {t : τ} (hst : R s t) : Q (L.run s) (K.run t) := by
  revert t
  apply run_induction (L := L) (P := fun s result => ∀ t, R s t → Q result (K.run t))
  · intro s result hpass t hst
    have hrelated := hround s t hst
    rw [hpass] at hrelated
    cases hpass' : K.pass t with
    | again t' =>
        rw [hpass'] at hrelated
        exact hrelated.elim
    | done result' =>
        rw [hpass'] at hrelated
        rw [run_of_done hpass']
        exact hrelated
  · intro s s' hpass ih t hst
    have hrelated := hround s t hst
    rw [hpass] at hrelated
    cases hpass' : K.pass t with
    | again t' =>
        rw [hpass'] at hrelated
        rw [run_of_again hpass']
        exact ih t' hrelated
    | done result' =>
        rw [hpass'] at hrelated
        exact hrelated.elim

end Loop

/-- A loop over a state with appendable input.  It leaves with `true` when it
waits for more input or is finished, and with `false` when it rejects. -/
structure Incremental (σ : Type u) (α : Type w) extends Loop σ (Bool × σ) where
  /-- Append input behind what the state holds. -/
  push : σ → List α → σ
  push_nil : ∀ s, push s [] = s
  push_push : ∀ s first second, push (push s first) second = push s (first ++ second)
  /-- A round that goes on is not disturbed by more input. -/
  again_push : ∀ {s t} more, pass s = .again t → pass (push s more) = .again (push t more)
  /-- A round that rejects still rejects when there is more input. -/
  reject_push : ∀ {s t} more,
    pass s = .done (false, t) → pass (push s more) = .done (false, push t more)
  /-- A round that waits may be repeated from the state it left behind. -/
  wait_push : ∀ {s t} more,
    pass s = .done (true, t) → pass (push s more) = pass (push t more)

namespace Incremental

variable {σ : Type u} {α : Type w} (C : Incremental σ α)

/-- Append a piece of input and run the loop. -/
def feed (s : σ) (piece : List α) : Bool × σ :=
  C.run (C.push s piece)

/-- Feed the pieces in order and stop at the first rejection. -/
def feedAll (s : σ) : List (List α) → Bool × σ
  | [] => (true, s)
  | piece :: pieces =>
    match C.feed s piece with
    | (true, t) => feedAll t pieces
    | (false, t) => (false, t)

/-- Input appended before the loop runs, or after it has rejected, or before
it is resumed: the loop cannot tell. -/
theorem run_push (s : σ) (more : List α) :
    C.run (C.push s more) =
      match C.run s with
      | (true, t) => C.run (C.push t more)
      | (false, t) => (false, C.push t more) := by
  refine Loop.run_induction (L := C.toLoop)
    (P := fun s result => C.run (C.push s more) =
      match result with
      | (true, t) => C.run (C.push t more)
      | (false, t) => (false, C.push t more)) ?_ ?_ s
  · rintro s ⟨verdict, t⟩ hpass
    cases verdict with
    | true => exact Loop.run_congr (C.wait_push more hpass)
    | false => exact Loop.run_of_done (C.reject_push more hpass)
  · intro s t hpass ih
    rw [Loop.run_of_again (C.again_push more hpass)]
    exact ih

/-- Feeding is an action of the list monoid, up to the first rejection. -/
theorem feed_append (s : σ) (first second : List α) :
    C.feed s (first ++ second) =
      match C.feed s first with
      | (true, t) => C.feed t second
      | (false, t) => (false, C.push t second) := by
  rw [feed, ← C.push_push, C.run_push]
  rfl

/-- However the input is cut, the verdict and everything that appended input
does not change are those of the input fed in one piece. -/
theorem feedAll_flatten {ω : Type v} (view : σ → ω)
    (hview : ∀ s more, view (C.push s more) = view s)
    (s : σ) (hidle : C.run s = (true, s)) (pieces : List (List α)) :
    (C.feedAll s pieces).1 = (C.feed s pieces.flatten).1 ∧
      view (C.feedAll s pieces).2 = view (C.feed s pieces.flatten).2 := by
  induction pieces generalizing s with
  | nil => simp [feedAll, feed, C.push_nil, hidle]
  | cons piece pieces ih =>
      rw [List.flatten_cons, C.feed_append]
      cases hfeed : C.feed s piece with
      | mk verdict t =>
          cases verdict with
          | false => simp [feedAll, hfeed, hview]
          | true =>
              have hwaits : C.run t = (true, t) := by
                have hresume := C.feed_append s piece []
                rw [List.append_nil, hfeed] at hresume
                simpa [feed, C.push_nil] using hresume.symm
              simpa [feedAll, hfeed] using ih t hwaits

end Incremental

end EpollHttpServer.Lib
