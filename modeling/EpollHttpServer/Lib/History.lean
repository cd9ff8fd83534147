/-
# Histories

A history goes on forever: at each moment the machine takes a step or rests.  A
run that ends is a history that rests from some moment on, so statements about
what must happen sooner or later are statements about histories.

No machine gets anywhere if its environment lets it rest.  A history attends to
a situation if it does not stay in it forever without taking a step that serves
it (weak fairness), or does not come back to it forever (strong fairness).  A
measure that no step raises settles, and where it has settled no step is taken
that would lower it.
-/

import Mathlib.Order.OrderIsoNat
import EpollHttpServer.Lib.Machine

namespace EpollHttpServer.Lib

namespace Machine

universe u v w

variable {σ : Type u} {α : Type v} {M : Machine σ α} {ok : Discipline σ α}

/-- At each moment a step that meets the discipline `ok`, or none. -/
structure History (M : Machine σ α) (ok : Discipline σ α) where
  state : ℕ → σ
  action : ℕ → Option α
  init : M.init (state 0)
  rests : ∀ n, action n = none → state (n + 1) = state n
  steps : ∀ n a, action n = some a → ok (state n) a ∧ M.step (state n) a = some (state (n + 1))

namespace History

variable (h : M.History ok)

theorem rests_or_steps (m : ℕ) : h.state (m + 1) = h.state m ∨ ∃ a, h.action m = some a ∧
    ok (h.state m) a ∧ M.step (h.state m) a = some (h.state (m + 1)) := by
  cases haction : h.action m with
  | none => exact .inl (h.rests m haction)
  | some a => exact .inr ⟨a, rfl, h.steps m a haction⟩

/-- The states of a history are states of runs. -/
theorem reachable (n : ℕ) : M.ReachableWhere ok (h.state n) := by
  induction n with
  | zero => exact .of_init h.init
  | succ n ih =>
      rcases h.rests_or_steps n with hsame | ⟨a, _, hok, hstep⟩
      · rw [hsame]
        exact ih
      · exact ih.next hok hstep

/-- Every run is the beginning of a history that then rests. -/
theorem exists_of_run {s t : σ} {actions : List α} (hinit : M.init s)
    (hrun : M.run s actions = some t) (hfollows : M.Follows ok s actions) :
    ∃ h : M.History ok, ∀ k, M.run s (actions.take k) = some (h.state k) := by
  have hstates (k : ℕ) : ∃ u, M.run s (actions.take k) = some u := by
    rw [← List.take_append_drop k actions, run_append, Option.bind_eq_some_iff] at hrun
    obtain ⟨u, hu, _⟩ := hrun
    exact ⟨u, hu⟩
  choose state hstate using hstates
  refine ⟨{ state := state
            action := fun k => actions[k]?
            init := ?_
            rests := fun k hnone => ?_
            steps := fun k a hsome => ?_ }, hstate⟩
  · cases hstate 0
    exact hinit
  · have hsame : actions.take (k + 1) = actions.take k := by
      rw [List.take_of_length_le (List.getElem?_eq_none_iff.mp hnone),
        List.take_of_length_le (Nat.le_succ_of_le (List.getElem?_eq_none_iff.mp hnone))]
    have hnext := hstate (k + 1)
    rw [hsame, hstate k] at hnext
    exact (Option.some.inj hnext).symm
  · have hlonger : actions.take (k + 1) = actions.take k ++ [a] := by
      rw [List.take_add_one, hsome, Option.toList_some]
    have hprefix : M.Follows ok s (actions.take k ++ [a]) := by
      rw [← List.take_append_drop (k + 1) actions, follows_append (hstate (k + 1)),
        hlonger] at hfollows
      exact hfollows.1
    have hnext := hstate (k + 1)
    rw [hlonger, run_append, hstate k, Option.bind_some, run_cons,
      Option.bind_eq_some_iff] at hnext
    obtain ⟨u, hstep, hu⟩ := hnext
    cases hu
    exact ⟨((follows_append (hstate k)).mp hprefix).2.1, hstep⟩

/-- Every state of a run is the last one of a history. -/
theorem exists_of_reachable {t : σ} (hreach : M.ReachableWhere ok t) :
    ∃ (h : M.History ok) (n : ℕ), ∀ m, n ≤ m → h.state m = t := by
  obtain ⟨start, hinit, hruns⟩ := hreach
  obtain ⟨actions, hrun, hfollows⟩ := exists_run_of_reachesWhere hruns
  obtain ⟨h, hstates⟩ := exists_of_run hinit hrun hfollows
  refine ⟨h, actions.length, fun m hm => ?_⟩
  have hstate := hstates m
  rw [List.take_of_length_le hm, hrun] at hstate
  exact (Option.some.inj hstate).symm

/-- Component rule: a part of the state that is there from some moment on, and
that each step leaves alone or moves as `sees` says, has a history of its own. -/
theorem exists_component {τ : Type w} {β : Type*} {N : Machine τ β} {ok' : Discipline τ β}
    {p : σ → Option τ} {sees : σ → α → Option β}
    (hstep : ∀ s a t c d, M.ReachableWhere ok s → ok s a → M.step s a = some t → p s = some c →
      p t = some d → sees s a = none ∧ d = c ∨
        ∃ b, sees s a = some b ∧ ok' c b ∧ N.step c b = some d)
    {start : ℕ} {f : ℕ → τ} (hpart : ∀ i, p (h.state (start + i)) = some (f i))
    (hinit : N.init (f 0)) :
    ∃ g : N.History ok', g.state = f ∧
      ∀ i a, h.action (start + i) = some a → g.action i = sees (h.state (start + i)) a := by
  have hmoves (i : ℕ) (a : α) (haction : h.action (start + i) = some a) :
      sees (h.state (start + i)) a = none ∧ f (i + 1) = f i ∨
        ∃ b, sees (h.state (start + i)) a = some b ∧ ok' (f i) b ∧
          N.step (f i) b = some (f (i + 1)) := by
    obtain ⟨hok, hnext⟩ := h.steps _ a haction
    exact hstep _ a _ _ _ (h.reachable _) hok hnext (hpart i) (hpart (i + 1))
  refine ⟨{ state := f
            action := fun i => (h.action (start + i)).bind (sees (h.state (start + i)))
            init := hinit
            rests := fun i hnone => ?_
            steps := fun i b hsome => ?_ }, rfl, fun i a haction => ?_⟩
  · cases haction : h.action (start + i) with
    | none =>
        have hsame : some (f (i + 1)) = some (f i) := by
          rw [← hpart i, ← hpart (i + 1)]
          exact congrArg p (h.rests _ haction)
        exact Option.some.inj hsame
    | some a =>
        rw [haction] at hnone
        rcases hmoves i a haction with ⟨_, hsame⟩ | ⟨b, hsees, _⟩
        · exact hsame
        · cases hnone.symm.trans hsees
  · obtain ⟨a, haction, hsees⟩ := Option.bind_eq_some_iff.mp hsome
    rcases hmoves i a haction with ⟨hnone, _⟩ | ⟨b', hsees', hmove⟩
    · cases hnone.symm.trans hsees
    · cases hsees.symm.trans hsees'
      exact hmove
  · dsimp only
    rw [haction]
    rfl

/-! ## Measures -/

/-- A quantity that does not rise settles. -/
theorem exists_settled {β : Type*} [PartialOrder β] [WellFoundedLT β] (f : ℕ → β) (start : ℕ)
    (hle : ∀ m, start ≤ m → f (m + 1) ≤ f m) : ∃ n, start ≤ n ∧ ∀ m, n ≤ m → f m = f n := by
  have hantitone : Antitone fun k => f (start + k) :=
    antitone_nat_of_succ_le fun k => hle (start + k) (Nat.le_add_right _ _)
  obtain ⟨k, hsettled⟩ := WellFoundedLT.antitone_chain_condition hantitone
  refine ⟨start + k, Nat.le_add_right _ _, fun m hm => ?_⟩
  have hsame := hsettled (m - start) (by omega)
  rw [hsame]
  congr 1
  omega

/-- What holds at one moment and not at a later one ends with a step in between. -/
theorem exists_step {P : σ → Prop} {m k : ℕ} (hle : m ≤ k) (hm : P (h.state m))
    (hk : ¬ P (h.state k)) : ∃ j a, m ≤ j ∧ P (h.state j) ∧ ¬ P (h.state (j + 1)) ∧
      h.action j = some a ∧ ok (h.state j) a ∧
        M.step (h.state j) a = some (h.state (j + 1)) := by
  induction k, hle using Nat.le_induction with
  | base => exact absurd hm hk
  | succ k hle ih =>
      by_cases hbefore : P (h.state k)
      · rcases h.rests_or_steps k with hsame | ⟨a, haction, hstep⟩
        · rw [hsame] at hk
          exact absurd hbefore hk
        · exact ⟨k, a, hle, hbefore, hk, haction, hstep⟩
      · exact ih hbefore

variable {h} {β : Type*} [PartialOrder β] {measure : σ → β}

/-- A measure that no step of a run raises. -/
theorem measure_succ_le
    (hle : ∀ s a t, M.ReachableWhere ok s → ok s a → M.step s a = some t → measure t ≤ measure s)
    (m : ℕ) : measure (h.state (m + 1)) ≤ measure (h.state m) := by
  rcases h.rests_or_steps m with hsame | ⟨a, _, hok, hstep⟩
  · rw [hsame]
  · exact hle _ a _ (h.reachable m) hok hstep

/-! ## Fairness -/

/-- As long as the machine waits for something, a step that serves it is taken
sooner or later. -/
def Attends (h : M.History ok) (waits : σ → Prop) (serves : Discipline σ α) : Prop :=
  ∀ n, (∀ m, n ≤ m → waits (h.state m)) →
    ∃ m, n ≤ m ∧ ∃ a, h.action m = some a ∧ serves (h.state m) a

/-- If the machine waits for something again and again, a step that serves it is
taken again and again. -/
def AttendsAgain (h : M.History ok) (waits : σ → Prop) (serves : Discipline σ α) : Prop :=
  (∀ n, ∃ m, n ≤ m ∧ waits (h.state m)) →
    ∀ n, ∃ m, n ≤ m ∧ ∃ a, h.action m = some a ∧ serves (h.state m) a

/-- The machine stops waiting, or it is served. -/
theorem Attends.not_waiting_or_served {waits : σ → Prop} {serves : Discipline σ α}
    (hattends : h.Attends waits serves) (n : ℕ) :
    (∃ m, n ≤ m ∧ ¬ waits (h.state m)) ∨
      ∃ m a, n ≤ m ∧ ok (h.state m) a ∧ serves (h.state m) a ∧
        M.step (h.state m) a = some (h.state (m + 1)) := by
  by_cases hstops : ∃ m, n ≤ m ∧ ¬ waits (h.state m)
  · exact .inl hstops
  · have hwaits : ∀ m, n ≤ m → waits (h.state m) := by
      intro m hm
      by_contra hnot
      exact hstops ⟨m, hm, hnot⟩
    obtain ⟨m, hm, a, haction, hserves⟩ := hattends n hwaits
    obtain ⟨hok, hstep⟩ := h.steps m a haction
    exact .inr ⟨m, a, hm, hok, hserves, hstep⟩

/-- Attention rule: if serving lowers a measure, then where the measure has
settled, the machine does not wait forever. -/
theorem Attends.exists_not_waiting {waits : σ → Prop} {serves : Discipline σ α}
    (hattends : h.Attends waits serves)
    (hlt : ∀ s a t, M.ReachableWhere ok s → ok s a → serves s a → M.step s a = some t →
      measure t < measure s)
    {n : ℕ} (hsettled : ∀ m, n ≤ m → measure (h.state m) = measure (h.state n)) :
    ∃ m, n ≤ m ∧ ¬ waits (h.state m) := by
  rcases hattends.not_waiting_or_served n with hstops | ⟨m, a, hm, hok, hserves, hstep⟩
  · exact hstops
  · have hlower := hlt _ a _ (h.reachable m) hok hserves hstep
    rw [hsettled m hm, hsettled (m + 1) (Nat.le_succ_of_le hm)] at hlower
    exact absurd hlower (lt_irrefl _)

/-- Attention rule: if serving ends the wait, the machine does not wait forever. -/
theorem Attends.exists_ended {waits : σ → Prop} {serves : Discipline σ α}
    (hattends : h.Attends waits serves)
    (hends : ∀ s a t, M.ReachableWhere ok s → ok s a → serves s a → M.step s a = some t →
      ¬ waits t) (n : ℕ) : ∃ m, n ≤ m ∧ ¬ waits (h.state m) := by
  rcases hattends.not_waiting_or_served n with hstops | ⟨m, a, hm, hok, hserves, hstep⟩
  · exact hstops
  · exact ⟨m + 1, Nat.le_succ_of_le hm, hends _ a _ (h.reachable m) hok hserves hstep⟩

end History

end Machine

end EpollHttpServer.Lib
