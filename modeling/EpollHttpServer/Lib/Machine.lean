/-
# Machines driven by actions

A program that reacts to its environment is a partial step function: in a state
an action is either not enabled or leads to exactly one next state, and every
choice the environment or a scheduler makes is part of the action.  An
invariant proved here therefore holds for every order of steps.

A discipline restricts which enabled actions a run takes.  Statements of the
form "as long as no step does this" are statements about runs that follow a
discipline, and a run either follows it throughout or has a first step that
breaks it.
-/

import Mathlib.Logic.Relation
import Mathlib.Data.List.Basic

namespace EpollHttpServer.Lib

universe u v w

/-- A machine: its initial states and its partial step function. -/
structure Machine (σ : Type u) (α : Type v) where
  /-- The states a run may start in. -/
  init : σ → Prop
  /-- One step, or `none` where the action is not enabled. -/
  step : σ → α → Option σ

namespace Machine

variable {σ : Type u} {α : Type v} (M : Machine σ α)

/-- A discipline says of each step whether a run may take it. -/
abbrev Discipline (σ : Type u) (α : Type v) : Type (max u v) := σ → α → Prop

/-- The discipline every step meets. -/
def anyStep : Discipline σ α := fun _ _ => True

/-- One step that meets the discipline `ok`. -/
def StepWhere (ok : Discipline σ α) (s t : σ) : Prop :=
  ∃ a, ok s a ∧ M.step s a = some t

/-- Some steps, all of which meet the discipline `ok`. -/
abbrev ReachesWhere (ok : Discipline σ α) : σ → σ → Prop :=
  Relation.ReflTransGen (M.StepWhere ok)

/-- The states that runs following `ok` pass through. -/
def ReachableWhere (ok : Discipline σ α) (t : σ) : Prop :=
  ∃ s, M.init s ∧ M.ReachesWhere ok s t

/-- The states that runs pass through. -/
abbrev Reachable (t : σ) : Prop := M.ReachableWhere anyStep t

variable {M}

theorem ReachableWhere.of_init {ok : Discipline σ α} {s : σ} (hinit : M.init s) :
    M.ReachableWhere ok s :=
  ⟨s, hinit, .refl⟩

theorem ReachableWhere.next {ok : Discipline σ α} {s t : σ} {a : α}
    (hreach : M.ReachableWhere ok s) (hok : ok s a) (hstep : M.step s a = some t) :
    M.ReachableWhere ok t := by
  obtain ⟨start, hinit, hruns⟩ := hreach
  exact ⟨start, hinit, hruns.tail ⟨a, hok, hstep⟩⟩

/-- A run that follows a stricter discipline follows a laxer one. -/
theorem ReachableWhere.mono {ok ok' : Discipline σ α} (hle : ∀ s a, ok s a → ok' s a)
    {t : σ} (hreach : M.ReachableWhere ok t) : M.ReachableWhere ok' t := by
  obtain ⟨start, hinit, hruns⟩ := hreach
  have hsteps : M.StepWhere ok ≤ M.StepWhere ok' := by
    rintro s t ⟨a, hok, hstep⟩
    exact ⟨a, hle s a hok, hstep⟩
  exact ⟨start, hinit, Relation.ReflTransGen.mono hsteps _ _ hruns⟩

/-- Invariant rule: what holds initially and survives every step that meets the
discipline holds in every state of every run following it. -/
theorem ReachableWhere.invariant {ok : Discipline σ α} {I : σ → Prop}
    (hinit : ∀ s, M.init s → I s)
    (hstep : ∀ s a t, I s → ok s a → M.step s a = some t → I t)
    {t : σ} (hreach : M.ReachableWhere ok t) : I t := by
  obtain ⟨start, hstart, hruns⟩ := hreach
  induction hruns with
  | refl => exact hinit start hstart
  | tail _ hlast ih =>
      obtain ⟨a, hok, hnext⟩ := hlast
      exact hstep _ a _ ih hok hnext

/-- Invariant rule for all runs. -/
theorem Reachable.invariant {I : σ → Prop} (hinit : ∀ s, M.init s → I s)
    (hstep : ∀ s a t, I s → M.step s a = some t → I t)
    {t : σ} (hreach : M.Reachable t) : I t :=
  ReachableWhere.invariant hinit (fun s a t hI _ => hstep s a t hI) hreach

/-- Invariant rule in which a step may use that it is taken in a state of a run. -/
theorem ReachableWhere.invariant_along {ok : Discipline σ α} {I : σ → Prop}
    (hinit : ∀ s, M.init s → I s)
    (hstep : ∀ s a t, M.ReachableWhere ok s → I s → ok s a → M.step s a = some t → I t)
    {t : σ} (hreach : M.ReachableWhere ok t) : I t := by
  have hboth : M.ReachableWhere ok t ∧ I t :=
    ReachableWhere.invariant (I := fun s => M.ReachableWhere ok s ∧ I s)
      (fun s hs => ⟨.of_init hs, hinit s hs⟩)
      (fun s a t hs hok hnext => ⟨hs.1.next hok hnext, hstep s a t hs.1 hs.2 hok hnext⟩) hreach
  exact hboth.2

/-- Component rule: a part of the state that is absent at first, and that each
step leaves alone, removes, puts into an initial state of another machine or
moves as that machine does, is in a state of a run of that machine. -/
theorem ReachableWhere.component {τ : Type w} {β : Type*} {N : Machine τ β} {ok : Discipline σ α}
    {ok' : Discipline τ β} {p : σ → Option τ} (hinit : ∀ s, M.init s → p s = none)
    (hstep : ∀ s a t d, ok s a → M.step s a = some t → p t = some d →
      p s = some d ∨ N.init d ∨ ∃ c b, p s = some c ∧ ok' c b ∧ N.step c b = some d)
    {t : σ} (hreach : M.ReachableWhere ok t) {d : τ} (hd : p t = some d) :
    N.ReachableWhere ok' d := by
  have hall : ∀ d, p t = some d → N.ReachableWhere ok' d := by
    apply ReachableWhere.invariant (I := fun s => ∀ d, p s = some d → N.ReachableWhere ok' d)
      _ _ hreach
    · intro s hs d hpart
      cases (hinit s hs).symm.trans hpart
    · intro s a t hI hok hnext d hpart
      rcases hstep s a t d hok hnext hpart with hsame | hnew | ⟨c, b, hc, hokb, hmove⟩
      · exact hI d hsame
      · exact .of_init hnew
      · exact (hI c hc).next hokb hmove
  exact hall d hd

/-! ## Runs with their actions -/

variable (M) in
/-- Take the listed actions in order. -/
def run (s : σ) (actions : List α) : Option σ :=
  actions.foldlM M.step s

@[simp]
theorem run_cons (s : σ) (a : α) (actions : List α) :
    M.run s (a :: actions) = (M.step s a).bind fun t => M.run t actions := rfl

variable (M) in
/-- Every step of the listed actions meets the discipline `ok`. -/
def Follows (ok : Discipline σ α) : σ → List α → Prop
  | _, [] => True
  | s, a :: actions => ok s a ∧ ∀ t, M.step s a = some t → Follows ok t actions

theorem follows_cons {ok : Discipline σ α} {s t : σ} {a : α} {actions : List α}
    (hstep : M.step s a = some t) :
    M.Follows ok s (a :: actions) ↔ ok s a ∧ M.Follows ok t actions := by
  simp [Follows, hstep]

theorem follows_append {s t : σ} {first second : List α} (hrun : M.run s first = some t) :
    M.Follows ok s (first ++ second) ↔ M.Follows ok s first ∧ M.Follows ok t second := by
  induction first generalizing s with
  | nil =>
      cases hrun
      simp [Follows]
  | cons a first ih =>
      rw [run_cons, Option.bind_eq_some_iff] at hrun
      obtain ⟨next, hstep, hrest⟩ := hrun
      rw [List.cons_append, follows_cons hstep, follows_cons hstep, ih hrest, and_assoc]

theorem follows_anyStep (s : σ) (actions : List α) : M.Follows anyStep s actions := by
  induction actions generalizing s with
  | nil => trivial
  | cons a actions ih => exact ⟨trivial, fun t _ => ih t⟩

/-- The end of a run that follows `ok` is reachable under `ok`. -/
theorem reachesWhere_of_run {ok : Discipline σ α} {s t : σ} {actions : List α}
    (hrun : M.run s actions = some t) (hfollows : M.Follows ok s actions) :
    M.ReachesWhere ok s t := by
  induction actions generalizing s with
  | nil =>
      cases hrun
      exact .refl
  | cons a actions ih =>
      rw [run_cons, Option.bind_eq_some_iff] at hrun
      obtain ⟨next, hstep, hrest⟩ := hrun
      exact .head ⟨a, hfollows.1, hstep⟩ (ih hrest (hfollows.2 next hstep))

/-- Steps that meet a discipline are those of a run that follows it. -/
theorem exists_run_of_reachesWhere {s t : σ} (hruns : M.ReachesWhere ok s t) :
    ∃ actions, M.run s actions = some t ∧ M.Follows ok s actions := by
  induction hruns using Relation.ReflTransGen.head_induction_on with
  | refl => exact ⟨[], rfl, trivial⟩
  | head hfirst _ ih =>
      obtain ⟨a, hok, hstep⟩ := hfirst
      obtain ⟨actions, hrun, hfollows⟩ := ih
      refine ⟨a :: actions, ?_, (follows_cons hstep).mpr ⟨hok, hfollows⟩⟩
      rw [run_cons, hstep]
      exact hrun

/-- Whether a run follows a discipline can be computed. -/
instance followsDecidable (ok : Discipline σ α) [∀ s a, Decidable (ok s a)] :
    ∀ s actions, Decidable (M.Follows ok s actions)
  | _, [] => .isTrue trivial
  | s, a :: actions =>
    match hstep : M.step s a with
    | none => decidable_of_iff (ok s a) (by simp [Follows, hstep])
    | some t =>
      let _ := followsDecidable ok t actions
      decidable_of_iff (ok s a ∧ M.Follows ok t actions) (follows_cons hstep).symm

/-- A run that has been computed reaches a state with what was found there. -/
theorem exists_reachable_of_run (ok : Discipline σ α) {P : σ → Prop} [DecidablePred P] {s : σ}
    (actions : List α) (hinit : M.init s) (hfollows : M.Follows ok s actions)
    (hrun : (M.run s actions).any (fun t => decide (P t)) = true) :
    ∃ t, M.ReachableWhere ok t ∧ P t := by
  rw [Option.any_eq_true] at hrun
  obtain ⟨t, ht, hfound⟩ := hrun
  exact ⟨t, ⟨s, hinit, reachesWhere_of_run ht hfollows⟩, of_decide_eq_true hfound⟩

/-- Invariant rule along one run: the invariant is carried from the state the
run starts in to the state it ends in. -/
theorem run_invariant {ok : Discipline σ α} {I : σ → Prop}
    (hstep : ∀ s a t, I s → ok s a → M.step s a = some t → I t)
    {s t : σ} {actions : List α} (hI : I s) (hrun : M.run s actions = some t)
    (hfollows : M.Follows ok s actions) : I t := by
  induction actions generalizing s with
  | nil =>
      cases hrun
      exact hI
  | cons a actions ih =>
      rw [run_cons, Option.bind_eq_some_iff] at hrun
      obtain ⟨next, hnext, hrest⟩ := hrun
      exact ih (hstep s a next hI hfollows.1 hnext) hrest (hfollows.2 next hnext)

/-- Invariant rule along one run, whatever its steps. -/
theorem invariant_of_run {I : σ → Prop} (hstep : ∀ s a t, I s → M.step s a = some t → I t)
    {s t : σ} {actions : List α} (hI : I s) (hrun : M.run s actions = some t) : I t :=
  run_invariant (fun s a t hI _ => hstep s a t hI) hI hrun (follows_anyStep s actions)

/-- A run that does not follow the discipline has a first step that breaks it:
the steps before follow the discipline and lead to the state where it breaks. -/
theorem exists_first_break {ok : Discipline σ α} {s t : σ} {actions : List α}
    (hrun : M.run s actions = some t) (hbreaks : ¬ M.Follows ok s actions) :
    ∃ before a after here next,
      actions = before ++ a :: after ∧ M.Follows ok s before ∧
        M.run s before = some here ∧ ¬ ok here a ∧
        M.step here a = some next ∧ M.run next after = some t := by
  induction actions generalizing s with
  | nil => exact absurd trivial hbreaks
  | cons a actions ih =>
      rw [run_cons, Option.bind_eq_some_iff] at hrun
      obtain ⟨next, hnext, hrest⟩ := hrun
      by_cases hok : ok s a
      · have hlater : ¬ M.Follows ok next actions := fun hfollows =>
          hbreaks ((follows_cons hnext).mpr ⟨hok, hfollows⟩)
        obtain ⟨before, b, after, here, there, rfl, hbefore, hhere, hbad, hthere, hafter⟩ :=
          ih hrest hlater
        refine ⟨a :: before, b, after, here, there, rfl, ?_, ?_, hbad, hthere, hafter⟩
        · exact (follows_cons hnext).mpr ⟨hok, hbefore⟩
        · rw [run_cons, hnext]
          exact hhere
      · exact ⟨[], a, actions, s, next, rfl, trivial, rfl, hok, hnext, hrest⟩

/-! ## What the steps of a run leave behind -/

theorem run_append (s : σ) (first second : List α) :
    M.run s (first ++ second) = (M.run s first).bind fun t => M.run t second :=
  List.foldlM_append ..

variable {β : Type w}

variable (M) in
/-- The entries that the steps of a run make, in order.  What a step enters
depends on the state it is taken in. -/
def traced (trace : σ → α → List β) : σ → List α → List β
  | _, [] => []
  | s, a :: actions =>
    trace s a ++ match M.step s a with
      | none => []
      | some t => traced trace t actions

theorem traced_cons {trace : σ → α → List β} {s t : σ} {a : α} (hstep : M.step s a = some t)
    (actions : List α) :
    M.traced trace s (a :: actions) = trace s a ++ M.traced trace t actions := by
  simp only [traced, hstep]

/-- An entry is made by one of the steps, in the state that the run has reached. -/
theorem mem_traced {trace : σ → α → List β} {s t : σ} {actions : List α} {entry : β}
    (hrun : M.run s actions = some t) :
    entry ∈ M.traced trace s actions ↔ ∃ before a after here,
      actions = before ++ a :: after ∧ M.run s before = some here ∧ entry ∈ trace here a := by
  induction actions generalizing s with
  | nil => simp [traced]
  | cons a actions ih =>
      rw [run_cons, Option.bind_eq_some_iff] at hrun
      obtain ⟨next, hnext, hrest⟩ := hrun
      rw [traced_cons hnext, List.mem_append, ih hrest]
      constructor
      · rintro (hnow | ⟨before, b, after, here, rfl, hhere, hentry⟩)
        · exact ⟨[], a, actions, s, rfl, rfl, hnow⟩
        · refine ⟨a :: before, b, after, here, rfl, ?_, hentry⟩
          rw [run_cons, hnext]
          exact hhere
      · rintro ⟨before, b, after, here, hactions, hhere, hentry⟩
        cases before with
        | nil =>
            cases hactions
            cases hhere
            exact .inl hentry
        | cons first before =>
            cases hactions
            rw [run_cons, hnext] at hhere
            exact .inr ⟨before, b, after, here, rfl, hhere, hentry⟩

/-- A log that every step extends by what it enters has all the entries of a run. -/
theorem log_of_run {γ : Type*} {trace : σ → α → List β} {log : σ → List γ} {shown : β → Option γ}
    (hstep : ∀ s a t, M.step s a = some t → log t = log s ++ (trace s a).filterMap shown)
    {s t : σ} {actions : List α} (hrun : M.run s actions = some t) :
    log t = log s ++ (M.traced trace s actions).filterMap shown := by
  induction actions generalizing s with
  | nil =>
      cases hrun
      simp [traced]
  | cons a actions ih =>
      rw [run_cons, Option.bind_eq_some_iff] at hrun
      obtain ⟨next, hnext, hrest⟩ := hrun
      rw [ih hrest, hstep s a next hnext, traced_cons hnext, List.filterMap_append,
        List.append_assoc]

/-- Simulation rule: if every step that meets the discipline is matched by the
steps of another machine that it enters, so is every run that follows it. -/
theorem run_simulated {τ : Type*} {N : Machine τ β} {ok : Discipline σ α}
    {trace : σ → α → List β} {R : σ → τ → Prop}
    (hstep : ∀ s a t c, R s c → ok s a → M.step s a = some t →
      ∃ d, N.run c (trace s a) = some d ∧ R t d)
    {s t : σ} {c : τ} {actions : List α} (hR : R s c) (hrun : M.run s actions = some t)
    (hfollows : M.Follows ok s actions) :
    ∃ d, N.run c (M.traced trace s actions) = some d ∧ R t d := by
  induction actions generalizing s c with
  | nil =>
      cases hrun
      exact ⟨c, rfl, hR⟩
  | cons a actions ih =>
      rw [run_cons, Option.bind_eq_some_iff] at hrun
      obtain ⟨next, hnext, hrest⟩ := hrun
      obtain ⟨middle, hmiddle, hR'⟩ := hstep s a next c hR hfollows.1 hnext
      obtain ⟨d, hd, hR''⟩ := ih hR' hrest (hfollows.2 next hnext)
      refine ⟨d, ?_, hR''⟩
      rw [traced_cons hnext, run_append, hmiddle]
      exact hd

end Machine

end EpollHttpServer.Lib
