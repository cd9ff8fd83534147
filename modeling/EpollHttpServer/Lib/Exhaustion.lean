/-
# Steps that come to an end

Steps that only use up work cannot go on forever.  To show it, give the states
a measure in a well-founded order that such a step lowers and that no other
step raises; where several parties work side by side, give each of them a
measure of its own.  Whoever goes on as long as anything is enabled then arrives
at a state in which nothing is.
-/

import Mathlib.Data.DFinsupp.WellFounded
import EpollHttpServer.Lib.Machine

namespace EpollHttpServer.Lib

namespace Machine

universe u v

variable {σ : Type u} {α : Type v} {M : Machine σ α} {ok kind : Discipline σ α}

/-- No run that follows `ok` takes infinitely many steps of this kind. -/
def Exhausts (M : Machine σ α) (ok kind : Discipline σ α) : Prop :=
  WellFounded fun t s =>
    ∃ u, M.StepWhere (fun s a => ok s a ∧ kind s a) s u ∧ M.ReachesWhere ok u t

/-- No step of this kind is enabled. -/
def Finished (M : Machine σ α) (kind : Discipline σ α) (s : σ) : Prop :=
  ∀ a, kind s a → M.step s a = none

/-- Measure rule: a step of this kind lowers the measure, and no other raises it. -/
theorem exhausts_of_measure {β : Type*} [Preorder β] [WellFoundedLT β] (measure : σ → β)
    (hle : ∀ s a t, ok s a → M.step s a = some t → measure t ≤ measure s)
    (hlt : ∀ s a t, ok s a → kind s a → M.step s a = some t → measure t < measure s) :
    M.Exhausts ok kind := by
  have hruns {u t : σ} (hrun : M.ReachesWhere ok u t) : measure t ≤ measure u := by
    induction hrun with
    | refl => exact le_rfl
    | tail _ hlast ih =>
        obtain ⟨a, hok, hnext⟩ := hlast
        exact (hle _ a _ hok hnext).trans ih
  refine Subrelation.wf ?_ (InvImage.wf measure wellFounded_lt)
  rintro t s ⟨u, ⟨a, ⟨hok, hkind⟩, hnext⟩, hrun⟩
  exact (hruns hrun).trans_lt (hlt s a u hok hkind hnext)

/-- Measure rule for finitely many parties: a step raises the measure of none,
and a step of this kind lowers the measure of one. -/
theorem exhausts_of_parties {ι β : Type*} [Finite ι] [Preorder β] [WellFoundedLT β]
    (measure : σ → ι → β)
    (hle : ∀ s a t i, ok s a → M.step s a = some t → measure t i ≤ measure s i)
    (hlt : ∀ s a t, ok s a → kind s a → M.step s a = some t → ∃ i, measure t i < measure s i) :
    M.Exhausts ok kind :=
  exhausts_of_measure measure (fun s a t hok hnext i => hle s a t i hok hnext)
    fun s a t hok hkind hnext =>
      Pi.lt_def.mpr ⟨fun i => hle s a t i hok hnext, hlt s a t hok hkind hnext⟩

/-- Every state leads to one in which no step of this kind is enabled. -/
theorem Exhausts.exists_finished (h : M.Exhausts ok kind) (hall : ∀ s a, kind s a → ok s a)
    (s : σ) : ∃ t, M.ReachesWhere ok s t ∧ M.Finished kind t := by
  induction s using h.induction with
  | h s ih =>
      by_cases hdone : M.Finished kind s
      · exact ⟨s, .refl, hdone⟩
      · obtain ⟨a, hnot⟩ := not_forall.mp hdone
        obtain ⟨hkind, henabled⟩ := Classical.not_imp.mp hnot
        obtain ⟨t, hnext⟩ := Option.ne_none_iff_exists'.mp henabled
        have hok := hall s a hkind
        obtain ⟨u, hruns, hfinished⟩ := ih t ⟨t, ⟨a, ⟨hok, hkind⟩, hnext⟩, .refl⟩
        exact ⟨u, .head ⟨a, hok, hnext⟩ hruns, hfinished⟩

end Machine

end EpollHttpServer.Lib
