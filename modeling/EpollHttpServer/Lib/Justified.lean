/-
# Logs whose entries are justified

An entry of a log is judged by what is in the log before it.  A log is
justified when each of its entries is, relative to its own beginning; since the
log only grows, what has been justified once stays justified.
-/

import Mathlib.Data.List.Basic

namespace EpollHttpServer.Lib

universe u

variable {ε : Type u} {P Q : List ε → ε → Prop}

/-- Each entry satisfies `P` together with the entries before it. -/
def Justified (P : List ε → ε → Prop) (log : List ε) : Prop :=
  ∀ before e after, log = before ++ e :: after → P before e

theorem justified_nil : Justified P [] := by
  intro before e after heq
  simp at heq

theorem Justified.append {log added : List ε} (hlog : Justified P log)
    (hadded : Justified (fun before e => P (log ++ before) e) added) :
    Justified P (log ++ added) := by
  intro before e after heq
  rcases List.append_eq_append_iff.mp heq with ⟨rest, rfl, hrest⟩ | ⟨rest, hrest, hafter⟩
  · exact hadded rest e after hrest
  · cases rest with
    | nil =>
        have hstart : log = before := by simpa using hrest
        rw [← hstart]
        simpa using hadded [] e after (by simpa using hafter.symm)
    | cons e' rest =>
        obtain ⟨rfl, _⟩ := List.cons.inj hafter
        exact hlog before e rest hrest

theorem Justified.of_forall {log : List ε} (hall : ∀ e ∈ log, ∀ before, P before e) :
    Justified P log := by
  intro before e after heq
  apply hall
  rw [heq]
  simp

theorem justified_cons {e : ε} {log : List ε} (hfirst : P [] e)
    (hlog : Justified (fun before e' => P (e :: before) e') log) : Justified P (e :: log) := by
  have hone : Justified P [e] := by
    intro before e' after heq
    rcases List.singleton_eq_append_iff.mp heq with ⟨rfl, hcons⟩ | ⟨_, hcons⟩
    · obtain ⟨rfl, _⟩ := List.cons.inj hcons
      exact hfirst
    · cases hcons
  exact hone.append hlog

end EpollHttpServer.Lib
