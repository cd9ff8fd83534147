/-
# Codes that show their own end

Words of a code can be told apart in a stream if no word is the beginning of
another one.  Then a stream determines its first word and what comes behind it,
and so the whole sequence of words.
-/

import Mathlib.InformationTheory.Coding.UniquelyDecodable

namespace EpollHttpServer.Lib

open InformationTheory

universe u

variable {α : Type u} {S : Set (List α)}

/-- What a stream starts with is one word of the code at most. -/
def SelfDelimiting (S : Set (List α)) : Prop :=
  ∀ w ∈ S, ∀ w' ∈ S, ∀ rest rest', w ++ rest = w' ++ rest' → w = w'

theorem SelfDelimiting.uniquelyDecodable (h : SelfDelimiting S) (hnonempty : [] ∉ S) :
    UniquelyDecodable S := by
  intro words
  induction words with
  | nil =>
      intro words' _ hwords' hflat
      cases words' with
      | nil => rfl
      | cons w' words' =>
          have hempty : w' = [] := by
            rw [List.flatten_nil, List.flatten_cons] at hflat
            exact (List.append_eq_nil_iff.mp hflat.symm).1
          exact absurd (hempty ▸ hwords' w' (List.mem_cons_self ..)) hnonempty
  | cons w words ih =>
      intro words' hwords hwords' hflat
      have hw := hwords w (List.mem_cons_self ..)
      cases words' with
      | nil =>
          have hempty : w = [] := by
            rw [List.flatten_nil, List.flatten_cons] at hflat
            exact (List.append_eq_nil_iff.mp hflat).1
          exact absurd (hempty ▸ hw) hnonempty
      | cons w' words' =>
          rw [List.flatten_cons, List.flatten_cons] at hflat
          have hsame : w = w' := h w hw w' (hwords' w' (List.mem_cons_self ..)) _ _ hflat
          subst hsame
          rw [ih words' (fun v hv => hwords v (List.mem_cons_of_mem _ hv))
            (fun v hv => hwords' v (List.mem_cons_of_mem _ hv)) (List.append_cancel_left hflat)]

end EpollHttpServer.Lib
