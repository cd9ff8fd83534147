/-
# Custody of resources

A resource is claimed by one holder, may be passed on, and ends in one of two
ways: its holder disposes of it, or lets go of it and leaves it as it is.  Only
the holder can do either, and a resource that has ended is never held again, so
every resource is disposed of at most once and is left exactly if somebody has
let go of it.

A program that keeps its resources in objects, each of which has room for one,
is tied to this by the table of what the objects hold.
-/

import EpollHttpServer.Lib.Machine
import Mathlib.Logic.Function.Basic
import Mathlib.Data.Option.Basic

namespace EpollHttpServer.Lib

universe u v

/-- Where a resource is. -/
inductive Custody (η : Type v) where
  | unclaimed
  | held (holder : η)
  | disposed
  | left
  deriving DecidableEq, Repr

/-- One thing done to a resource, by the holder that is named first. -/
inductive Transfer (ρ : Type u) (η : Type v) where
  | claim (r : ρ) (holder : η)
  | pass (r : ρ) (holder next : η)
  | dispose (r : ρ) (holder : η)
  | letGo (r : ρ) (holder : η)
  deriving DecidableEq, Repr

namespace Transfer

variable {ρ : Type u} {η : Type v}

def resource : Transfer ρ η → ρ
  | .claim r _ | .pass r _ _ | .dispose r _ | .letGo r _ => r

/-- Where the resource has to be. -/
def before : Transfer ρ η → Custody η
  | .claim _ _ => .unclaimed
  | .pass _ holder _ | .dispose _ holder | .letGo _ holder => .held holder

/-- Where the resource is afterwards. -/
def after : Transfer ρ η → Custody η
  | .claim _ holder => .held holder
  | .pass _ _ next => .held next
  | .dispose _ _ => .disposed
  | .letGo _ _ => .left

/-- The disposal of a resource, with its holder. -/
def disposal : Transfer ρ η → Option (η × ρ)
  | .dispose r holder => some (holder, r)
  | _ => none

theorem before_ne_disposed (t : Transfer ρ η) : t.before ≠ .disposed := by
  cases t <;> exact nofun

theorem before_ne_left (t : Transfer ρ η) : t.before ≠ .left := by
  cases t <;> exact nofun

theorem eq_letGo_of_after {t : Transfer ρ η} (hafter : t.after = .left) :
    ∃ holder, t = .letGo t.resource holder := by
  cases t with
  | letGo r holder => exact ⟨holder, rfl⟩
  | claim | pass | dispose => cases hafter

theorem disposal_eq_some_iff {t : Transfer ρ η} {holder : η} {r : ρ} :
    t.disposal = some (holder, r) ↔ t = .dispose r holder := by
  cases t with
  | dispose r' holder' =>
      rw [disposal, Option.some.injEq, Prod.mk.injEq, dispose.injEq]
      exact and_comm
  | claim | pass | letGo => exact iff_of_false nofun nofun

theorem filterMap_disposal_dispose (rs : List ρ) (holder : η) :
    (rs.map (.dispose · holder)).filterMap disposal = rs.map (holder, ·) := by
  rw [List.filterMap_map]
  exact congrFun (List.filterMap_eq_map (f := (holder, ·))) rs

theorem filterMap_disposal_pass (rs : List ρ) (holder next : η) :
    (rs.map (.pass · holder next)).filterMap disposal = [] := by
  rw [List.filterMap_map]
  exact List.filterMap_eq_nil_iff.mpr fun _ _ => rfl

theorem filterMap_disposal_letGo (rs : List ρ) (holder : η) :
    (rs.map (.letGo · holder)).filterMap disposal = [] := by
  rw [List.filterMap_map]
  exact List.filterMap_eq_nil_iff.mpr fun _ _ => rfl

theorem disposal_eq_some {t : Transfer ρ η} {entry : η × ρ} (hentry : t.disposal = some entry) :
    t.resource = entry.2 ∧ t.after = .disposed := by
  rw [disposal_eq_some_iff.mp hentry]
  exact ⟨rfl, rfl⟩

end Transfer

variable {ρ : Type u} {η : Type v} [DecidableEq ρ] [DecidableEq η]

/-- Resources that start unclaimed, and what is done to them. -/
def custodians (ρ : Type u) (η : Type v) [DecidableEq ρ] [DecidableEq η] :
    Machine (ρ → Custody η) (Transfer ρ η) where
  init c := c = fun _ => .unclaimed
  step c t :=
    if c t.resource = t.before then some (Function.update c t.resource t.after) else none

namespace Custody

/-- A transfer that puts `r` where it stays. -/
def arrives (r : ρ) (fate : Custody η) (t : Transfer ρ η) : Bool :=
  decide (t.resource = r ∧ t.after = fate)

/-- A resource comes at most once to a place that nothing leads away from. -/
theorem count_arrivals {fate : Custody η} (hfinal : ∀ t : Transfer ρ η, t.before ≠ fate)
    {c d : ρ → Custody η} {transfers : List (Transfer ρ η)}
    (hrun : (custodians ρ η).run c transfers = some d) (r : ρ) :
    transfers.countP (arrives r fate) + (if c r = fate then 1 else 0) =
      if d r = fate then 1 else 0 := by
  induction transfers generalizing c with
  | nil =>
      cases hrun
      simp
  | cons t transfers ih =>
      rw [Machine.run_cons, Option.bind_eq_some_iff] at hrun
      obtain ⟨next, hnext, hrest⟩ := hrun
      have hlater := ih hrest
      simp only [custodians, Option.ite_none_right_eq_some, Option.some.injEq] at hnext
      obtain ⟨hbefore, rfl⟩ := hnext
      rw [List.countP_cons, ← hlater]
      by_cases hr : t.resource = r
      · subst hr
        have haway : c t.resource ≠ fate := fun heq => hfinal t (hbefore.symm.trans heq)
        simp [arrives, haway, Function.update_self]
      · rw [Function.update_of_ne (Ne.symm hr)]
        simp [arrives, hr]

/-- A resource that is not there at first is there at the end if some transfer
has put it there. -/
theorem eq_fate_iff {fate : Custody η} (hfinal : ∀ t : Transfer ρ η, t.before ≠ fate)
    {c d : ρ → Custody η} {transfers : List (Transfer ρ η)}
    (hrun : (custodians ρ η).run c transfers = some d) {r : ρ} (hstart : c r ≠ fate) :
    d r = fate ↔ ∃ t ∈ transfers, t.resource = r ∧ t.after = fate := by
  have hcount := count_arrivals hfinal hrun r
  rw [if_neg hstart, Nat.add_zero] at hcount
  have hpos : d r = fate ↔ 0 < transfers.countP (arrives r fate) := by
    rw [hcount]
    split <;> simp_all
  rw [hpos, List.countP_pos_iff]
  simp [arrives]

/-- A resource is left if its holder has let go of it. -/
theorem eq_left_iff {c d : ρ → Custody η} {transfers : List (Transfer ρ η)}
    (hrun : (custodians ρ η).run c transfers = some d) {r : ρ} (hstart : c r ≠ .left) :
    d r = .left ↔ ∃ holder, .letGo r holder ∈ transfers := by
  rw [eq_fate_iff Transfer.before_ne_left hrun hstart]
  constructor
  · rintro ⟨t, hmem, rfl, hafter⟩
    obtain ⟨holder, hletGo⟩ := Transfer.eq_letGo_of_after hafter
    exact ⟨holder, hletGo ▸ hmem⟩
  · rintro ⟨holder, hmem⟩
    exact ⟨_, hmem, rfl, rfl⟩

/-- Every resource is disposed of at most once. -/
theorem count_disposals_le {c d : ρ → Custody η} {transfers : List (Transfer ρ η)}
    (hrun : (custodians ρ η).run c transfers = some d) (r : ρ) :
    ((transfers.filterMap Transfer.disposal).map Prod.snd).count r ≤ 1 := by
  have hcount := count_arrivals Transfer.before_ne_disposed hrun r
  have hle : transfers.countP (arrives r .disposed) ≤ 1 := by
    split at hcount <;> split at hcount <;> omega
  refine Nat.le_trans ?_ hle
  rw [List.count, List.countP_map, List.countP_filterMap]
  apply List.countP_mono_left
  intro t _ hdisposed
  cases hentry : t.disposal with
  | none => simp [hentry] at hdisposed
  | some entry =>
      obtain ⟨hresource, hafter⟩ := Transfer.disposal_eq_some hentry
      simp only [hentry, Option.map_some] at hdisposed
      exact decide_eq_true ⟨hresource.trans (eq_of_beq hdisposed), hafter⟩

/-! ## Objects with room for one resource -/

/-- `hands` says which resource each object holds. -/
def Held (hands : η → Option ρ) (c : ρ → Custody η) : Prop :=
  ∀ h r, hands h = some r ↔ c r = .held h

/-- Put the resource, if there is one, into its next place. -/
def move (c : ρ → Custody η) (r? : Option ρ) (fate : Custody η) : ρ → Custody η :=
  fun r => if r? = some r then fate else c r

omit [DecidableEq η] in
@[simp]
theorem move_apply (c : ρ → Custody η) (r? : Option ρ) (fate : Custody η) (r : ρ) :
    move c r? fate r = if r? = some r then fate else c r := rfl

/-- What is done to the resource that an object may hold. -/
theorem run_move {c : ρ → Custody η} {r? : Option ρ} {fate : Custody η} {f : ρ → Transfer ρ η}
    (hresource : ∀ r, (f r).resource = r) (hafter : ∀ r, (f r).after = fate)
    (hbefore : ∀ r, r? = some r → c r = (f r).before) :
    (custodians ρ η).run c (r?.toList.map f) = some (move c r? fate) := by
  cases r? with
  | none => rfl
  | some r =>
      have hplace : c (f r).resource = (f r).before := by
        rw [hresource]
        exact hbefore r rfl
      have hmoved : Function.update c (f r).resource (f r).after = move c (some r) fate := by
        funext other
        rw [hresource, hafter, Function.update_apply]
        simp only [move_apply, Option.some.injEq, eq_comm]
      rw [Option.toList_some, List.map_cons, List.map_nil, Machine.run_cons]
      show (if c (f r).resource = (f r).before then _ else none).bind _ = _
      rw [if_pos hplace, hmoved]
      rfl

variable {hands : η → Option ρ} {c : ρ → Custody η} {h h' : η} {r : ρ}

omit [DecidableEq ρ] [DecidableEq η] in
/-- Nothing is held by two objects. -/
theorem Held.unique (hheld : Held hands c) (hfirst : hands h = some r)
    (hsecond : hands h' = some r) : h = h' := by
  have hsame := ((hheld h r).mp hfirst).symm.trans ((hheld h' r).mp hsecond)
  cases hsame
  rfl

/-- An object gives up what it holds. -/
theorem Held.empty (hheld : Held hands c) (h : η) {fate : Custody η}
    (hfate : ∀ h', fate ≠ .held h') :
    Held (Function.update hands h none) (move c (hands h) fate) := by
  intro h' r
  rw [move_apply]
  by_cases hr : hands h = some r
  · rw [if_pos hr]
    constructor
    · intro hholds
      by_cases hh : h' = h
      · rw [hh, Function.update_self] at hholds
        cases hholds
      · rw [Function.update_of_ne hh] at hholds
        exact absurd (hheld.unique hholds hr) hh
    · intro hplace
      exact absurd hplace (hfate h')
  · rw [if_neg hr]
    by_cases hh : h' = h
    · subst hh
      rw [Function.update_self, ← hheld h' r]
      simp [hr]
    · rw [Function.update_of_ne hh]
      exact hheld h' r

/-- An object that holds nothing is given what nobody holds. -/
theorem Held.fill (hheld : Held hands c) (hempty : hands h = none) {r? : Option ρ}
    (hfree : ∀ r, r? = some r → ∀ h', hands h' ≠ some r) :
    Held (Function.update hands h r?) (move c r? (.held h)) := by
  intro h' r
  rw [move_apply]
  by_cases hr : r? = some r
  · rw [if_pos hr]
    by_cases hh : h' = h
    · subst hh
      rw [Function.update_self]
      exact iff_of_true hr rfl
    · rw [Function.update_of_ne hh]
      refine iff_of_false (hfree r hr h') ?_
      intro hplace
      cases hplace
      exact hh rfl
  · rw [if_neg hr]
    by_cases hh : h' = h
    · subst hh
      rw [Function.update_self, ← hheld h' r, hempty]
      exact iff_of_false hr nofun
    · rw [Function.update_of_ne hh]
      exact hheld h' r

/-- An object hands what it holds to one that holds nothing. -/
theorem Held.handOver (hheld : Held hands c) (hne : h' ≠ h) (hempty : hands h' = none) :
    Held (Function.update (Function.update hands h' (hands h)) h none)
      (move c (hands h) (.held h')) := by
  -- For a moment the resource lies between the two hands.
  have hbetween : Held (Function.update hands h none) (move c (hands h) .unclaimed) :=
    hheld.empty h nofun
  have hfree : ∀ r, hands h = some r → ∀ other, Function.update hands h none other ≠ some r := by
    intro r hr other hother
    by_cases hsame : other = h
    · rw [hsame, Function.update_self] at hother
      cases hother
    · rw [Function.update_of_ne hsame] at hother
      exact hsame (hheld.unique hother hr)
  have hpassed := hbetween.fill (h := h') (by rw [Function.update_of_ne hne, hempty]) hfree
  rw [Function.update_comm hne.symm] at hpassed
  convert hpassed using 1
  funext r
  simp only [move_apply]
  split <;> rfl

end Custody

end EpollHttpServer.Lib
