/-
# Posted functors are run

A functor is posted by a `push_back` and a write to the eventfd, and the loop
may be anywhere between its wait and its next wait meanwhile.  If the loop
thread goes on sooner or later, `epoll_wait` returns sooner or later while the
eventfd is readable, and each call of `queueInLoop` and `quit` is brought to its
end, then no functor is left behind unless the loop is asked to quit.
-/

import EpollHttpServer.Lib.Draining
import EpollHttpServer.Reactor.Shutdown

namespace EpollHttpServer.Reactor

open EpollHttpServer.Lib

namespace EventLoop

variable {Thread α : Type} [DecidableEq Thread] {s t : EventLoop Thread α} {a : Action Thread α}

/-- The loop thread is in `loop()`, and not at its wait. -/
def Turns (s : EventLoop Thread α) : Prop := s.pc ≠ .outside ∧ s.pc ≠ .wait

/-- A fair schedule. -/
structure Fair (h : (eventLoops Thread α).History Machine.anyStep) : Prop where
  /-- The loop thread goes on, and so do the handlers and functors. -/
  goesOn : h.Attends Turns own
  /-- `epoll_wait` returns when the eventfd is readable. -/
  polls : h.Attends (fun s => s.pc = .wait ∧ 0 < s.counter) fun _ a => ∃ ready, a = .wait ready
  /-- Every call of the loop comes to its write. -/
  writes : ∀ caller, h.Attends (fun s => s.call caller ≠ .idle) fun _ a => a = .wakeup caller

/-- A schedule that ends with the loop at its wait and all calls done is fair. -/
theorem fair_of_asleep {h : (eventLoops Thread α).History Machine.anyStep} {m : ℕ}
    (hwait : ∀ k, m ≤ k → (h.state k).pc = .wait)
    (hcounter : ∀ k, m ≤ k → (h.state k).counter = 0)
    (hcall : ∀ k caller, m ≤ k → (h.state k).call caller = .idle) : Fair h where
  goesOn n hturns :=
    absurd (hwait _ (le_max_right n m)) (hturns _ (le_max_left n m)).2
  polls n hreadable :=
    absurd (hcounter _ (le_max_right n m)) (hreadable _ (le_max_left n m)).2.ne'
  writes caller n hcalls :=
    absurd (hcall _ caller (le_max_right n m)) (hcalls _ (le_max_left n m))

/-! ## What a step does -/

/-- The loop thread leaves `loop()` only when it is asked to. -/
theorem pc_ne_outside_step (hquit : s.quit = false) (hpc : s.pc ≠ .outside)
    (hstep : s.step a = some t) : t.pc ≠ .outside := by
  cases moves_of_step hstep with
  | leaveLoop _ hset => cases hquit.symm.trans hset
  | push | post | direct | quit | wakeup => exact hpc
  | _ => simp

theorem pc_of_loop (hstep : s.step .loop = some t) : s.pc = .outside := by
  cases moves_of_step hstep with
  | loop hpc => exact hpc

theorem pc_of_wait {ready : List Ready} (hstep : s.step (.wait ready) = some t) :
    t.pc = .dispatch ready := by
  cases moves_of_step hstep with
  | wait => rfl

theorem call_of_wakeup {caller : Option Thread} (hstep : s.step (.wakeup caller) = some t) :
    t.call caller = .idle := by
  cases moves_of_step hstep with
  | wakeup => exact setCall_self caller _

/-- The wait ends with the dispatch of what is ready. -/
theorem beforeSwap_of_wait (hpc : s.pc = .wait) (hnot : t.pc ≠ .wait)
    (hstep : s.step a = some t) : t.pc.beforeSwap := by
  cases moves_of_step hstep with
  | wait => trivial
  | push | post | direct | quit | wakeup => exact absurd hpc hnot
  | loop hother | leaveLoop hother | enterWait hother | handleWakeup _ hother | handleOther _ hother
  | handled hother | leaveHandler _ hother | leaveFunctor hother | swap hother | start _ _ hother
  | batchDone hother => cases hpc.symm.trans hother

/-- The dispatch ends with the swap. -/
theorem swap_of_beforeSwap (hbefore : s.pc.beforeSwap) (hnot : ¬ t.pc.beforeSwap)
    (hstep : s.step a = some t) : s.pc = .swap ∧ t.functors = s.functors.swap := by
  cases moves_of_step hstep with
  | swap hpc => exact ⟨hpc, rfl⟩
  | wait | handleWakeup | handleOther | handled | leaveHandler => exact absurd trivial hnot
  | push | post | direct | quit | wakeup => exact absurd hbefore hnot
  | loop hpc | leaveLoop hpc | enterWait hpc | leaveFunctor hpc | start _ _ hpc | batchDone hpc =>
      rw [hpc] at hbefore
      exact hbefore.elim

/-- A call ends with its write. -/
theorem counter_pos_of_call {caller : Option Thread} (hcall : s.call caller ≠ .idle)
    (hidle : t.call caller = .idle) (hstep : s.step a = some t) : 0 < t.counter := by
  -- a call that another thread starts is not in the way
  have hstays {other : Option Thread} {call : Call} (hmay : s.mayCall other) :
      s.setCall other call caller ≠ .idle := by
    have hne : caller ≠ other := by
      rintro rfl
      exact hcall hmay.1
    rw [setCall_of_ne hne]
    exact hcall
  cases moves_of_step hstep with
  | wakeup => exact eventfdWrite_pos s.counter
  | push _ _ hmay | post _ _ hmay | quit _ hmay => exact absurd hidle (hstays hmay)
  | _ => exact absurd hidle hcall

/-- The eventfd stays readable during the wait. -/
theorem counter_pos_step (hpc : s.pc = .wait) (hcounter : 0 < s.counter)
    (hstep : s.step a = some t) : 0 < t.counter := by
  cases moves_of_step hstep with
  | handleWakeup _ hother => cases hpc.symm.trans hother
  | wakeup => exact eventfdWrite_pos s.counter
  | _ => exact hcounter

/-- A step does to the functors what may be done to a queue. -/
theorem functors_step (hs : s.Consistent) (hstep : s.step a = some t) :
    s.functors.Moves t.functors := by
  cases moves_of_step hstep with
  | push caller functor | post caller functor => exact .pushed [⟨functor, s.rounds⟩] rfl
  | swap hpc => exact .swapped (hs.batch_eq_nil (by simp [hpc]) (by simp [hpc])) rfl
  | start posted functors _ hnext => exact .started posted hnext
  | _ => exact .refl _

/-! ## What follows for fair schedules -/

section Fair

variable {h : (eventLoops Thread α).History Machine.anyStep} (hfair : Fair h) {m : ℕ}

/-- A loop that nobody asks to quit stays in `loop()`. -/
theorem pc_ne_outside_at (hquit : ∀ k, m ≤ k → (h.state k).quit = false)
    (hpc : (h.state m).pc ≠ .outside) {k : ℕ} (hk : m ≤ k) : (h.state k).pc ≠ .outside := by
  induction k, hk using Nat.le_induction with
  | base => exact hpc
  | succ k hk ih =>
      rcases h.rests_or_steps k with hsame | ⟨a, _, _, hstep⟩
      · rw [hsame]
        exact ih
      · exact pc_ne_outside_step (hquit k hk) ih hstep

include hfair

/-- The loop comes back to its wait. -/
theorem exists_wait (hpc : ∀ k, m ≤ k → (h.state k).pc ≠ .outside) :
    ∃ k, m ≤ k ∧ (h.state k).pc = .wait := by
  by_contra hnever
  have hnot (k : ℕ) (hk : m ≤ k) : (h.state k).pc ≠ .wait := fun hwait => hnever ⟨k, hk, hwait⟩
  have hmoves (k : ℕ) (hk : m ≤ k) {a : Action Thread α}
      (hstep : (h.state k).step a = some (h.state (k + 1))) :
      (h.state (k + 1)).toLeave ≤ (h.state k).toLeave ∧
        (a.isOwn → (h.state (k + 1)).toLeave < (h.state k).toLeave) := by
    refine toLeave_step ?_ (.inr (hnot (k + 1) (Nat.le_succ_of_le hk))) hstep
    rintro rfl
    exact hpc k hk (pc_of_loop hstep)
  obtain ⟨p, hmp, hsettled⟩ := Machine.History.exists_settled (fun k => (h.state k).toLeave) m
    fun k hk => by
      rcases h.rests_or_steps k with hsame | ⟨a, _, _, hstep⟩
      · rw [hsame]
      · exact (hmoves k hk hstep).1
  -- the thread goes on, and gets closer to the end of its turn
  obtain ⟨k, hk, a, haction, hown⟩ := hfair.goesOn p fun k hk =>
    ⟨hpc k (hmp.trans hk), hnot k (hmp.trans hk)⟩
  have hlt := (hmoves k (hmp.trans hk) (h.steps k a haction).2).2 hown
  rw [hsettled k hk, hsettled (k + 1) (Nat.le_succ_of_le hk)] at hlt
  exact lt_irrefl _ hlt

/-- Somebody makes the eventfd readable when a functor is pending. -/
theorem exists_counter_pos (hwait : (h.state m).pc = .wait)
    (hpending : (h.state m).functors.inbox ≠ []) : ∃ k, m ≤ k ∧ 0 < (h.state k).counter := by
  obtain ⟨hconsistent, hawake⟩ := awake_of_reachable (h.reachable m)
  have hlt : (h.state m).functors.taken < (h.state m).pushed.length := by
    have hinbox := List.length_pos_iff.mpr hpending
    rw [← hconsistent.contents, BatchQueue.length_contents]
    omega
  rcases hawake _ le_rfl hlt with ⟨caller, hpushed⟩ | hcounter | hbefore
  · -- its caller has yet to write
    have hcall : (h.state m).call caller ≠ .idle := by simp [hpushed]
    obtain ⟨k, hk, hidle⟩ := (hfair.writes caller).exists_ended
      (fun s a t _ _ hwrite hstep => by
        subst hwrite
        exact not_not.mpr (call_of_wakeup hstep)) m
    obtain ⟨j, a, hj, hbefore, hafter, _, _, hstep⟩ := h.exists_step
      (P := fun s => s.call caller ≠ .idle) hk hcall hidle
    exact ⟨j + 1, Nat.le_succ_of_le hj, counter_pos_of_call hbefore (not_not.mp hafter) hstep⟩
  · exact ⟨m, le_rfl, hcounter⟩
  · rw [hwait] at hbefore
    exact hbefore.elim

/-- The loop leaves its wait while a functor is pending. -/
theorem exists_not_wait (hwait : (h.state m).pc = .wait)
    (hpending : ∀ k, m ≤ k → (h.state k).functors.inbox ≠ []) :
    ∃ k, m ≤ k ∧ (h.state k).pc ≠ .wait := by
  by_contra hnever
  have hforever (k : ℕ) (hk : m ≤ k) : (h.state k).pc = .wait := by
    by_contra hnot
    exact hnever ⟨k, hk, hnot⟩
  obtain ⟨p, hmp, hcounter⟩ := exists_counter_pos hfair hwait (hpending m le_rfl)
  have hreadable (k : ℕ) (hk : p ≤ k) : 0 < (h.state k).counter := by
    induction k, hk using Nat.le_induction with
    | base => exact hcounter
    | succ k hk ih =>
        rcases h.rests_or_steps k with hsame | ⟨a, _, _, hstep⟩
        · rw [hsame]
          exact ih
        · exact counter_pos_step (hforever k (hmp.trans hk)) ih hstep
  obtain ⟨k, hk, hnot⟩ := hfair.polls.exists_ended (fun s a t _ _ ⟨ready, hready⟩ hstep => by
    subst hready
    simp [pc_of_wait hstep]) p
  exact hnot ⟨hforever k (hmp.trans hk), hreadable k hk⟩

/-- The pending functors are taken. -/
theorem exists_swap (hpc : ∀ k, m ≤ k → (h.state k).pc ≠ .outside)
    (hpending : ∀ k, m ≤ k → (h.state k).functors.inbox ≠ []) :
    ∃ k, m ≤ k ∧ (h.state k).functors.batch = [] ∧
      (h.state (k + 1)).functors = (h.state k).functors.swap := by
  obtain ⟨w, hw, hwait⟩ := exists_wait hfair hpc
  obtain ⟨k, hk, hnot⟩ := exists_not_wait hfair hwait fun k hk => hpending k (hw.trans hk)
  obtain ⟨j, a, hj, hbefore, hafter, _, _, hleaves⟩ := h.exists_step
    (P := fun s => s.pc = .wait) hk hwait hnot
  have hdispatch := beforeSwap_of_wait hbefore hafter hleaves
  obtain ⟨w', hw', hwait'⟩ := exists_wait hfair (m := j + 1) fun k hk => hpc k (by omega)
  obtain ⟨j', b, hj', hbefore', hafter', _, _, hswaps⟩ := h.exists_step
    (P := fun s => s.pc.beforeSwap) hw' hdispatch (by simp [hwait', Pc.beforeSwap])
  obtain ⟨hswap, hfunctors⟩ := swap_of_beforeSwap hbefore' hafter' hswaps
  have hconsistent := consistent_of_reachable (h.reachable j')
  exact ⟨j', by omega, hconsistent.batch_eq_nil (by simp [hswap]) (by simp [hswap]), hfunctors⟩

end Fair

/-- **Posted functors are run.** Under every fair schedule, a functor that has
been posted while the loop thread is in `loop()`, by whichever thread and
wherever the loop thread is, is started sooner or later, in the place in which
it was posted, unless the loop is asked to quit. -/
theorem posted_functors_run (h : (eventLoops Thread α).History Machine.anyStep) (hfair : Fair h)
    {m i : ℕ} {posted : Posted α} (hposted : (h.state m).pushed[i]? = some posted)
    (hpc : (h.state m).pc ≠ .outside) :
    ∃ k, m ≤ k ∧
      ((h.state k).functors.started[i]? = some posted ∨ (h.state k).quit = true) := by
  by_cases hasked : ∃ k, m ≤ k ∧ (h.state k).quit = true
  · obtain ⟨k, hk, hquit⟩ := hasked
    exact ⟨k, hk, .inr hquit⟩
  · have hquit (k : ℕ) (hk : m ≤ k) : (h.state k).quit = false := by
      by_contra hset
      exact hasked ⟨k, hk, Bool.not_eq_false _ ▸ hset⟩
    have hin (k : ℕ) (hk : m ≤ k) : (h.state k).pc ≠ .outside := pc_ne_outside_at hquit hpc hk
    have hdrains (k : ℕ) (hk : m ≤ k) : ∃ w, k ≤ w ∧ (h.state w).functors.batch = [] := by
      obtain ⟨w, hw, hwait⟩ := exists_wait hfair (m := k) fun k' hk' => hin k' (hk.trans hk')
      have hconsistent := consistent_of_reachable (h.reachable w)
      exact ⟨w, hw, hconsistent.batch_eq_nil (by simp [hwait]) (by simp [hwait])⟩
    rw [← (consistent_of_reachable (h.reachable m)).contents] at hposted
    obtain ⟨k, hk, hstarted⟩ := h.exists_started EventLoop.functors
      (fun s a t hreach _ hstep => functors_step (consistent_of_reachable hreach) hstep)
      (exists_swap hfair hin) hdrains hposted
    exact ⟨k, hk, .inl hstarted⟩

/-- A caller posts a functor while the loop waits, and the loop waits again. -/
def postAtWait : List (Action Unit ℕ) :=
  [.loop, .test, .push (some ()) 1, .wakeup (some ()), .wait [.wakeup], .handle, .handle, .swap,
    .next, .leave, .next, .test]

/-- The functor is pending, and its caller has yet to write. -/
theorem posted_functors_run_at_wait :
    ∃ h : (eventLoops Unit ℕ).History Machine.anyStep, Fair h ∧
      (h.state 3).pc = .wait ∧ (h.state 3).functors.inbox = [⟨1, 0⟩] ∧
        ∃ k, 3 ≤ k ∧ (h.state k).functors.started[0]? = some ⟨1, 0⟩ := by
  have hruns : ((eventLoops Unit ℕ).run .create postAtWait).isSome := by decide
  obtain ⟨t, ht⟩ := Option.isSome_iff_exists.mp hruns
  obtain ⟨h, hstates⟩ := Machine.History.exists_of_run (M := eventLoops Unit ℕ) rfl ht
    (Machine.follows_anyStep _ _)
  -- what is found in the run is found in the history
  have hfound (k : ℕ) {P : EventLoop Unit ℕ → Prop} [DecidablePred P]
      (hrun : ((eventLoops Unit ℕ).run .create (postAtWait.take k)).any (fun s => decide (P s))) :
      P (h.state k) := by
    rw [hstates k] at hrun
    exact of_decide_eq_true hrun
  have hend (k : ℕ) (hk : 12 ≤ k) : h.state k = h.state 12 := by
    have hall := hstates k
    rw [List.take_of_length_le hk, ← List.take_of_length_le (l := postAtWait) le_rfl] at hall
    exact Option.some.inj (hall.symm.trans (hstates 12))
  have hfair : Fair h := by
    apply fair_of_asleep (m := 12)
    · intro k hk
      rw [hend k hk]
      exact hfound 12 (P := fun s => s.pc = .wait) (by decide)
    · intro k hk
      rw [hend k hk]
      exact hfound 12 (P := fun s => s.counter = 0) (by decide)
    · intro k caller hk
      rw [hend k hk]
      have hidle := hfound 12 (P := fun s => ∀ caller ∈ [none, some ()], s.call caller = .idle)
        (by decide)
      exact hidle caller (by cases caller <;> simp)
  have hquit (k : ℕ) : (h.state k).quit = false := by
    rcases Nat.lt_or_ge k 12 with hk | hk
    · have hall : ∀ k, k < 12 → ((eventLoops Unit ℕ).run .create (postAtWait.take k)).any
          (fun s => decide (s.quit = false)) := by decide
      exact hfound k (hall k hk)
    · rw [hend k hk]
      exact hfound 12 (P := fun s => s.quit = false) (by decide)
  obtain ⟨k, hk, hstarted | hasked⟩ := posted_functors_run h hfair (m := 3) (i := 0)
    (hfound 3 (P := fun s => s.pushed[0]? = some ⟨1, 0⟩) (by decide))
    (hfound 3 (P := fun s => s.pc ≠ .outside) (by decide))
  · exact ⟨h, hfair, hfound 3 (P := fun s => s.pc = .wait) (by decide),
      hfound 3 (P := fun s => s.functors.inbox = [⟨1, 0⟩]) (by decide), k, hk, hstarted⟩
  · cases (hquit k).symm.trans hasked

end EventLoop

end EpollHttpServer.Reactor
