/-
# Descriptors and the objects that own them

A `Socket` owns its descriptor if its flag is set and the descriptor is not
negative.  A move takes both away from the other object, while `release` clears
the flag and keeps the number, so the number alone does not say who will close
a descriptor.  Here any number of objects is constructed, moved, released and
destroyed in any order, and the kernel keeps the set of open descriptors.

What the objects do to the descriptors are transfers of custody: constructing
claims, moving passes on, destroying and assigning over dispose, and `release`
lets go.
-/

import EpollHttpServer.Lib.Custody
import Mathlib.Data.Finset.Insert
import Mathlib.Data.Finset.SDiff

namespace EpollHttpServer.Reactor

open EpollHttpServer.Lib

/-! ## One object -/

/-- `class Socket`. -/
structure Socket where
  fd : ℤ
  owned : Bool
  deriving DecidableEq, Repr

namespace Socket

/-- `Socket()`, when `::socket` has returned `answer`, which is negative if it
has failed. -/
def create (answer : ℤ) : Socket where
  fd := answer
  owned := true

/-- `Socket(int fd)` -/
def ofFd (fd : ℤ) : Socket where
  fd := fd
  owned := true

/-- `~Socket()`: the descriptors it passes to `::close`. -/
def destruct (s : Socket) : List ℤ :=
  if s.owned && decide (0 ≤ s.fd) then [s.fd] else []

/-- `Socket(Socket&& other)`: the new object and what is left of the other one. -/
def moveConstruct (other : Socket) : Socket × Socket :=
  ({ fd := other.fd, owned := other.owned }, { fd := -1, owned := false })

/-- `operator=(Socket&& other)` behind the test `this != &other`: the descriptors
it passes to `::close`, this object and what is left of the other one. -/
def moveAssign (s other : Socket) : List ℤ × Socket × Socket :=
  (if s.owned && decide (0 ≤ s.fd) then [s.fd] else [],
    { fd := other.fd, owned := other.owned }, { fd := -1, owned := false })

/-- `release()`: the descriptor it returns and the object. -/
def release (s : Socket) : ℤ × Socket :=
  (s.fd, { s with owned := false })

/-- The descriptor that the object owns. -/
def descriptor (s : Socket) : Option ℤ :=
  if s.owned && decide (0 ≤ s.fd) then some s.fd else none

theorem destruct_eq (s : Socket) : s.destruct = s.descriptor.toList := by
  unfold destruct descriptor
  split <;> rfl

theorem moveAssign_fst (s other : Socket) : (s.moveAssign other).1 = s.descriptor.toList :=
  s.destruct_eq

theorem descriptor_ofFd {fd : ℤ} (hvalid : 0 ≤ fd) : (ofFd fd).descriptor = some fd := by
  simp [descriptor, ofFd, hvalid]

theorem descriptor_failed {answer : ℤ} (hfailed : answer < 0) :
    (create answer).descriptor = none := by
  simp [descriptor, create, not_le.mpr hfailed]

@[simp]
theorem descriptor_release (s : Socket) : s.release.2.descriptor = none := rfl

@[simp]
theorem descriptor_moveConstruct (other : Socket) :
    other.moveConstruct.1.descriptor = other.descriptor := rfl

@[simp]
theorem descriptor_moveConstruct_other (other : Socket) :
    other.moveConstruct.2.descriptor = none := rfl

@[simp]
theorem descriptor_moveAssign (s other : Socket) :
    (s.moveAssign other).2.1.descriptor = other.descriptor := rfl

@[simp]
theorem descriptor_moveAssign_other (s other : Socket) :
    (s.moveAssign other).2.2.descriptor = none := rfl

end Socket

/-! ## Programs over objects -/

abbrev SocketId : Type := ℕ

/-- What a program does with objects, and what the kernel answers it. -/
inductive SocketOp where
  | create (id : SocketId) (answer : ℤ)
  | construct (id : SocketId) (fd : ℤ)
  | moveConstruct (id other : SocketId)
  | moveAssign (id other : SocketId)
  | release (id : SocketId)
  | destroy (id : SocketId)
  deriving DecidableEq, Repr

/-- The object is destroyed, or another one is assigned to it. -/
def SocketOp.Ends (op : SocketOp) (id : SocketId) : Prop :=
  op = .destroy id ∨ ∃ other, other ≠ id ∧ op = .moveAssign id other

/-- The objects that are alive, and the descriptors. -/
structure Sockets where
  objects : SocketId → Option Socket
  openFds : Finset ℤ
  /-- Every descriptor that an object has been constructed from. -/
  constructed : List ℤ
  /-- Every call of `::close`, with the object that has made it. -/
  closes : List (SocketId × ℤ)

namespace Sockets

/-- Some descriptors are open, and there are no objects yet. -/
def start (openFds : Finset ℤ) : Sockets where
  objects _ := none
  openFds := openFds
  constructed := []
  closes := []

def setObject (s : Sockets) (id : SocketId) (object : Option Socket) : Sockets :=
  { s with objects := Function.update s.objects id object }

def close (s : Sockets) (id : SocketId) (fds : List ℤ) : Sockets :=
  { s with
    openFds := s.openFds \ fds.toFinset
    closes := s.closes ++ fds.map (id, ·) }

/-- The descriptor that an object owns, if it is alive and owns one. -/
def owned (s : Sockets) (id : SocketId) : Option ℤ :=
  (s.objects id).bind Socket.descriptor

def Owns (s : Sockets) (id : SocketId) (fd : ℤ) : Prop :=
  s.owned id = some fd

instance (s : Sockets) (id : SocketId) (fd : ℤ) : Decidable (s.Owns id fd) :=
  inferInstanceAs (Decidable (_ = _))

/-- Objects are constructed where there is none, and only those that are alive
are used.  `::socket` answers with a number that is not in use. -/
def sockets : Machine Sockets SocketOp where
  init s := ∃ openFds, s = start openFds
  step s
    | .create id answer =>
      match s.objects id with
      | some _ => none
      | none =>
        let s := s.setObject id (some (Socket.create answer))
        if answer < 0 then some s
        else if answer ∈ s.openFds then none
        else some { s with
          openFds := insert answer s.openFds
          constructed := s.constructed ++ [answer] }
    | .construct id fd =>
      match s.objects id with
      | some _ => none
      | none => some { s.setObject id (some (Socket.ofFd fd)) with
          constructed := s.constructed ++ [fd] }
    | .moveConstruct id other =>
      match s.objects id, s.objects other with
      | none, some source =>
        let (object, source) := source.moveConstruct
        some ((s.setObject id (some object)).setObject other (some source))
      | _, _ => none
    | .moveAssign id other =>
      match s.objects id, s.objects other with
      | some object, some source =>
        if id = other then some s
        else
          let (fds, object, source) := object.moveAssign source
          some (((s.close id fds).setObject id (some object)).setObject other (some source))
      | _, _ => none
    | .release id =>
      match s.objects id with
      | some object => some (s.setObject id (some object.release.2))
      | none => none
    | .destroy id =>
      match s.objects id with
      | some object => some ((s.close id object.destruct).setObject id none)
      | none => none

/-- Every object is constructed from an open descriptor of its own. -/
def distinctFds : Machine.Discipline Sockets SocketOp
  | s, .create _ answer => answer ∉ s.constructed
  | s, .construct _ fd => 0 ≤ fd ∧ fd ∈ s.openFds ∧ fd ∉ s.constructed
  | _, _ => True

instance (s : Sockets) (op : SocketOp) : Decidable (distinctFds s op) :=
  match op with
  | .create _ _ => inferInstanceAs (Decidable (_ ∉ _))
  | .construct _ _ => inferInstanceAs (Decidable (_ ∧ _ ∧ _))
  | .moveConstruct _ _ | .moveAssign _ _ | .release _ | .destroy _ =>
    inferInstanceAs (Decidable True)

/-! ## One operation -/

/-- What an operation does, by what it has found. -/
inductive Change (s : Sockets) : SocketOp → Sockets → Prop where
  | failed (id : SocketId) (answer : ℤ) (hfree : s.objects id = none) (hfailed : answer < 0) :
      Change s (.create id answer) (s.setObject id (some (Socket.create answer)))
  | create (id : SocketId) (answer : ℤ) (hfree : s.objects id = none) (hvalid : 0 ≤ answer)
      (hnew : answer ∉ s.openFds) :
      Change s (.create id answer) { s.setObject id (some (Socket.create answer)) with
        openFds := insert answer s.openFds
        constructed := s.constructed ++ [answer] }
  | construct (id : SocketId) (fd : ℤ) (hfree : s.objects id = none) :
      Change s (.construct id fd) { s.setObject id (some (Socket.ofFd fd)) with
        constructed := s.constructed ++ [fd] }
  | moveConstruct (id other : SocketId) (source : Socket) (hfree : s.objects id = none)
      (hsource : s.objects other = some source) :
      Change s (.moveConstruct id other)
        ((s.setObject id (some source.moveConstruct.1)).setObject other
          (some source.moveConstruct.2))
  | selfAssign (id : SocketId) : Change s (.moveAssign id id) s
  | moveAssign (id other : SocketId) (object source : Socket) (hne : id ≠ other)
      (hobject : s.objects id = some object) (hsource : s.objects other = some source) :
      Change s (.moveAssign id other)
        (((s.close id (object.moveAssign source).1).setObject id
          (some (object.moveAssign source).2.1)).setObject other
            (some (object.moveAssign source).2.2))
  | release (id : SocketId) (object : Socket) (hobject : s.objects id = some object) :
      Change s (.release id) (s.setObject id (some object.release.2))
  | destroy (id : SocketId) (object : Socket) (hobject : s.objects id = some object) :
      Change s (.destroy id) ((s.close id object.destruct).setObject id none)

theorem change_of_step {s t : Sockets} {op : SocketOp} (hstep : sockets.step s op = some t) :
    Change s op t := by
  cases op with
  | create id answer =>
      simp only [sockets] at hstep
      split at hstep
      · cases hstep
      · next hfree =>
        split_ifs at hstep with hfailed hused
        · cases hstep
          exact .failed id answer hfree hfailed
        · cases hstep
          exact .create id answer hfree (not_lt.mp hfailed) hused
  | construct id fd =>
      simp only [sockets] at hstep
      split at hstep
      · cases hstep
      · next hfree =>
        cases hstep
        exact .construct id fd hfree
  | moveConstruct id other =>
      simp only [sockets] at hstep
      split at hstep
      · next source hfree hsource =>
        cases hstep
        exact .moveConstruct id other source hfree hsource
      · cases hstep
  | moveAssign id other =>
      simp only [sockets] at hstep
      split at hstep
      · next object source hobject hsource =>
        split_ifs at hstep with hsame
        · cases hstep
          subst hsame
          exact .selfAssign id
        · cases hstep
          exact .moveAssign id other object source hsame hobject hsource
      · cases hstep
  | release id =>
      simp only [sockets] at hstep
      split at hstep
      · next object hobject =>
        cases hstep
        exact .release id object hobject
      · cases hstep
  | destroy id =>
      simp only [sockets] at hstep
      split at hstep
      · next object hobject =>
        cases hstep
        exact .destroy id object hobject
      · cases hstep

variable {s t : Sockets} {id other : SocketId} {fd : ℤ}

theorem owned_of_object {object : Socket} (hobject : s.objects id = some object) :
    s.owned id = object.descriptor := by
  rw [owned, hobject, Option.bind_some]

theorem owned_of_free (hfree : s.objects id = none) : s.owned id = none := by
  rw [owned, hfree, Option.bind_none]

@[simp]
theorem owned_setObject (s : Sockets) (id : SocketId) (object : Option Socket) :
    (s.setObject id object).owned =
      Function.update s.owned id (object.bind Socket.descriptor) := by
  funext other
  show (Function.update s.objects id object other).bind Socket.descriptor = _
  rw [Function.update_apply, Function.update_apply]
  split
  · rfl
  · rfl

@[simp]
theorem owned_close (s : Sockets) (id : SocketId) (fds : List ℤ) :
    (s.close id fds).owned = s.owned := rfl

/-! ## Operations as transfers of custody -/

/-- What an operation does to the descriptors that are owned. -/
def transfers (s : Sockets) : SocketOp → List (Transfer ℤ SocketId)
  | .create id answer => if answer < 0 then [] else [.claim answer id]
  | .construct id fd => [.claim fd id]
  | .moveConstruct id other => (s.owned other).toList.map (.pass · other id)
  | .moveAssign id other =>
    if id = other then []
    else (s.owned id).toList.map (.dispose · id) ++ (s.owned other).toList.map (.pass · other id)
  | .release id => (s.owned id).toList.map (.letGo · id)
  | .destroy id => (s.owned id).toList.map (.dispose · id)

/-- The custody of the descriptors, as the objects and the kernel have it. -/
structure Tracks (s : Sockets) (c : ℤ → Custody SocketId) : Prop where
  held : Custody.Held s.owned c
  constructed : ∀ fd, fd ∈ s.constructed ↔ c fd ≠ .unclaimed
  openFds : ∀ fd ∈ s.constructed, fd ∈ s.openFds ↔ c fd ≠ .disposed

theorem tracks_start (openFds : Finset ℤ) : (start openFds).Tracks fun _ => .unclaimed where
  held id fd := by
    constructor
    · intro howned
      cases howned
    · intro hplace
      cases hplace
  constructed fd := by simp [start]
  openFds fd hmem := by cases hmem

variable {c : ℤ → Custody SocketId}

/-- What an object owns has been constructed, and stays so wherever it is put. -/
theorem Tracks.constructed_move (htracks : s.Tracks c) (id : SocketId) {fate : Custody SocketId}
    (hfate : fate ≠ .unclaimed) (fd : ℤ) :
    fd ∈ s.constructed ↔ Custody.move c (s.owned id) fate fd ≠ .unclaimed := by
  rw [htracks.constructed fd, Custody.move_apply]
  split
  · next howned =>
    have hheld := (htracks.held id fd).mp howned
    simp [hheld, hfate]
  · rfl

/-- What is not closed stays open. -/
theorem Tracks.openFds_move (htracks : s.Tracks c) (id : SocketId) {fate : Custody SocketId}
    (hfate : fate ≠ .disposed) (fd : ℤ) (hmem : fd ∈ s.constructed) :
    fd ∈ s.openFds ↔ Custody.move c (s.owned id) fate fd ≠ .disposed := by
  rw [htracks.openFds fd hmem, Custody.move_apply]
  split
  · next howned =>
    have hheld := (htracks.held id fd).mp howned
    simp [hheld, hfate]
  · rfl

theorem Tracks.letGo (htracks : s.Tracks c) (howned : t.owned = Function.update s.owned id none)
    (hconstructed : t.constructed = s.constructed) (hopen : t.openFds = s.openFds) :
    t.Tracks (Custody.move c (s.owned id) .left) where
  held := by
    rw [howned]
    exact htracks.held.empty id nofun
  constructed := by
    rw [hconstructed]
    exact htracks.constructed_move id nofun
  openFds := by
    rw [hconstructed, hopen]
    exact htracks.openFds_move id nofun

theorem Tracks.pass (htracks : s.Tracks c) (hne : id ≠ other) (hempty : s.owned id = none)
    (howned : t.owned =
      Function.update (Function.update s.owned id (s.owned other)) other none)
    (hconstructed : t.constructed = s.constructed) (hopen : t.openFds = s.openFds) :
    t.Tracks (Custody.move c (s.owned other) (.held id)) where
  held := by
    rw [howned]
    exact htracks.held.handOver hne hempty
  constructed := by
    rw [hconstructed]
    exact htracks.constructed_move other nofun
  openFds := by
    rw [hconstructed, hopen]
    exact htracks.openFds_move other nofun

/-- The object closes what it owns and has nothing afterwards. -/
theorem Tracks.dispose (htracks : s.Tracks c) (id : SocketId) :
    ((s.close id (s.owned id).toList).setObject id none).Tracks
      (Custody.move c (s.owned id) .disposed) where
  held := by
    rw [owned_setObject, owned_close]
    exact htracks.held.empty id nofun
  constructed := htracks.constructed_move id nofun
  openFds := by
    intro fd hmem
    show fd ∈ s.openFds \ (s.owned id).toList.toFinset ↔ _
    rw [Finset.mem_sdiff, List.mem_toFinset, Option.mem_toList, htracks.openFds fd hmem,
      Custody.move_apply]
    split
    · next hclosed => simp [hclosed]
    · next hkept => simp [hkept]

theorem Tracks.claim (htracks : s.Tracks c) (hfree : s.owned id = none)
    (hnew : fd ∉ s.constructed) (howned : t.owned = Function.update s.owned id (some fd))
    (hconstructed : t.constructed = s.constructed ++ [fd]) (hvalid : fd ∈ t.openFds)
    (hopen : ∀ fd' ≠ fd, fd' ∈ t.openFds ↔ fd' ∈ s.openFds) :
    t.Tracks (Custody.move c (some fd) (.held id)) where
  held := by
    rw [howned]
    refine htracks.held.fill hfree ?_
    intro fd' hfd other hother
    cases hfd
    have hheld := (htracks.held other fd).mp hother
    refine hnew ((htracks.constructed fd).mpr ?_)
    rw [hheld]
    exact nofun
  constructed := by
    intro fd'
    rw [hconstructed, List.mem_append, List.mem_singleton, htracks.constructed fd',
      Custody.move_apply]
    by_cases hfd : fd' = fd
    · simp [hfd]
    · simp [hfd, Ne.symm hfd]
  openFds := by
    intro fd' hmem
    rw [hconstructed, List.mem_append, List.mem_singleton] at hmem
    rw [Custody.move_apply]
    by_cases hfd : fd' = fd
    · subst hfd
      simp [hvalid]
    · have hold := htracks.openFds fd' (hmem.resolve_right hfd)
      rw [hopen fd' hfd, hold]
      simp [Ne.symm hfd]

theorem Tracks.of_same (htracks : s.Tracks c) (howned : t.owned = s.owned)
    (hconstructed : t.constructed = s.constructed) (hopen : t.openFds = s.openFds) :
    t.Tracks c where
  held := by
    rw [howned]
    exact htracks.held
  constructed := by
    rw [hconstructed]
    exact htracks.constructed
  openFds := by
    rw [hconstructed, hopen]
    exact htracks.openFds

/-- Whatever an object does to its descriptor, it has custody of it. -/
theorem Tracks.run_transfer (htracks : s.Tracks c) (id : SocketId) {fate : Custody SocketId}
    {f : ℤ → Transfer ℤ SocketId} (hresource : ∀ fd, (f fd).resource = fd)
    (hbefore : ∀ fd, (f fd).before = .held id) (hafter : ∀ fd, (f fd).after = fate) :
    (custodians ℤ SocketId).run c ((s.owned id).toList.map f) =
      some (Custody.move c (s.owned id) fate) := by
  apply Custody.run_move hresource hafter
  intro fd howned
  rw [hbefore]
  exact (htracks.held id fd).mp howned

theorem Tracks.run_claim (htracks : s.Tracks c) (id : SocketId) (hnew : fd ∉ s.constructed) :
    (custodians ℤ SocketId).run c [.claim fd id] =
      some (Custody.move c (some fd) (.held id)) := by
  have hunclaimed : ∀ fd', some fd = some fd' → c fd' = .unclaimed := by
    intro fd' hfd
    cases hfd
    by_contra hclaimed
    exact hnew ((htracks.constructed fd).mpr hclaimed)
  exact Custody.run_move (f := (.claim · id)) (fun _ => rfl) (fun _ => rfl) hunclaimed

/-- An object is assigned to another one: first this one disposes of what it owns,
then it takes over from the other one. -/
theorem Tracks.assign (htracks : s.Tracks c) {object source : Socket} (hne : id ≠ other)
    (hobject : s.objects id = some object) (hsource : s.objects other = some source) :
    ∃ d, (custodians ℤ SocketId).run c (s.transfers (.moveAssign id other)) = some d ∧
      (((s.close id (object.moveAssign source).1).setObject id
        (some (object.moveAssign source).2.1)).setObject other
          (some (object.moveAssign source).2.2)).Tracks d := by
  have hdisposed := htracks.dispose id
  set between := (s.close id (s.owned id).toList).setObject id none with hset
  have howned : between.owned = Function.update s.owned id none := by
    rw [hset, owned_setObject, owned_close]
    rfl
  have hother : between.owned other = s.owned other := by
    rw [howned, Function.update_of_ne hne.symm]
  have hempty : between.owned id = none := by
    rw [howned, Function.update_self]
  have hclosed : (object.moveAssign source).1 = (s.owned id).toList := by
    rw [Socket.moveAssign_fst, owned_of_object hobject]
  refine ⟨_, ?_, hdisposed.pass hne hempty ?_ rfl ?_⟩
  · have hgone : (custodians ℤ SocketId).run c ((s.owned id).toList.map (.dispose · id)) =
        some (Custody.move c (s.owned id) .disposed) :=
      htracks.run_transfer id (fun _ => rfl) (fun _ => rfl) (fun _ => rfl)
    rw [transfers, if_neg hne, Machine.run_append, hgone, Option.bind_some, ← hother]
    exact hdisposed.run_transfer other (fun _ => rfl) (fun _ => rfl) (fun _ => rfl)
  · rw [hother, howned, owned_of_object hsource]
    simp
  · rw [hclosed]
    rfl

/-- An operation that constructs from distinct descriptors is a sequence of
transfers by those who have custody. -/
theorem tracks_step {op : SocketOp} (htracks : s.Tracks c) (hdistinct : distinctFds s op)
    (hstep : sockets.step s op = some t) :
    ∃ d, (custodians ℤ SocketId).run c (s.transfers op) = some d ∧ t.Tracks d := by
  cases change_of_step hstep with
  | failed id answer hfree hfailed =>
      refine ⟨c, ?_, ?_⟩
      · rw [transfers, if_pos hfailed]
        rfl
      · refine htracks.of_same ?_ rfl rfl
        rw [owned_setObject, Option.bind_some, Socket.descriptor_failed hfailed,
          ← owned_of_free hfree, Function.update_eq_self]
  | create id answer hfree hvalid hnew =>
      refine ⟨_, ?_, htracks.claim (owned_of_free hfree) hdistinct ?_ rfl ?_ ?_⟩
      · rw [transfers, if_neg (not_lt.mpr hvalid)]
        exact htracks.run_claim id hdistinct
      · show (s.setObject id _).owned = _
        rw [owned_setObject, Option.bind_some]
        exact congrArg _ (Socket.descriptor_ofFd hvalid)
      · exact Finset.mem_insert_self ..
      · intro fd hfd
        simp [hfd]
  | construct id fd hfree =>
      obtain ⟨hvalid, hopen, hnew⟩ := hdistinct
      refine ⟨_, htracks.run_claim id hnew,
        htracks.claim (owned_of_free hfree) hnew ?_ rfl hopen ?_⟩
      · show (s.setObject id _).owned = _
        rw [owned_setObject, Option.bind_some, Socket.descriptor_ofFd hvalid]
      · exact fun _ _ => Iff.rfl
  | moveConstruct id other source hfree hsource =>
      have hne : id ≠ other := by
        rintro rfl
        cases hfree.symm.trans hsource
      refine ⟨_, htracks.run_transfer other (fun _ => rfl) (fun _ => rfl) (fun _ => rfl),
        htracks.pass hne (owned_of_free hfree) ?_ rfl rfl⟩
      simp [owned_of_object hsource]
  | selfAssign id =>
      refine ⟨c, ?_, htracks⟩
      rw [transfers, if_pos rfl]
      rfl
  | moveAssign id other object source hne hobject hsource =>
      exact htracks.assign hne hobject hsource
  | release id object hobject =>
      refine ⟨_, htracks.run_transfer id (fun _ => rfl) (fun _ => rfl) (fun _ => rfl),
        htracks.letGo ?_ rfl rfl⟩
      simp
  | destroy id object hobject =>
      refine ⟨_, htracks.run_transfer id (fun _ => rfl) (fun _ => rfl) (fun _ => rfl), ?_⟩
      rw [Socket.destruct_eq, ← owned_of_object hobject]
      exact htracks.dispose id

/-- Every call of `::close` is a disposal. -/
theorem closes_step {op : SocketOp} (hstep : sockets.step s op = some t) :
    t.closes = s.closes ++ (s.transfers op).filterMap Transfer.disposal := by
  cases change_of_step hstep with
  | failed id answer hfree hfailed => simp [transfers, hfailed, setObject]
  | create id answer hfree hvalid hnew =>
      simp [transfers, not_lt.mpr hvalid, setObject, Transfer.disposal]
  | construct id fd hfree => simp [transfers, setObject, Transfer.disposal]
  | moveConstruct id other source hfree hsource =>
      rw [transfers, Transfer.filterMap_disposal_pass, List.append_nil]
      rfl
  | selfAssign id => simp [transfers]
  | moveAssign id other object source hne hobject hsource =>
      rw [transfers, if_neg hne, List.filterMap_append, Transfer.filterMap_disposal_dispose,
        Transfer.filterMap_disposal_pass, List.append_nil, owned_of_object hobject,
        ← Socket.moveAssign_fst object source]
      rfl
  | release id object hobject =>
      rw [transfers, Transfer.filterMap_disposal_letGo, List.append_nil]
      rfl
  | destroy id object hobject =>
      rw [transfers, Transfer.filterMap_disposal_dispose, owned_of_object hobject,
        ← Socket.destruct_eq]
      rfl

/-- A descriptor is disposed of by the object that owns it, at its end. -/
theorem owns_of_dispose {op : SocketOp} (hmem : .dispose fd id ∈ s.transfers op) :
    s.Owns id fd ∧ op.Ends id := by
  cases op with
  | create id' answer =>
      rw [transfers] at hmem
      split at hmem
      · cases hmem
      · simp at hmem
  | construct id' fd' => simp [transfers] at hmem
  | moveConstruct id' other => simp [transfers] at hmem
  | moveAssign id' other =>
      by_cases hsame : id' = other
      · simp [transfers, hsame] at hmem
      · simp only [transfers, hsame, if_false, List.mem_append, List.mem_map, Option.mem_toList,
          Transfer.dispose.injEq, reduceCtorEq, and_false, exists_false, or_false] at hmem
        obtain ⟨_, howned, rfl, rfl⟩ := hmem
        exact ⟨howned, .inr ⟨other, Ne.symm hsame, rfl⟩⟩
  | release id' => simp [transfers] at hmem
  | destroy id' =>
      simp only [transfers, List.mem_map, Option.mem_toList, Transfer.dispose.injEq] at hmem
      obtain ⟨_, howned, rfl, rfl⟩ := hmem
      exact ⟨howned, .inl rfl⟩

/-- Only `release` lets go, and only of what the object owns. -/
theorem letGo_mem_iff {op : SocketOp} :
    .letGo fd id ∈ s.transfers op ↔ op = .release id ∧ s.Owns id fd := by
  cases op with
  | create id' answer =>
      rw [transfers]
      split <;> simp
  | construct id' fd' => simp [transfers]
  | moveConstruct id' other => simp [transfers]
  | moveAssign id' other =>
      rw [transfers]
      split <;> simp
  | release id' =>
      simp only [transfers, Owns, List.mem_map, Option.mem_toList, Transfer.letGo.injEq,
        SocketOp.release.injEq]
      constructor
      · rintro ⟨_, howned, rfl, rfl⟩
        exact ⟨rfl, howned⟩
      · rintro ⟨rfl, howned⟩
        exact ⟨fd, howned, rfl, rfl⟩
  | destroy id' => simp [transfers]

/-! ## Programs -/

/-- At some point of the program `release` is called on the object that owns the
descriptor. -/
def ReleasedIn (s : Sockets) (program : List SocketOp) (fd : ℤ) : Prop :=
  ∃ before id after here, program = before ++ .release id :: after ∧
    sockets.run s before = some here ∧ here.Owns id fd

theorem releasedIn_iff {program : List SocketOp} (hrun : sockets.run s program = some t) (fd : ℤ) :
    s.ReleasedIn program fd ↔ ∃ id, .letGo fd id ∈ sockets.traced transfers s program := by
  constructor
  · rintro ⟨before, id, after, here, hprogram, hhere, howns⟩
    exact ⟨id, (Machine.mem_traced hrun).mpr
      ⟨before, _, after, here, hprogram, hhere, letGo_mem_iff.mpr ⟨rfl, howns⟩⟩⟩
  · rintro ⟨id, hmem⟩
    obtain ⟨before, op, after, here, hprogram, hhere, hletGo⟩ := (Machine.mem_traced hrun).mp hmem
    obtain ⟨rfl, howns⟩ := letGo_mem_iff.mp hletGo
    exact ⟨before, id, after, here, hprogram, hhere, howns⟩

/-- **Every descriptor has one owner, who closes it or releases it.** After
every program that constructs objects from distinct open descriptors and then
moves, releases and destroys them in any order: no two objects own one
descriptor, no descriptor has been closed twice, and whatever operation comes
next, only the object that it destroys or assigns to closes something, namely
what it owns.  Once no object is left, exactly those descriptors are still open
that have been released by their owner. -/
theorem descriptors_owned_linearly {openFds : Finset ℤ} {program : List SocketOp} {s : Sockets}
    (hrun : sockets.run (start openFds) program = some s)
    (hdistinct : sockets.Follows distinctFds (start openFds) program) :
    (∀ fd id id', s.Owns id fd → s.Owns id' fd → id = id') ∧
    (∀ fd, (s.closes.map Prod.snd).count fd ≤ 1) ∧
    (∀ op t, sockets.step s op = some t → ∃ calls, t.closes = s.closes ++ calls ∧
      ∀ id fd, (id, fd) ∈ calls → s.Owns id fd ∧ op.Ends id) ∧
    ((∀ id, s.objects id = none) → ∀ fd,
      (fd ∈ s.constructed ∧ fd ∈ s.openFds) ↔ (start openFds).ReleasedIn program fd) := by
  obtain ⟨c, hcustody, htracks⟩ := Machine.run_simulated (N := custodians ℤ SocketId)
    (fun _ _ _ _ => tracks_step) (tracks_start openFds) hrun hdistinct
  refine ⟨?_, ?_, ?_, ?_⟩
  · intro fd id id' howns howns'
    exact htracks.held.unique howns howns'
  · intro fd
    have hcloses := Machine.log_of_run (fun _ _ _ => closes_step) hrun
    rw [hcloses]
    exact Custody.count_disposals_le hcustody fd
  · intro op t hstep
    refine ⟨_, closes_step hstep, ?_⟩
    intro id fd hmem
    obtain ⟨transfer, hmem, hdisposal⟩ := List.mem_filterMap.mp hmem
    rw [Transfer.disposal_eq_some_iff.mp hdisposal] at hmem
    exact owns_of_dispose hmem
  · intro hdestroyed fd
    rw [releasedIn_iff hrun, ← Custody.eq_left_iff hcustody nofun, htracks.constructed fd]
    have hheld : ∀ id, c fd ≠ .held id := by
      intro id hplace
      have howned := (htracks.held id fd).mpr hplace
      rw [owned_of_free (hdestroyed id)] at howned
      cases howned
    have hopen := htracks.openFds fd
    rw [htracks.constructed fd] at hopen
    cases hplace : c fd with
    | unclaimed => simp
    | held id => exact absurd hplace (hheld id)
    | disposed => simp [hopen, hplace]
    | left => simp [hopen, hplace]

/-- Three objects: the second is assigned to the first, the third is released and
moved from, and then all are destroyed. -/
def handedOn : List SocketOp :=
  [.construct 0 3, .construct 1 4, .create 2 5, .moveAssign 0 1, .moveAssign 0 0, .release 2,
    .moveConstruct 3 2, .destroy 3, .destroy 2, .destroy 1, .destroy 0]

/-- The first closes the descriptor it loses, and later the one it has taken over;
the released one stays open. -/
theorem descriptors_owned_linearly_handedOn :
    ∃ s, sockets.run (start {3, 4}) handedOn = some s ∧ s.closes = [(0, 3), (0, 4)] ∧
      (∀ fd, (s.closes.map Prod.snd).count fd ≤ 1) ∧
      ∀ fd, (fd ∈ s.constructed ∧ fd ∈ s.openFds) ↔ (start {3, 4}).ReleasedIn handedOn fd := by
  have hdistinct : sockets.Follows distinctFds (start {3, 4}) handedOn := by decide
  obtain ⟨-, honce, -, hleft⟩ := descriptors_owned_linearly rfl hdistinct
  refine ⟨_, rfl, rfl, honce, hleft ?_⟩
  rintro (_ | _ | _ | _ | id) <;> rfl

end Sockets

end EpollHttpServer.Reactor
