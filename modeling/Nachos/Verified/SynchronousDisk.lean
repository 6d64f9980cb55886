import Nachos.FileSys.SynchDisk
import Nachos.Verified.LockDiscipline
import Nachos.Verified.Semaphores

/-!
# The disk serves one request after the other

What happens at the disk is a sequence of requests, interrupts and returns.  Under the lock these
come in exchanges: a request, the interrupt for it, and the return of the call that made it,
with the data that was written last.
-/

namespace Nachos

open Loops Runs

def DiskPosition.stage : DiskPosition → Stage
  | .outside => .outside
  | .requesting _ => .entering
  | .requested _ | .waiting _ => .inside

theorem DiskPosition.stage_outside {position : DiskPosition} :
    position.stage = .outside ↔ position.isOutside = true := by
  cases position <;> simp [stage, isOutside]

variable {actions : List DiskAction} {r : DiskRequest} {place : DiskPosition} {threads : Threads}
  {data : Option (Nat → Byte)}

namespace DiskUsers

variable {sync : SynchDisk} {disk₀ : Disk} {s s' : DiskUsers} {event : DiskEvent}
  {history : List (DiskUsers × DiskEvent)} {t : Nat}

/-! ## What happens at the disk -/

inductive DiskAction where
  | request (thread : Nat) (request : DiskRequest)
  | interrupt
  /-- A call returns, with the buffer of a `ReadSector`. -/
  | returned (thread : Nat) (data : Option (Nat → Byte))

def action (s : DiskUsers) : DiskEvent → Option DiskAction
  | .statement =>
    match s.here with
    | .requesting r => some (.request s.threads.currentThread r)
    | .waiting data => some (.returned s.threads.currentThread data)
    | .outside | .requested _ => none
  | .interrupt => some .interrupt
  | .call _ | .other _ => none

def trace : List (DiskUsers × DiskEvent) → List DiskAction
  | [] => []
  | (s, event) :: earlier => (s.action event).toList ++ trace earlier

def lastData (disk₀ : Disk) (sectorNumber : Int) : List DiskAction → Nat → Byte
  | [] => disk₀ sectorNumber.toNat
  | .request _ (.write sector data) :: earlier =>
    if sector = sectorNumber then data else lastData disk₀ sectorNumber earlier
  | .request _ (.read _) :: earlier | .interrupt :: earlier | .returned _ _ :: earlier =>
    lastData disk₀ sectorNumber earlier

def Answers (disk₀ : Disk) (earlier : List DiskAction) (answer : Option (Nat → Byte)) :
    DiskRequest → Prop
  | .read sectorNumber => ∃ data, answer = some data ∧
      ∀ j < sectorSize, data j = lastData disk₀ sectorNumber earlier j
  | .write _ _ => answer = none

inductive Served (disk₀ : Disk) : List DiskAction → Prop where
  | nothing : Served disk₀ []
  | exchange {thread : Nat} {request : DiskRequest} {answer : Option (Nat → Byte)}
      {earlier : List DiskAction} (before : Served disk₀ earlier)
      (answers : Answers disk₀ earlier answer request) :
      Served disk₀ (.returned thread answer :: .interrupt :: .request thread request :: earlier)

/-! ## One request -/

def InRange (_ : DiskUsers) : DiskEvent → Prop
  | .call request => Disk.inRange request.sectorNumber = true
  | .statement | .interrupt | .other _ => True

instance (s : DiskUsers) : DecidablePred (InRange s)
  | .call request => inferInstanceAs (Decidable (Disk.inRange request.sectorNumber = true))
  | .statement | .interrupt | .other _ => inferInstanceAs (Decidable True)

def UpToDate (disk₀ : Disk) (actions : List DiskAction) (disk : Disk) : Prop :=
  ∀ sectorNumber, Disk.inRange sectorNumber = true → ∀ j < sectorSize,
    disk sectorNumber.toNat j = lastData disk₀ sectorNumber actions j

structure Requests (disk₀ : Disk) (actions : List DiskAction) (s : DiskUsers) (r : DiskRequest)
    (data : Option (Nat → Byte)) (s' : DiskUsers) : Prop where
  threads : s'.threads = s.threads
  position : s'.position = s.position
  active : s'.active = true
  pending : s'.pending = s.pending + 1
  answers : Answers disk₀ actions data r
  upToDate : UpToDate disk₀ (.request s.threads.currentThread r :: actions) s'.disk

theorem request_ok (upToDate : UpToDate disk₀ actions s.disk) (idle : s.active = false)
    (inRange : Disk.inRange r.sectorNumber = true) :
    ∃ data s', s.request r = .ok (data, s') ∧ Requests disk₀ actions s r data s' := by
  cases r with
  | read sectorNumber =>
    have inRange : Disk.inRange sectorNumber = true := inRange
    refine ⟨some (s.disk sectorNumber.toNat), { s with active := true, pending := s.pending + 1 },
      ?_, rfl, rfl, rfl, rfl, ⟨_, rfl, upToDate sectorNumber inRange⟩, upToDate⟩
    simp only [request, idle, assert, Disk.readSector_ok inRange, ok_bind, pure_eq, Bool.not_false,
      if_true]
  | write sectorNumber data =>
    have inRange : Disk.inRange sectorNumber = true := inRange
    refine ⟨none, { s with
      disk := Function.update s.disk sectorNumber.toNat
        (bcopy data 0 sectorSize (s.disk sectorNumber.toNat))
      active := true
      pending := s.pending + 1 }, ?_, rfl, rfl, rfl, rfl, rfl, ?_⟩
    · simp only [request, idle, assert, Disk.writeSector_ok inRange, ok_bind, pure_eq,
        Bool.not_false, if_true]
    · intro sector inside j small
      simp only [lastData]
      by_cases same : sectorNumber = sector
      · subst same
        simp [bcopy, small]
      · have different : sector.toNat ≠ sectorNumber.toNat := fun again =>
          same (Disk.toNat_inj inside inRange again).symm
        rw [if_neg same, Function.update_of_ne different]
        exact upToDate sector inside j small

/-! ## What holds between the steps -/

/-- The disk and the semaphore: without a request, `Device sync s false 0 0`. -/
structure Device (sync : SynchDisk) (s : DiskUsers) (active : Bool) (pending : Nat)
    (value : BitVec 32) : Prop where
  active : s.active = active
  pending : s.pending = pending
  value : s.threads.value sync.semaphore = value

def AtP (sync : SynchDisk) (s : DiskUsers) (t : Nat) (answer : Option (Nat → Byte)) : Prop :=
  s.position t = .requested answer ∨
    (s.position t = .waiting answer ∧ s.threads.control t = .inP sync.semaphore)

/-- An exchange that the thread `t` has begun with `request`, after the actions `earlier`. -/
structure Begun (sync : SynchDisk) (disk₀ : Disk) (earlier : List DiskAction) (t : Nat)
    (request : DiskRequest) (answer : Option (Nat → Byte)) (s : DiskUsers) : Prop where
  before : Served disk₀ earlier
  answers : Answers disk₀ earlier answer request
  holder : s.threads.lockHolder sync.lock = some t

inductive Phase (sync : SynchDisk) (disk₀ : Disk) : List DiskAction → DiskUsers → Prop where
  | idle {actions : List DiskAction} {s : DiskUsers} (served : Served disk₀ actions)
      (quiet : Device sync s false 0 0)
      (entering : ∀ t, s.threads.lockHolder sync.lock = some t → ∃ r, s.position t = .requesting r) :
      Phase sync disk₀ actions s
  | issued {earlier : List DiskAction} {t : Nat} {request : DiskRequest}
      {answer : Option (Nat → Byte)} {s : DiskUsers}
      (begun : Begun sync disk₀ earlier t request answer s) (busy : Device sync s true 1 0)
      (atP : AtP sync s t answer) : Phase sync disk₀ (.request t request :: earlier) s
  | completed {earlier : List DiskAction} {t : Nat} {request : DiskRequest}
      {answer : Option (Nat → Byte)} {s : DiskUsers}
      (begun : Begun sync disk₀ earlier t request answer s) (done : Device sync s false 0 1)
      (atP : AtP sync s t answer) :
      Phase sync disk₀ (.interrupt :: .request t request :: earlier) s
  | returning {earlier : List DiskAction} {t : Nat} {request : DiskRequest}
      {answer : Option (Nat → Byte)} {s : DiskUsers}
      (begun : Begun sync disk₀ earlier t request answer s) (quiet : Device sync s false 0 0)
      (waiting : s.position t = .waiting answer) (user : s.threads.control t = .user) :
      Phase sync disk₀ (.interrupt :: .request t request :: earlier) s

structure Inv (sync : SynchDisk) (disk₀ : Disk) (history : List (DiskUsers × DiskEvent))
    (s : DiskUsers) : Prop where
  disciplined : Threads.Disciplined sync.lock s.threads fun t => (s.position t).stage
  inRange : ∀ t r, s.position t = .requesting r → Disk.inRange r.sectorNumber = true
  asleep : ∀ t, s.threads.control t = .inP sync.semaphore → ∃ data, s.position t = .waiting data
  upToDate : UpToDate disk₀ (trace history) s.disk
  phase : Phase sync disk₀ (trace history) s

theorem stage_goTo :
    (fun t => ((s.goTo place threads).position t).stage) =
      Function.update (fun t => (s.position t).stage) s.threads.currentThread place.stage := by
  funext t
  by_cases same : t = s.threads.currentThread
  · subst same
    simp [goTo]
  · simp [goTo, same]

theorem goTo_position_of_ne (other : t ≠ s.threads.currentThread) :
    (s.goTo place threads).position t = s.position t :=
  Function.update_of_ne other ..

theorem goTo_position_self :
    (s.goTo place threads).position s.threads.currentThread = place := Function.update_self ..

/-- The thread with the lock keeps its place while it does not act. -/
theorem AtP.kept {answer : Option (Nat → Byte)} {threads : Threads} {event : ThreadEvent}
    {position : Nat → DiskPosition} (atP : AtP sync s t answer)
    (taken : ThreadStep s.threads event threads) (older : t < s.threads.created)
    (same : position t = s.position t)
    (waits : s.threads.control t = .inP sync.semaphore →
      ¬ (event = .resume ∧ s.threads.currentThread = t)) :
    AtP sync { s with threads := threads, position := position } t answer := by
  cases atP with
  | inl requested => exact .inl (same.trans requested)
  | inr waiting =>
    refine .inr ⟨same.trans waiting.1, ?_⟩
    exact (taken.control_eq older (by simp [waiting.2]) (by simp [waiting.2])
      (waits waiting.2)).trans waiting.2

theorem AtP.unique {answer answer' : Option (Nat → Byte)} (atP : AtP sync s t answer)
    (again : AtP sync s t answer') : answer = answer' := by
  cases atP with
  | inl requested =>
    cases again with
    | inl requested' => simpa [requested] using requested'
    | inr waiting => simp [requested] at waiting
  | inr waiting =>
    cases again with
    | inl requested => simp [waiting.1] at requested
    | inr waiting' => simpa [waiting.1] using waiting'.1

section

variable (phase : Phase sync disk₀ actions s)

include phase

theorem Phase.kept {position : Nat → DiskPosition}
    (value : threads.value sync.semaphore = s.threads.value sync.semaphore)
    (holder : ∀ t, s.threads.lockHolder sync.lock = some t →
      threads.lockHolder sync.lock = some t ∧ position t = s.position t)
    (takes : ∀ t, threads.lockHolder sync.lock = some t →
      s.threads.lockHolder sync.lock = some t ∨ ∃ r, position t = .requesting r)
    (atP : ∀ t answer, s.threads.lockHolder sync.lock = some t → AtP sync s t answer →
      AtP sync { s with threads := threads, position := position } t answer)
    (user : ∀ t, s.threads.lockHolder sync.lock = some t → s.threads.control t = .user →
      threads.control t = .user) :
    Phase sync disk₀ actions { s with threads := threads, position := position } := by
  have device : ∀ {active pending now}, Device sync s active pending now →
      Device sync { s with threads := threads, position := position } active pending now :=
    fun before => ⟨before.active, before.pending, value.trans before.value⟩
  have still : ∀ {earlier t request answer}, Begun sync disk₀ earlier t request answer s →
      Begun sync disk₀ earlier t request answer { s with threads := threads, position := position } :=
    fun begun => ⟨begun.before, begun.answers, (holder _ begun.holder).1⟩
  cases phase with
  | idle served quiet entering =>
    refine .idle served (device quiet) fun t holds => ?_
    cases takes t holds with
    | inl before =>
      obtain ⟨r, requesting⟩ := entering t before
      exact ⟨r, (holder t before).2.trans requesting⟩
    | inr requesting => exact requesting
  | issued begun busy here =>
    exact .issued (still begun) (device busy) (atP _ _ begun.holder here)
  | completed begun done here =>
    exact .completed (still begun) (device done) (atP _ _ begun.holder here)
  | returning begun quiet waiting here =>
    exact .returning (still begun) (device quiet) ((holder _ begun.holder).2.trans waiting)
      (user _ begun.holder here)

theorem Phase.tests {threads : Threads} {event : ThreadEvent} {position : Nat → DiskPosition}
    {t : Nat} {answer : Option (Nat → Byte)} (placement : s.threads.Placement)
    (taken : ThreadStep s.threads event threads)
    (tests : Threads.TestsValue sync.semaphore s.threads event)
    (here : s.threads.currentThread = t) (before : s.threads.lockHolder sync.lock = some t)
    (after : threads.lockHolder sync.lock = some t) (atP : AtP sync s t answer)
    (moved : position t = .waiting answer) :
    Phase sync disk₀ actions { s with threads := threads, position := position } := by
  subst here
  cases phase with
  | idle served quiet entering =>
    obtain ⟨r, requesting⟩ := entering _ before
    cases atP with
    | inl requested => simp [requested] at requesting
    | inr waiting => simp [waiting.1] at requesting
  | returning begun quiet waiting user =>
    cases Option.some.inj (begun.holder.symm.trans before)
    cases atP with
    | inl requested => simp [requested] at waiting
    | inr asleep => simp [asleep.2] at user
  | issued begun busy atP' =>
    cases Option.some.inj (begun.holder.symm.trans before)
    cases atP.unique atP'
    cases placement.semaphoreEffect (s := sync.semaphore) taken with
    | raised raises => exact absurd raises tests.not_raises
    | lowered _ positive => exact absurd busy.value positive
    | queued _ zero value asleep =>
      exact .issued ⟨begun.before, begun.answers, after⟩
        ⟨busy.active, busy.pending, value.trans busy.value⟩ (.inr ⟨moved, asleep⟩)
    | same _ untested => exact absurd tests untested
  | completed begun done atP' =>
    cases Option.some.inj (begun.holder.symm.trans before)
    cases atP.unique atP'
    cases placement.semaphoreEffect (s := sync.semaphore) taken with
    | raised raises => exact absurd raises tests.not_raises
    | lowered _ _ value returned =>
      refine .returning ⟨begun.before, begun.answers, after⟩
        ⟨done.active, done.pending, value.trans ?_⟩ moved returned
      rw [done.value]
      rfl
    | queued _ zero => simp [done.value] at zero
    | same _ untested => exact absurd tests untested

theorem Phase.at_request
    (holder : s.threads.lockHolder sync.lock = some t) (here : s.position t = .requesting r) :
    Served disk₀ actions ∧ Device sync s false 0 0 := by
  cases phase with
  | idle served quiet entering => exact ⟨served, quiet⟩
  | issued begun _ atP | completed begun _ atP =>
    cases Option.some.inj (begun.holder.symm.trans holder)
    cases atP with
    | inl requested => simp [here] at requested
    | inr waiting => simp [here] at waiting
  | returning begun _ waiting =>
    cases Option.some.inj (begun.holder.symm.trans holder)
    simp [here] at waiting

/-- When it runs behind its `P`, the interrupt for its request has come. -/
theorem Phase.at_return
    (holder : s.threads.lockHolder sync.lock = some t) (here : s.position t = .waiting data)
    (user : s.threads.control t = .user) :
    Served disk₀ (.returned t data :: actions) ∧ Device sync s false 0 0 := by
  cases phase with
  | idle served quiet entering =>
    obtain ⟨r, requesting⟩ := entering _ holder
    simp [here] at requesting
  | issued begun _ atP | completed begun _ atP =>
    cases Option.some.inj (begun.holder.symm.trans holder)
    cases atP with
    | inl requested => simp [here] at requested
    | inr waiting => simp [user] at waiting
  | returning begun quiet waiting =>
    cases Option.some.inj (begun.holder.symm.trans holder)
    cases waiting.symm.trans here
    exact ⟨.exchange begun.before begun.answers, quiet⟩

/-- An interrupt comes for the request that was made last. -/
theorem Phase.interrupted (scheduled : s.pending ≠ 0) :
    Phase sync disk₀ (.interrupt :: actions) (s.handleInterrupt sync) := by
  have same := Threads.wakeFirst_same (q := .semaphore sync.semaphore) (k := s.threads)
  cases phase with
  | idle served quiet entering => exact absurd quiet.pending scheduled
  | completed begun done atP => exact absurd done.pending scheduled
  | returning begun quiet => exact absurd quiet.pending scheduled
  | issued begun busy atP =>
    refine .completed ⟨begun.before, begun.answers, ?_⟩ ⟨rfl, ?_, ?_⟩ ?_
    · exact (congrFun same.lockHolder _).trans begun.holder
    · simp [DiskUsers.handleInterrupt, busy.pending]
    · simp [DiskUsers.handleInterrupt, Threads.semaphoreV, busy.value]
    · cases atP with
      | inl requested => exact .inl requested
      | inr waiting => exact .inr ⟨waiting.1, (congrFun same.control _).trans waiting.2⟩

end

/-! ### The calls -/

theorem Inv.current_created (inv : Inv sync disk₀ history s) (awake : s.threads.idling = false) :
    s.threads.currentThread < s.threads.created :=
  (inv.disciplined.placement.awake awake).alive.1

/-- Threads in `P` stay at their place, when the current thread moves on with a routine other
than `P`. -/
theorem Inv.asleep_goTo {c : Routine} (inv : Inv sync disk₀ history s) (user : s.threads.InUser)
    (done : c.apply s.threads = .ok threads)
    (own : c = .p sync.semaphore → ∃ data, place = .waiting data) :
    ∀ t, threads.control t = .inP sync.semaphore →
      ∃ data, (s.goTo place threads).position t = .waiting data := by
  intro t asleep
  have taken : ThreadStep s.threads (.call c) threads := .call user done
  by_cases same : t = s.threads.currentThread
  · subst same
    rw [goTo_position_self]
    cases taken.inP_from inv.current_created asleep with
    | inl before => simp [user.2] at before
    | inr calls =>
      have isP : c = .p sync.semaphore := by simpa using calls.2
      exact own isP
  · rw [goTo_position_of_ne same]
    cases taken.inP_from inv.current_created asleep with
    | inl before => exact inv.asleep t before
    | inr calls => exact absurd calls.1 same

/-- Calls are about sectors that exist, also when the current thread moves on. -/
theorem Inv.inRange_goTo (inv : Inv sync disk₀ history s)
    (own : ∀ r, place = .requesting r → Disk.inRange r.sectorNumber = true) (t : Nat)
    (r : DiskRequest) (requesting : (s.goTo place threads).position t = .requesting r) :
    Disk.inRange r.sectorNumber = true := by
  by_cases same : t = s.threads.currentThread
  · subst same
    exact own r (goTo_position_self.symm.trans requesting)
  · exact inv.inRange t r ((goTo_position_of_ne same).symm.trans requesting)

theorem Inv.enter {r : DiskRequest} {threads : Threads} (inv : Inv sync disk₀ history s)
    (inRange : Disk.inRange r.sectorNumber = true) (user : s.threads.InUser)
    (outside : s.here.isOutside = true)
    (done : (Routine.acquire sync.lock).apply s.threads = .ok threads) :
    Inv sync disk₀ ((s, .call r) :: history) (s.goTo (.requesting r) threads) := by
  have taken : ThreadStep s.threads (.call (.acquire sync.lock)) threads := .call user done
  have stage : (s.position s.threads.currentThread).stage = .outside :=
    DiskPosition.stage_outside.mpr outside
  have effect := inv.disciplined.placement.lockEffect (l := sync.lock) taken
  have others : ∀ t, s.threads.lockHolder sync.lock = some t → t ≠ s.threads.currentThread := by
    intro t holder same
    subst same
    exact inv.disciplined.of_holder holder stage
  refine ⟨?_, inv.inRange_goTo ?_, inv.asleep_goTo user done (by simp), inv.upToDate, ?_⟩
  · rw [stage_goTo]
    exact inv.disciplined.acquire user stage done
  · rintro _ ⟨⟩
    exact inRange
  · refine inv.phase.kept ?_ (fun t holder => ⟨?_, ?_⟩) (fun t holder => ?_)
      (fun t answer holder atP => ?_) (fun t holder here => ?_)
    · exact (inv.disciplined.placement.semaphoreEffect taken).value_same
        (by simp [Threads.RaisesValue]) (by simp [Threads.TestsValue])
    · exact effect.holder_kept inv.disciplined.known holder (by simp [Threads.LeavesLock])
    · exact Function.update_of_ne (others t holder) ..
    · cases effect.holder_from holder with
      | inl before => exact .inl before
      | inr takes => exact .inr ⟨r, by rw [takes.1]; exact Function.update_self ..⟩
    · exact atP.kept taken (inv.disciplined.created t (inv.disciplined.of_holder holder))
        (Function.update_of_ne (others t holder) ..) (by simp)
    · exact taken.user_kept (inv.disciplined.created t (inv.disciplined.of_holder holder)) here
        fun same => absurd same (others t holder)

inductive Statement (sync : SynchDisk) (s : DiskUsers) : DiskUsers → Prop where
  | request {r : DiskRequest} {data : Option (Nat → Byte)} {m : DiskUsers}
      (here : s.position s.threads.currentThread = .requesting r)
      (done : s.request r = .ok (data, m)) : Statement sync s (m.goTo (.requested data) m.threads)
  | wait {data : Option (Nat → Byte)} {threads : Threads}
      (here : s.position s.threads.currentThread = .requested data)
      (done : (Routine.p sync.semaphore).apply s.threads = .ok threads) :
      Statement sync s (s.goTo (.waiting data) threads)
  | leave {data : Option (Nat → Byte)}
      (here : s.position s.threads.currentThread = .waiting data) :
      Statement sync s (s.goTo .outside (s.threads.release sync.lock))

theorem statement_cases (inside : s.here.isOutside = false) (done : s.statement sync = .ok s') :
    Statement sync s s' := by
  cases place : s.here with
  | outside => simp [place, DiskPosition.isOutside] at inside
  | requesting r =>
    simp only [statement, place] at done
    obtain ⟨⟨data, m⟩, requested, moved⟩ := bind_eq_ok.mp done
    cases moved
    exact .request place requested
  | requested data =>
    simp only [statement, place] at done
    obtain ⟨threads, applied, rfl⟩ := map_eq_ok.mp done
    exact .wait place applied
  | waiting data =>
    simp only [statement, place] at done
    cases done
    exact .leave place

theorem Inv.make_request {m : DiskUsers} (inv : Inv sync disk₀ history s) (user : s.threads.InUser)
    (here : s.position s.threads.currentThread = .requesting r) (done : s.request r = .ok (data, m)) :
    Inv sync disk₀ ((s, .statement) :: history) (m.goTo (.requested data) m.threads) := by
  have stage : (s.position s.threads.currentThread).stage ≠ .outside := by
    simp [here, DiskPosition.stage]
  have holder := inv.disciplined.holds user stage
  have actions : trace ((s, .statement) :: history) =
      .request s.threads.currentThread r :: trace history := by
    simp [trace, action, DiskUsers.here, here]
  obtain ⟨served, quiet⟩ := inv.phase.at_request holder here
  obtain ⟨data', m', done', requests⟩ :=
    request_ok inv.upToDate quiet.active (inv.inRange _ r here)
  obtain ⟨rfl, rfl⟩ : data = data' ∧ m = m' := by
    have same := done.symm.trans done'
    injection same with same
    exact Prod.mk.inj same
  have position : ∀ t, t ≠ s.threads.currentThread →
      (m.goTo (.requested data) m.threads).position t = s.position t := by
    intro t other
    rw [goTo_position_of_ne (by rwa [requests.threads]), requests.position]
  have own : (m.goTo (.requested data) m.threads).position s.threads.currentThread =
      .requested data := by
    rw [← requests.threads]
    exact goTo_position_self
  refine ⟨?_, fun t r' requesting => ?_, fun t asleep => ?_, ?_, ?_⟩
  · have moved := inv.disciplined.move user stage (show Stage.inside ≠ .outside by simp)
    rw [stage_goTo]
    simpa [goTo, requests.threads, requests.position, DiskPosition.stage] using moved
  · by_cases same : t = s.threads.currentThread
    · subst same
      simp [own] at requesting
    · exact inv.inRange t r' (position t same ▸ requesting)
  · have asleep : s.threads.control t = .inP sync.semaphore := by
      rw [← requests.threads]
      exact asleep
    have other : t ≠ s.threads.currentThread := by
      rintro rfl
      simp [user.2] at asleep
    exact position t other ▸ inv.asleep t asleep
  · rw [actions]
    exact requests.upToDate
  · rw [actions]
    refine .issued ⟨served, requests.answers, ?_⟩ ⟨requests.active, ?_, ?_⟩ (.inl own)
    · exact requests.threads ▸ holder
    · exact requests.pending.trans (by rw [quiet.pending])
    · exact requests.threads ▸ quiet.value

theorem Inv.call_p (inv : Inv sync disk₀ history s) (user : s.threads.InUser)
    (here : s.position s.threads.currentThread = .requested data)
    (done : (Routine.p sync.semaphore).apply s.threads = .ok threads) :
    Inv sync disk₀ ((s, .statement) :: history) (s.goTo (.waiting data) threads) := by
  have taken : ThreadStep s.threads (.call (.p sync.semaphore)) threads := .call user done
  have stage : (s.position s.threads.currentThread).stage ≠ .outside := by
    simp [here, DiskPosition.stage]
  have holder := inv.disciplined.holds user stage
  have actions : trace ((s, .statement) :: history) = trace history := by
    simp [trace, action, DiskUsers.here, here]
  have after : threads.lockHolder sync.lock = some s.threads.currentThread :=
    (inv.disciplined.placement.lockEffect taken).holder_kept inv.disciplined.known holder
      (by simp [Threads.LeavesLock])
  refine ⟨?_, inv.inRange_goTo (by simp), inv.asleep_goTo user done fun _ => ⟨data, rfl⟩, ?_, ?_⟩
  · rw [stage_goTo]
    have stands : Threads.StandsAt sync.lock threads s.threads.currentThread .inside := after
    exact inv.disciplined.call user done stands
  · rw [actions]
    exact inv.upToDate
  · rw [actions]
    exact inv.phase.tests inv.disciplined.placement taken (.inl rfl) rfl holder after (.inl here)
      (Function.update_self ..)

theorem Inv.leave (inv : Inv sync disk₀ history s) (user : s.threads.InUser)
    (here : s.position s.threads.currentThread = .waiting data) :
    Inv sync disk₀ ((s, .statement) :: history)
      (s.goTo .outside (s.threads.release sync.lock)) := by
  have stage : (s.position s.threads.currentThread).stage ≠ .outside := by
    simp [here, DiskPosition.stage]
  have holder := inv.disciplined.holds user stage
  have released := Threads.release_of_holder holder
  have actions : trace ((s, .statement) :: history) =
      .returned s.threads.currentThread data :: trace history := by
    simp [trace, action, DiskUsers.here, here]
  refine ⟨?_, inv.inRange_goTo (by simp), inv.asleep_goTo user (c := .release sync.lock) rfl (by simp),
    ?_, ?_⟩
  · rw [stage_goTo]
    exact inv.disciplined.release user stage
  · rw [actions]
    exact inv.upToDate
  · rw [actions]
    have nobody : (s.threads.release sync.lock).lockHolder sync.lock = none := by
      simp [released, Threads.released]
    have value : (s.threads.release sync.lock).value = s.threads.value := by
      rw [released]
      exact Threads.wakeFirst_same.value
    obtain ⟨served, quiet⟩ := inv.phase.at_return holder here user.2
    refine .idle served ⟨quiet.active, quiet.pending, (congrFun value _).trans quiet.value⟩
      fun t holds => ?_
    cases nobody.symm.trans holds

/-! ### The interrupt, and the rest of the system -/

theorem Inv.handleInterrupt (inv : Inv sync disk₀ history s) (scheduled : s.pending ≠ 0)
    (enabled : s.threads.idling = true ∨ s.threads.InUser) :
    Inv sync disk₀ ((s, .interrupt) :: history) (s.handleInterrupt sync) := by
  have taken : ThreadStep s.threads (.handler sync.semaphore)
      (s.threads.semaphoreV sync.semaphore) := .handler enabled
  have same := Threads.wakeFirst_same (q := .semaphore sync.semaphore) (k := s.threads)
  exact ⟨inv.disciplined.other taken (by simp [Threads.AboutLock, Threads.LeavesLock]),
    inv.inRange, fun t asleep => inv.asleep t ((congrFun same.control t).symm.trans asleep),
    inv.upToDate, inv.phase.interrupted scheduled⟩

theorem Allows.not_aboutLock {event : ThreadEvent} (allowed : s.Allows sync event) :
    ¬ Threads.AboutLock sync.lock event := by
  cases event with
  | call c =>
    cases allowed with
    | inl yields => simp [yields, Threads.AboutLock, Threads.LeavesLock]
    | inr apart =>
      rintro (calls | calls | ⟨cond, calls⟩) <;> cases calls <;> exact apart.2 rfl
  | resume | handler _ | idleReturn => simp [Threads.AboutLock, Threads.LeavesLock]

theorem Allows.not_raises {event : ThreadEvent} (allowed : s.Allows sync event) :
    ¬ Threads.RaisesValue sync.semaphore event := by
  rintro (calls | calls) <;> subst calls
  · cases allowed with
    | inl yields => cases yields
    | inr apart => exact apart.2 rfl
  · exact allowed rfl

theorem Allows.not_p (allowed : s.Allows sync (.call (.p sync.semaphore))) : False := by
  cases allowed with
  | inl yields => cases yields
  | inr apart => exact apart.2 rfl

theorem Inv.other {event : ThreadEvent} {threads : Threads} (inv : Inv sync disk₀ history s)
    (allowed : s.Allows sync event) (taken : ThreadStep s.threads event threads) :
    Inv sync disk₀ ((s, .other event) :: history) { s with threads := threads } := by
  have disciplined := inv.disciplined
  have effect := disciplined.placement.lockEffect (l := sync.lock) taken
  have kept : ∀ t, s.threads.lockHolder sync.lock = some t →
      threads.lockHolder sync.lock = some t := fun t holder =>
    effect.holder_kept disciplined.known holder fun _ leaves => allowed.not_aboutLock (.inr leaves)
  have older : ∀ t, s.threads.lockHolder sync.lock = some t → t < s.threads.created :=
    fun t holder => disciplined.created t (disciplined.of_holder holder)
  refine ⟨disciplined.other taken allowed.not_aboutLock, inv.inRange, fun t asleep => ?_,
    inv.upToDate, ?_⟩
  · cases taken.inP_from inv.current_created asleep with
    | inl before => exact inv.asleep t before
    | inr calls =>
      obtain ⟨_, rfl⟩ := calls
      exact allowed.not_p.elim
  -- a thread that goes on in `P` of this semaphore is the holder of the lock
  by_cases tests : Threads.TestsValue sync.semaphore s.threads event
  · cases tests with
    | inl calls =>
      subst calls
      exact allowed.not_p.elim
    | inr resumes =>
      obtain ⟨data, waiting⟩ := inv.asleep _ resumes.2
      have holder : s.threads.lockHolder sync.lock = some s.threads.currentThread := by
        have stands := disciplined.stands s.threads.currentThread
        rwa [waiting] at stands
      exact inv.phase.tests disciplined.placement taken (.inr resumes) rfl holder (kept _ holder)
        (.inr ⟨waiting, resumes.2⟩) waiting
  · refine inv.phase.kept ?_ (fun t holder => ⟨kept t holder, rfl⟩) (fun t holder => ?_)
      (fun t answer holder atP => ?_) (fun t holder user => ?_)
    · exact (disciplined.placement.semaphoreEffect taken).value_same allowed.not_raises tests
    · cases effect.holder_from holder with
      | inl before => exact .inl before
      | inr takes =>
        obtain ⟨here, calls | resumes, _⟩ := takes
        · exact absurd (.inl calls) allowed.not_aboutLock
        · have stands := disciplined.stands t
          cases place : s.position t with
          | outside =>
            rw [place] at stands
            exact absurd (here ▸ resumes.2) stands.2
          | requesting r => exact .inr ⟨r, rfl⟩
          | requested _ | waiting _ =>
            rw [place] at stands
            exact .inl stands
    · refine atP.kept taken (older t holder) rfl fun asleep resumes => tests (.inr ⟨resumes.1, ?_⟩)
      rw [resumes.2]
      exact asleep
    · refine taken.user_kept (older t holder) user fun here c calls => ?_
      subst here calls
      cases allowed with
      | inl yields => exact yields
      | inr apart =>
        have outside := DiskPosition.stage_outside.mpr apart.1
        exact absurd outside (disciplined.of_holder holder)

/-! ## Whole runs -/

theorem Inv.step (inv : Inv sync disk₀ history s) (taken : DiskStep sync s event s')
    (guard : InRange s event) : Inv sync disk₀ ((s, event) :: history) s' := by
  cases taken with
  | call user outside done => exact inv.enter guard user outside done
  | statement user inside done =>
    cases statement_cases inside done with
    | request here requested => exact inv.make_request user here requested
    | wait here applied => exact inv.call_p user here applied
    | leave here => exact inv.leave user here
  | interrupt enabled scheduled => exact inv.handleInterrupt scheduled enabled
  | other allowed taken => exact inv.other allowed taken

theorem boot_inv {values : Nat → BitVec 32} (zero : values sync.semaphore = 0) :
    Inv sync disk₀ [] (boot values disk₀) := by
  refine ⟨Threads.boot_disciplined sync.lock values, by simp [boot], fun t asleep => ?_,
    fun _ _ _ _ => rfl, .idle .nothing ⟨rfl, rfl, zero⟩ (by simp [boot, Threads.boot])⟩
  simp only [boot, Threads.boot] at asleep
  split at asleep <;> cases asleep

theorem reachable_inv {values : Nat → BitVec 32} (zero : values sync.semaphore = 0)
    (run : Run (DiskStep sync) (boot values disk₀) history s)
    (guarded : Guarded InRange history) : Inv sync disk₀ history s :=
  run.historyInvariant (I := Inv sync disk₀) (boot_inv zero)
    (fun _ _ _ _ inv guard taken => inv.step taken guard) guarded

theorem Inv.statement_total (inv : Inv sync disk₀ history s) (user : s.threads.InUser) :
    ∃ s', s.statement sync = .ok s' := by
  simp only [statement]
  cases here : s.here with
  | outside | waiting data => exact ⟨_, rfl⟩
  | requested data =>
    obtain ⟨threads, done, _⟩ := inv.disciplined.placement.semaphoreP (s := sync.semaphore) user.1
    exact ⟨_, map_eq_ok.mpr ⟨threads, done, rfl⟩⟩
  | requesting r =>
    have here : s.position s.threads.currentThread = .requesting r := here
    have holder : s.threads.lockHolder sync.lock = some s.threads.currentThread :=
      inv.disciplined.holds user (by simp [here, DiskPosition.stage])
    obtain ⟨_, quiet⟩ := inv.phase.at_request holder here
    obtain ⟨data, m, done, _⟩ := request_ok inv.upToDate quiet.active (inv.inRange _ r here)
    exact ⟨_, bind_eq_ok.mpr ⟨(data, m), done, rfl⟩⟩

/-- The exchanges that are over, and what has happened of the one that is not. -/
theorem Phase.split (phase : Phase sync disk₀ actions s) :
    ∃ begun earlier, actions = begun ++ earlier ∧ Served disk₀ earlier ∧
      (begun = [] ∨ ∃ t r, s.threads.lockHolder sync.lock = some t ∧
        (begun = [.request t r] ∨ begun = [.interrupt, .request t r])) := by
  cases phase with
  | idle served => exact ⟨[], _, rfl, served, .inl rfl⟩
  | issued begun => exact ⟨[_], _, rfl, begun.before, .inr ⟨_, _, begun.holder, .inl rfl⟩⟩
  | completed begun | returning begun =>
    exact ⟨[_, _], _, rfl, begun.before, .inr ⟨_, _, begun.holder, .inr rfl⟩⟩

end DiskUsers

open DiskUsers in
/-- In every run no statement fails an `ASSERT`, and what happens at the disk is one exchange
after the other: a request, its interrupt, and the return of the call that made it, where a
`ReadSector` has the data of the last `WriteSector` before it.  Only the last exchange may be
unfinished; its thread has the lock. -/
theorem synchDisk_serves_in_order {sync : SynchDisk} {values : Nat → BitVec 32} {disk₀ : Disk}
    {history : List (DiskUsers × DiskEvent)} {s : DiskUsers} (zero : values sync.semaphore = 0)
    (run : Run (DiskStep sync) (DiskUsers.boot values disk₀) history s)
    (guarded : Guarded InRange history) :
    (s.threads.InUser → ∃ s', s.statement sync = .ok s') ∧
      ∃ begun earlier, trace history = begun ++ earlier ∧ Served disk₀ earlier ∧
        (begun = [] ∨ ∃ t r, s.threads.lockHolder sync.lock = some t ∧
          (begun = [.request t r] ∨ begun = [.interrupt, .request t r])) := by
  have inv := reachable_inv zero run guarded
  exact ⟨fun user => inv.statement_total user, inv.phase.split⟩

open DiskUsers in
/-- The second thread asks for a sector while the first one writes it. -/
theorem written_then_read : ∃ history s,
    Run (DiskStep ⟨0, 0⟩) (DiskUsers.boot (fun _ => 0#32) fun _ _ => 0) history s ∧
      Guarded InRange history ∧
      ((trace history).length = 6 ∧ s.threads.lockHolder 0 = none) ∧
      Served (fun _ _ => 0) (trace history) := by
  refine computed_run performDisk_step (fun history s => Guarded InRange history ∧
      (trace history).length = 6 ∧ s.threads.lockHolder 0 = none)
    [.other (.call .fork), .call (.write 3 fun _ => 7), .statement, .statement, .call (.read 3),
      .interrupt, .other .idleReturn, .other .resume, .statement, .other (.call .yield),
      .other .resume, .statement, .statement, .interrupt, .other (.call .yield), .other .resume,
      .statement]
    (by decide +kernel) fun history s run _ shape => ?_
  refine ⟨shape.1, shape.2, ?_⟩
  obtain ⟨_, begun, earlier, split, served, nothing | ⟨t, r, holder, _⟩⟩ :=
    synchDisk_serves_in_order rfl run shape.1
  · rw [split, nothing]
    exact served
  · cases shape.2.2.symm.trans holder

end Nachos
