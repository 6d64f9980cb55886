import Nachos.UserProg.OpenFiles

/-!
# The sections of `OpenSystemcall`

Without `FILESYS_STUB`, `fileSystem->Open` in `CreateSOF` waits for the disk, and other processes may
run meanwhile.  So `OpenSystemcall` is two steps here, before and after that call.
`OpenFiles.openSystemcall` is what they do when nothing comes between them.
-/

namespace Nachos

open Loops

namespace OpenFiles

def openLookup (current : Nat) (filename behind : String) (s : OpenFiles) :
    Except Fault (Option Int × OpenFiles) := do
  let table ← s.pcb current
  let sofIndex := s.findSOFByName filename
  let pofIndex := findPOFByName filename table
  if sofIndex = -1 then
    assert (decide (pofIndex = -1))
    if table.map.numClear = 0 ∨ s.sofMgr.map.numClear = 0 then
      return (some (-1), s)
    else
      return (none, s)
  else
    let (id, s) ← s.openDescriptor current filename behind sofIndex pofIndex
    return (some id, s)

/-- The rest of `OpenSystemcall`, from the return of `fileSystem->Open` on.  The local variable
`pofIndex` is `-1`, as was asserted. -/
def openCreate (current : Nat) (filename behind : String) (s : OpenFiles) :
    Except Fault (Int × OpenFiles) :=
  let (sofIndex, s) := s.createSOF filename
  if sofIndex = -1 then .ok (-1, s)
  else s.openDescriptor current filename behind sofIndex (-1)

theorem openSystemcall_eq_sections (current : Nat) (filename behind : String) (s : OpenFiles) :
    s.openSystemcall current filename behind =
      s.openLookup current filename behind >>= fun (result, t) =>
        match result with
        | some id => .ok (id, t)
        | none => t.openCreate current filename behind := by
  unfold openSystemcall openLookup
  cases s.pcb current with
  | error => rfl
  | ok table =>
    simp only [bind, Except.bind]
    by_cases unlisted : s.findSOFByName filename = -1
    · by_cases unopened : findPOFByName filename table = -1
      · simp only [if_pos unlisted, unopened, assert, decide_true, if_true, openCreate]
        split <;> rfl
      · simp only [if_pos unlisted, unopened, assert, decide_false, Bool.false_eq_true, if_false]
    · simp only [if_neg unlisted]
      cases s.openDescriptor current filename behind (s.findSOFByName filename)
        (findPOFByName filename table) <;> rfl

end OpenFiles

/-! ## Runs -/

/-- `opening p` is the name of the file while process `p` is in `fileSystem->Open`. -/
structure Openers where
  tables : OpenFiles
  opening : Nat → Option String

def Openers.setOpening (s : Openers) (p : Nat) (filename : Option String) : Openers :=
  { s with opening := fun other => if other = p then filename else s.opening other }

inductive OpenerCall where
  | create (pid : Nat)
  | lookup (current : Nat) (filename behind : String)
  | enter (current : Nat) (behind : String)
  | close (current : Nat) (id : Int)
  deriving DecidableEq, Repr

/-- Any process may run its next section.  `lookup` ends the call at once, or goes on to wait for
the disk. -/
inductive OpenerStep : Openers → OpenerCall → Openers → Prop where
  | create {s : Openers} {pid : Nat} {junk : Nat → BitVec 32} : s.tables.allPCB pid = none →
      OpenerStep s (.create pid)
        { s with tables := s.tables.setPCB pid (some (.empty pofMaxNum junk)) }
  | returns {s : Openers} {current : Nat} {filename behind : String} {id : Int} {t : OpenFiles} :
      s.opening current = none → s.tables.openLookup current filename behind = .ok (some id, t) →
      OpenerStep s (.lookup current filename behind) { s with tables := t }
  | waits {s : Openers} {current : Nat} {filename behind : String} {t : OpenFiles} :
      s.opening current = none → s.tables.openLookup current filename behind = .ok (none, t) →
      OpenerStep s (.lookup current filename behind)
        (Openers.setOpening { s with tables := t } current (some filename))
  | enter {s : Openers} {current : Nat} {filename behind : String} {id : Int} {t : OpenFiles} :
      s.opening current = some filename →
      s.tables.openCreate current filename behind = .ok (id, t) →
      OpenerStep s (.enter current behind) (Openers.setOpening { s with tables := t } current none)
  | close {s : Openers} {current : Nat} {id : Int} {t : OpenFiles} : s.opening current = none →
      s.tables.closeSystemcall current id = .ok t →
      OpenerStep s (.close current id) { s with tables := t }

def performOpener (call : OpenerCall) (s : Openers) : Option Openers :=
  match call with
  | .create pid =>
    if (s.tables.allPCB pid).isNone then
      some { s with tables := s.tables.setPCB pid (some (.empty pofMaxNum fun _ => 0#32)) }
    else none
  | .lookup current filename behind =>
    if s.opening current = none then
      match s.tables.openLookup current filename behind with
      | .ok (some _, t) => some { s with tables := t }
      | .ok (none, t) => some (Openers.setOpening { s with tables := t } current (some filename))
      | .error _ => none
    else none
  | .enter current behind =>
    match s.opening current with
    | some filename =>
      match s.tables.openCreate current filename behind with
      | .ok (_, t) => some (Openers.setOpening { s with tables := t } current none)
      | .error _ => none
    | none => none
  | .close current id =>
    if s.opening current = none then
      match s.tables.closeSystemcall current id with
      | .ok t => some { s with tables := t }
      | .error _ => none
    else none

theorem performOpener_step {call : OpenerCall} {s s' : Openers}
    (performed : performOpener call s = some s') : OpenerStep s call s' := by
  cases call with
  | create pid =>
    obtain ⟨free, same⟩ := Option.ite_none_right_eq_some.mp performed
    cases same
    exact .create (Option.isNone_iff_eq_none.mp free)
  | lookup current filename behind =>
    obtain ⟨ready, found⟩ := Option.ite_none_right_eq_some.mp performed
    split at found
    next run =>
      cases found
      exact .returns ready run
    next run =>
      cases found
      exact .waits ready run
    next => cases found
  | enter current behind =>
    simp only [performOpener] at performed
    split at performed
    next filename inside =>
      split at performed
      next run =>
        cases performed
        exact .enter inside run
      next => cases performed
    next => cases performed
  | close current id =>
    obtain ⟨ready, found⟩ := Option.ite_none_right_eq_some.mp performed
    split at found
    next run =>
      cases found
      exact .close ready run
    next => cases found

def Openers.boot (files : Files) (junk : Nat → BitVec 32) : Openers := ⟨.boot files junk, fun _ => none⟩

end Nachos
