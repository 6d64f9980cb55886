import Nachos.Verified.OpenFileCounts

/-!
# The binding of descriptors

From the `Open` that returns a descriptor to the `Close` of it, the descriptor is bound to an
entry of the system table with the name that was opened.  An entry is released when its counter
falls to zero, so this rests on counters that are not too low.  They are not, unless one of them
was raised past its greatest value: a process can do that by opening the same file over and
over again, because only the first of these calls adds a descriptor.
-/

namespace Nachos

open Loops Runs RefCount

def FileCall.Ends (p : Nat) (id : Int) : FileCall → Prop
  | .close current closed => current = p ∧ closed = id
  | .exit current => current = p
  | .kill _ victim => victim = p
  | _ => False

/-- `Open` of `name` has returned `id` to process `p`, which has not closed it since.  The calls
are those made so far, the latest first. -/
def OpenAs (p : Nat) (id : Int) (name : String) : List FileCall → Prop
  | [] => False
  | call :: earlier =>
    ((∃ behind, call = .openFile p name behind id) ∧ 2 ≤ id) ∨
      (OpenAs p id name earlier ∧ ¬ call.Ends p id)

/-- `FindPOFByName` compares names: where it finds the name that is opened, it is the name of the
descriptor, and not a part of it with what the heap holds behind it. -/
def FileCall.ComparesNames (s : OpenFiles) : FileCall → Prop
  | .openFile current filename _ _ => ∀ i pof, s.Descriptor current i pof →
      pof.cString = filename → pof.filename = filename
  | _ => True

namespace OpenFiles

def BoundTo (s : OpenFiles) (p : Nat) (id : Int) (name : String) : Prop :=
  ∃ (i k : Nat) (table : Slots POF) (pof : POF) (sof : SOF),
    id = i + 2 ∧ s.allPCB p = some table ∧ table.map.bit i = true ∧ table.array i = some pof ∧
      pof.sofIndex = k ∧ s.sofMgr.Has k sof ∧ sof.filename = name ∧ sof.openFile = .path name

def WritesTo (s : OpenFiles) (p : Nat) (id : Int) (name : String) : Prop :=
  ∀ buffer size s', s.writeSystemcall p id buffer size = .ok s' →
    ∃ file file' offset, s.files (.path name) = some file ∧
      file.writeAt buffer size.toInt offset = .ok file' ∧
      s'.files = s.files.set (.path name) file'

def ReadsFrom (s : OpenFiles) (p : Nat) (id : Int) (name : String) : Prop :=
  ∀ buffer size result s', s.readSystemcall p id buffer size = .ok (result, s') →
    ∃ file offset out, s.files (.path name) = some file ∧
      file.readAt buffer size.toInt offset = .ok out ∧ result = some out

variable {s s' : OpenFiles} {p i : Nat} {pof : POF}

theorem Bound.boundTo (bound : Bound s) (descriptor : s.Descriptor p i pof) :
    s.BoundTo p (i + 2) pof.filename := by
  obtain ⟨k, sof, index, has, named⟩ := bound.bound descriptor
  obtain ⟨table, entry, inUse⟩ := descriptor
  exact ⟨i, k, table, pof, sof, rfl, entry, inUse.2.1, inUse.2.2, index, has, named,
    named ▸ bound.opened has⟩

theorem Bound.isOpen (descriptor : s.Descriptor p i pof) : s.IsOpen p (i + 2) := by
  obtain ⟨table, entry, inUse⟩ := descriptor
  have index : (i : Int) + 2 - 2 = i := by omega
  refine ⟨table, entry, ?_, ?_⟩
  · rw [index]
    exact BitMap.inRange_ofNat inUse.1
  · rw [index]
    exact inUse.2.1

theorem Bound.reaches (bound : Bound s) (descriptor : s.Descriptor p i pof) {j : Nat}
    {table : Slots POF} {pof' : POF} {sof : SOF} (index : (i : Int) + 2 = j + 2)
    (entry : s.allPCB p = some table) (has : table.Has j pof')
    (found : s.sofMgr.get pof'.sofIndex = .ok sof) : sof.openFile = .path pof.filename := by
  obtain rfl : i = j := by omega
  obtain ⟨k, sof', isK, inUse, named⟩ := bound.bound descriptor
  obtain ⟨table', entry', has'⟩ := descriptor
  cases entry.symm.trans entry'
  obtain rfl := has.unique has'
  rw [isK, inUse.get] at found
  cases found
  rw [← named, bound.opened inUse]

theorem Bound.writesTo (bound : Bound s) (descriptor : s.Descriptor p i pof) :
    s.WritesTo p (i + 2) pof.filename := by
  intro buffer size s' run
  obtain ⟨-, notOpen⟩ | ⟨j, table, pof', sof, file, file', index, entry, has, found, isFile, written,
      files, -⟩ := writeSystemcall_cases bound.sized run
  · exact absurd (Bound.isOpen descriptor) notOpen
  · rw [bound.reaches descriptor index entry has found] at isFile files
    exact ⟨file, file', _, isFile, written, files⟩

theorem Bound.readsFrom (bound : Bound s) (descriptor : s.Descriptor p i pof) :
    s.ReadsFrom p (i + 2) pof.filename := by
  intro buffer size result s' run
  obtain ⟨-, -, notOpen⟩ | ⟨j, table, pof', sof, file, out, index, entry, has, found, isFile, isRead,
      isResult, -⟩ := readSystemcall_cases bound.sized run
  · exact absurd (Bound.isOpen descriptor) notOpen
  · rw [bound.reaches descriptor index entry has found] at isFile
    exact ⟨file, _, out, isFile, isRead, isResult⟩

end OpenFiles

/-! ## Descriptors over a run -/

section Steps

variable {s s' : OpenFiles} {call : FileCall} {p i : Nat} {pof : POF}

theorem FileStep.descriptor (bound : s.Bound) (noWrap : call.NoWrap s) (step : FileStep s call s')
    (descriptor : s.Descriptor p i pof) (notEnded : ¬ call.Ends p (i + 2)) :
    ∃ pof', s'.Descriptor p i pof' ∧ pof'.filename = pof.filename := by
  -- calls after which the descriptors are those of before, up to their offsets
  have kept (same : s.SameBindings s') :
      ∃ pof', s'.Descriptor p i pof' ∧ pof'.filename = pof.filename := by
    obtain ⟨pof', after, named, -⟩ := same.after descriptor
    exact ⟨pof', after, named⟩
  cases step with
  | create isPid free least => exact kept (OpenFiles.create_same bound.sized isPid free)
  | openFile run =>
    obtain ⟨table, entry, ⟨-, ⟨-, rfl⟩ | ⟨j, k, -, opened⟩⟩ | ⟨j, other, k, -, -, -, -, reopened⟩⟩ :=
      OpenFiles.openSystemcall_cases bound noWrap run
    · exact ⟨pof, descriptor, rfl⟩
    · refine ⟨pof, (opened.others ?_).mpr descriptor, rfl⟩
      intro isNew
      obtain ⟨rfl, rfl⟩ := Prod.mk.inj isNew
      exact opened.fresh pof descriptor
    · obtain ⟨sof, -, -, rfl⟩ := reopened
      exact ⟨pof, descriptor, rfl⟩
  | close isOpen run =>
    obtain ⟨j, k, isId, closed⟩ := OpenFiles.closeSystemcall_closed bound isOpen run
    refine ⟨pof, (closed.others ?_).mpr descriptor, rfl⟩
    intro isClosed
    obtain ⟨rfl, rfl⟩ := Prod.mk.inj isClosed
    exact notEnded ⟨rfl, isId⟩
  | write run =>
    obtain ⟨rfl, -⟩ | ⟨_, _, _, _, _, _, -, -, -, -, -, -, -, same⟩ :=
      OpenFiles.writeSystemcall_cases bound.sized run
    · exact ⟨pof, descriptor, rfl⟩
    · exact kept same
  | read run =>
    obtain ⟨rfl, -⟩ | ⟨_, _, _, _, _, _, -, -, -, -, -, -, -, same⟩ :=
      OpenFiles.readSystemcall_cases bound.sized run
    · exact ⟨pof, descriptor, rfl⟩
    · exact kept same
  | exit _ run | kill _ _ run =>
    obtain ⟨closing, -⟩ := OpenFiles.deletePCB_closing bound run
    exact ⟨pof, (closing.others fun same => notEnded same.symm).mpr descriptor, rfl⟩

theorem FileStep.opens {name behind : String} {id : Int} (bound : s.Bound)
    (noWrap : (FileCall.openFile p name behind id).NoWrap s)
    (compares : (FileCall.openFile p name behind id).ComparesNames s) (valid : 2 ≤ id)
    (step : FileStep s (.openFile p name behind id) s') :
    ∃ (i : Nat) (pof : POF), id = i + 2 ∧ s'.Descriptor p i pof ∧ pof.filename = name := by
  cases step with
  | openFile run =>
    obtain ⟨table, entry, ⟨-, ⟨rfl, -⟩ | ⟨i, k, isId, opened⟩⟩ |
        ⟨i, pof, k, -, isId, has, named, reopened⟩⟩ := OpenFiles.openSystemcall_cases bound noWrap run
    · omega
    · obtain ⟨pof, named, -, here⟩ := opened.here
      exact ⟨i, pof, isId, here, named⟩
    · obtain ⟨sof, -, -, rfl⟩ := reopened
      exact ⟨i, pof, isId, ⟨table, entry, has⟩, compares i pof ⟨table, entry, has⟩ named⟩

end Steps

variable {history : List (OpenFiles × FileCall)}

theorem openAs_descriptor {files : Files} {junk : Nat → BitVec 32} {s : OpenFiles}
    (run : Run FileStep (.boot files junk) history s)
    (guarded : Guarded (fun before call => call.NoWrap before ∧ call.ComparesNames before) history) :
    s.Bound ∧ ∀ p id name, OpenAs p id name (history.map Prod.snd) →
      ∃ (i : Nat) (pof : POF), id = i + 2 ∧ s.Descriptor p i pof ∧ pof.filename = name := by
  apply run.historyInvariant (I := fun history s => s.Bound ∧
    ∀ p id name, OpenAs p id name (history.map Prod.snd) →
      ∃ (i : Nat) (pof : POF), id = i + 2 ∧ s.Descriptor p i pof ∧ pof.filename = name) _ _ guarded
  · exact ⟨OpenFiles.boot_bound files junk, by simp [OpenAs]⟩
  · intro history t call t' ⟨bound, earlier⟩ ⟨noWrap, compares⟩ step
    refine ⟨(step.effect bound noWrap).1, ?_⟩
    rintro p id name (⟨⟨behind, rfl⟩, valid⟩ | ⟨wasOpen, notEnded⟩)
    · exact step.opens bound noWrap compares valid
    · obtain ⟨i, pof, rfl, descriptor, rfl⟩ := earlier p id name wasOpen
      obtain ⟨pof', after, named⟩ := step.descriptor bound noWrap descriptor notEnded
      exact ⟨i, pof', rfl, after, named⟩

/-- In every run in which names are compared as strings and no counter is raised past its greatest
value, a descriptor that `Open` returned stays bound to its file until it is closed, `Read` and
`Write` on it reach that file, and different files have different descriptors. -/
theorem descriptor_binding {files : Files} {junk : Nat → BitVec 32}
    {history : List (OpenFiles × FileCall)} {s : OpenFiles}
    (run : Run FileStep (.boot files junk) history s)
    (guarded : Guarded (fun before call => call.NoWrap before ∧ call.ComparesNames before) history) :
    (∀ p id name, OpenAs p id name (history.map Prod.snd) →
      s.BoundTo p id name ∧ s.WritesTo p id name ∧ s.ReadsFrom p id name) ∧
    ∀ p id id' name name', OpenAs p id name (history.map Prod.snd) → OpenAs p id' name'
      (history.map Prod.snd) →
      name ≠ name' → id ≠ id' := by
  obtain ⟨bound, isOpen⟩ := openAs_descriptor run guarded
  constructor
  · intro p id name opened
    obtain ⟨i, pof, rfl, descriptor, rfl⟩ := isOpen p id name opened
    exact ⟨bound.boundTo descriptor, bound.writesTo descriptor, bound.readsFrom descriptor⟩
  · rintro p id id' name name' opened opened' different rfl
    obtain ⟨i, pof, rfl, ⟨table, entry, has⟩, rfl⟩ := isOpen p id name opened
    obtain ⟨j, pof', same, ⟨table', entry', has'⟩, rfl⟩ := isOpen p (i + 2) name' opened'
    obtain rfl : i = j := by omega
    cases entry.symm.trans entry'
    exact different (by rw [has.unique has'])

theorem comparesNames_of_not_reopens {s : OpenFiles} {call : FileCall} (fresh : ¬ call.Reopens s) :
    call.ComparesNames s := by
  cases call with
  | openFile current filename behind id =>
    rintro i pof ⟨table, entry, has⟩ named
    obtain ⟨j, -, -, -, found⟩ | ⟨-, unnamed⟩ :=
      Slots.findByName_cases POF.cString filename table
    · refine absurd ⟨table, entry, ?_⟩ fresh
      rw [OpenFiles.findPOFByName, found]
      omega
    · exact absurd named (unnamed i pof has)
  | _ => trivial

/-- When no `Open` finds a descriptor, no counter comes near its greatest value. -/
theorem guarded_of_not_reopening {files : Files} {junk : Nat → BitVec 32} {s : OpenFiles}
    (run : Run FileStep (.boot files junk) history s)
    (guarded : Guarded (fun before call => ¬ call.Reopens before) history) :
    Guarded (fun before call => call.NoWrap before ∧ call.ComparesNames before) history := by
  refine (run.historyInvariant (I := fun history t => (t.Bound ∧ Exact t.counts) ∧
    Guarded (fun before call => call.NoWrap before ∧ call.ComparesNames before) history)
    ?_ ?_ guarded).2
  · exact ⟨⟨OpenFiles.boot_bound files junk, OpenFiles.boot_exact files junk⟩, by simp [Guarded]⟩
  · intro history t call t' ⟨⟨bound, exact⟩, earlier⟩ notOpen step
    have noWrap := OpenFiles.noWrap_of_exact exact call
    obtain ⟨after, ⟨-, balanced⟩ | ⟨isOpen, -⟩⟩ := step.effect bound noWrap
    · refine ⟨⟨after, balanced.exact exact⟩, ?_⟩
      intro taken member
      obtain rfl | member := List.mem_cons.mp member
      · exact ⟨noWrap, comparesNames_of_not_reopens notOpen⟩
      · exact earlier taken member
    · exact absurd isOpen notOpen

/-- A process has two files open, one of them shared with a process that has ended. -/
theorem descriptor_binding_shared_file : ∃ history s,
    Run FileStep (.boot (fun name => if name = .path "f" ∨ name = .path "g" then some .empty else none)
      fun _ => 0#32) history s ∧
      history.map Prod.snd = [.exit 1, .openFile 1 "f" "" 2, .openFile 0 "g" "" 3, .openFile 0 "f" "" 2,
        .create 1, .create 0] ∧
      s.BoundTo 0 2 "f" ∧ s.BoundTo 0 3 "g" := by
  refine computed_run performFile_step (fun history _ =>
      Guarded (fun before call => ¬ call.Reopens before) history)
    [.create 0, .create 1, .openFile 0 "f" "" 2, .openFile 0 "g" "" 3, .openFile 1 "f" "" 2, .exit 1]
    (by decide +kernel) fun history s run labels checked => ⟨labels, ?_⟩
  have bound := (descriptor_binding run (guarded_of_not_reopening run checked)).1
  rw [labels] at bound
  refine ⟨(bound 0 2 "f" ?_).1, (bound 0 3 "g" ?_).1⟩
  · simp [OpenAs, FileCall.Ends]
  · simp [OpenAs, FileCall.Ends]

/-! ## A counter that is raised past its greatest value -/

section Wrap

variable {s : OpenFiles} {p i k : Nat} {table : Slots POF} {sof : SOF} {filename : String}

def OpenFiles.raised (s : OpenFiles) (k : Nat) (sof : SOF) (times : Nat) : OpenFiles :=
  { s with
    sofMgr := s.sofMgr.update k { sof with counter := sof.counter + BitVec.ofNat 32 times } }

theorem raised_findSOFByName (has : s.sofMgr.Has k sof) (times : Nat) :
    (s.raised k sof times).findSOFByName filename = s.findSOFByName filename := by
  have same : ∀ j, (((s.raised k sof times).sofMgr.array j).any fun x => x.filename == filename) =
      ((s.sofMgr.array j).any fun x => x.filename == filename) := by
    intro j
    by_cases isK : j = k
    · subst isK
      simp [OpenFiles.raised, Slots.update, has.2.2]
    · simp [OpenFiles.raised, Slots.update, isK]
  unfold OpenFiles.findSOFByName Slots.findByName
  simp only [same]
  rfl

theorem Slots.update_update {β : Type} (t : Slots β) (x y : β) :
    (t.update k x).update k y = t.update k y := by
  simp only [Slots.update, Slots.mk.injEq, true_and]
  funext j
  split <;> rfl

/-- `Open` of a file that is open already only raises its counter. -/
theorem openSystemcall_raises (entry : s.allPCB p = some table)
    (isOpen : OpenFiles.findPOFByName filename table = (i : Int)) (has : s.sofMgr.Has k sof)
    (inSystem : s.findSOFByName filename = (k : Int)) (times : Nat) :
    (s.raised k sof times).openSystemcall p filename "" =
      .ok ((i : Int) + 2, s.raised k sof (times + 1)) := by
  have notNone : ¬ ((k : Int) = -1) := by omega
  have isDescriptor : ¬ ((i : Int) = -1) := by omega
  have found : (s.raised k sof times).pcb p = .ok table := by
    simp [OpenFiles.pcb, OpenFiles.raised, entry]
  have here : (s.raised k sof times).sofMgr.Has k
      { sof with counter := sof.counter + BitVec.ofNat 32 times } :=
    (Slots.has_update has).mpr (Or.inl ⟨rfl, rfl⟩)
  simp only [OpenFiles.openSystemcall, found, raised_findSOFByName has, inSystem, isOpen,
    OpenFiles.openDescriptor, if_neg notNone, if_neg isDescriptor, OpenFiles.incSOFCounter, here.get,
    ok_bind, pure_eq, Int.toNat_natCast]
  simp only [OpenFiles.raised, Slots.update_update, BitVec.add_assoc, BitVec.ofNat_add]

/-- So the counter can be raised as often as one likes. -/
theorem reopening_run {s₀ : OpenFiles} (run : Run FileStep s₀ history s)
    (entry : s.allPCB p = some table) (isOpen : OpenFiles.findPOFByName filename table = (i : Int))
    (has : s.sofMgr.Has k sof) (inSystem : s.findSOFByName filename = (k : Int)) (times : Nat) :
    ∃ longer, Run FileStep s₀ longer (s.raised k sof (times + 1)) ∧
      ∃ earlier, longer.map Prod.snd = .openFile p filename "" (i + 2) :: earlier := by
  have next : ∀ n, FileStep (s.raised k sof n) (.openFile p filename "" (i + 2))
      (s.raised k sof (n + 1)) :=
    fun n => .openFile (openSystemcall_raises entry isOpen has inSystem n)
  have start : s.raised k sof 0 = s := by
    have same : s.sofMgr.update k { sof with counter := sof.counter + BitVec.ofNat 32 0 } =
        s.sofMgr := by
      cases sofs : s.sofMgr with
      | mk map array filled =>
        have object : array k = some sof := by simpa [sofs] using has.2.2
        simp only [Slots.update, Slots.mk.injEq, true_and]
        funext j
        split
        next isK => simp [isK, object]
        next => rfl
    simp only [OpenFiles.raised, same]
  induction times with
  | zero => exact ⟨_, (start.symm ▸ run).next (next 0), _, rfl⟩
  | succ n ih =>
    obtain ⟨longer, reached, -⟩ := ih
    exact ⟨_, reached.next (next (n + 1)), _, rfl⟩

end Wrap

def sharedFile : Option (List (OpenFiles × FileCall) × OpenFiles) :=
  Runs.execute performFile [.create 0, .create 1, .openFile 0 "f" "" 2] []
    (.boot (.only (.path "f") .empty) fun _ => 0#32)

/-- The first process opens its file `2 ^ 32` times in all, which brings the counter back to
zero.  The second process opens and closes the file, which releases the entry that the
descriptor of the first is bound to. -/
theorem wrapped_counter_unbinds : ∃ history s,
    Run FileStep (.boot (.only (.path "f") .empty) fun _ => 0#32) history s ∧
      OpenAs 0 2 "f" (history.map Prod.snd) ∧ ¬ s.BoundTo 0 2 "f" := by
  -- the state before the counter is raised
  have computed : sharedFile.any (fun result =>
      (result.2.allPCB 0).any (fun table =>
        decide (OpenFiles.findPOFByName "f" table = ((0 : Nat) : Int))) &&
      decide (result.2.findSOFByName "f" = ((0 : Nat) : Int) ∧
        0 < result.2.sofMgr.map.numBits ∧ result.2.sofMgr.map.bit 0 = true ∧
        result.2.sofMgr.array 0 = some ⟨"f", .path "f", 1#32⟩)) = true := by
    decide +kernel
  -- the last two calls, after it was raised `2 ^ 32 - 1` times
  have last : sharedFile.any (fun result => (Runs.execute performFile [.openFile 1 "f" "" 2, .close 1 2] []
      { result.2 with sofMgr := result.2.sofMgr.update 0 ⟨"f", .path "f", 0#32⟩ }).any fun after =>
        !after.2.sofMgr.map.bit 0 &&
          (after.2.allPCB 0).any fun table => table.array 0 == some ⟨"f", "", 0, 0#32⟩) = true := by
    decide +kernel
  obtain ⟨⟨history, s⟩, executed, checked⟩ := Option.any_eq_true _ _ |>.mp computed
  rw [executed] at last
  simp only [Option.any_some, Bool.and_eq_true, decide_eq_true_eq] at checked last
  obtain ⟨opened, inSystem, inside, isSet, object⟩ := checked
  obtain ⟨table, entry, isOpen⟩ := Option.any_eq_true _ _ |>.mp opened
  obtain ⟨longer, run, earlier, labels⟩ := reopening_run (execute_run performFile_step .start executed)
    entry (of_decide_eq_true isOpen) ⟨inside, isSet, object⟩ inSystem (2 ^ 32 - 2)
  have wrapped : s.raised 0 ⟨"f", .path "f", 1#32⟩ (2 ^ 32 - 2 + 1) =
      { s with sofMgr := s.sofMgr.update 0 ⟨"f", .path "f", 0#32⟩ } := by
    simp [OpenFiles.raised]
  rw [wrapped] at run
  obtain ⟨⟨ending, after⟩, finished, released⟩ := Option.any_eq_true _ _ |>.mp last
  have whole := execute_run performFile_step run (execute_append longer finished)
  have lastCalls := execute_labels finished
  simp only [Bool.and_eq_true, Bool.not_eq_true'] at released
  obtain ⟨isFree, left⟩ := released
  obtain ⟨table', entry', pofObject⟩ := Option.any_eq_true _ _ |>.mp left
  refine ⟨ending ++ longer, after, whole, ?_, ?_⟩
  · rw [List.map_append, lastCalls, labels]
    simp [OpenAs, FileCall.Ends]
  · rintro ⟨i', k', table'', pof, sof, isId, entry'', -, object', index, has, -⟩
    obtain rfl : i' = 0 := by omega
    cases entry'.symm.trans entry''
    rw [object'] at pofObject
    obtain rfl : pof = ⟨"f", "", 0, 0#32⟩ := by simpa using pofObject
    obtain rfl : k' = 0 := Int.ofNat_inj.mp index.symm
    rw [has.2.1] at isFree
    cases isFree

end Nachos
