import Nachos.Verified.UserCopies

/-!
# The pages that a transfer visits

A call of `userReadWrite` goes through its range page by page.  It brings each page in, marks it as
used and, with `'r'`, stores its part of the buffer into the frame.  `Visits` is the state after some
of the pages.  A call visits all pages of its range, or comes to an address that `Translate` rejects,
or to a page that `PageIn` fails for.
-/

namespace Nachos

open Loops Runs

/-- The range is in the address space, at addresses that are not negative as an `int`. -/
structure AddrSpace.Contains (space : AddrSpace) (virtAddr : BitVec 32) (size : Int) : Prop where
  nonneg : 0 ≤ virtAddr.toInt
  pages : virtAddr.toInt + size ≤ (space.numPages * pageSize : Nat)
  signed : virtAddr.toInt + size ≤ 2 ^ 31

instance (space : AddrSpace) (virtAddr : BitVec 32) (size : Int) :
    Decidable (space.Contains virtAddr size) :=
  decidable_of_iff (0 ≤ virtAddr.toInt ∧ virtAddr.toInt + size ≤ (space.numPages * pageSize : Nat) ∧
      virtAddr.toInt + size ≤ 2 ^ 31)
    ⟨fun ⟨nonneg, pages, signed⟩ => ⟨nonneg, pages, signed⟩,
      fun inside => ⟨inside.nonneg, inside.pages, inside.signed⟩⟩

def AddrSpace.Rejects (space : AddrSpace) (addr : BitVec 32) : Prop :=
  addr.toInt < 0 ∨ space.numPages ≤ addr.toNat / pageSize

def AddrSpace.Accepts (space : AddrSpace) (v : Nat) : Prop :=
  v < space.numPages ∧ v * pageSize < 2 ^ 31

instance (space : AddrSpace) (v : Nat) : Decidable (space.Accepts v) :=
  inferInstanceAs (Decidable (_ ∧ _))

inductive BroughtIn (s : Kernel) (pid : Nat) (addr : BitVec 32) : Kernel → Prop where
  | present {space : AddrSpace} : s.allPCB pid = some space →
      (space.pageTable (addr.toNat / pageSize)).valid = true → BroughtIn s pid addr s
  | loaded {space : AddrSpace} {s₁ : Kernel} : s.allPCB pid = some space →
      (space.pageTable (addr.toNat / pageSize)).valid = false → pageIn pid addr s = .ok s₁ →
      BroughtIn s pid addr s₁

def TransferOpt.stored : TransferOpt → Nat → Nat
  | .r, n => n
  | .w, _ => 0

theorem TransferOpt.stored_le (opt : TransferOpt) (n : Nat) : opt.stored n ≤ n := by
  cases opt with
  | r => exact Nat.le_refl n
  | w => exact Nat.zero_le n

/-- Part `j` of a range: `n` bytes from `addr` on, in one page, with `k` bytes of the range before
them. -/
structure RangePart (va size j k n addr : Nat) : Prop where
  address : addr = va + k
  page : addr / pageSize = va / pageSize + j
  boundary : j = 0 ∧ k = 0 ∨ addr % pageSize = 0
  within : addr % pageSize + n ≤ pageSize
  most : k + n ≤ size
  nonempty : 0 < size → 0 < n
  covers : rangePages va size (addr / pageSize)

inductive Visits (pid : Nat) (opt : TransferOpt) (buffer : Nat → Byte) (virtAddr : BitVec 32)
    (size : Nat) (s : Kernel) : Nat → Nat → Kernel → Prop where
  | start : Visits pid opt buffer virtAddr size s 0 0 s
  | next {j k n f : Nat} {t t₁ : Kernel} {addr : BitVec 32} {space₁ : AddrSpace}
      (earlier : Visits pid opt buffer virtAddr size s j k t)
      (part : RangePart virtAddr.toNat size j k n addr.toNat) (addressable : addr.toNat < 2 ^ 31)
      (brought : BroughtIn t pid addr t₁) (inFrame : InFrame t₁ pid space₁ addr f) :
      Visits pid opt buffer virtAddr size s (j + 1) (k + n)
        (t₁.storeInto pid space₁ (addr.toNat / pageSize) false (fun i => buffer (k + i))
          (f * pageSize + addr.toNat % pageSize) (opt.stored n))

structure LoadFails (pid : Nat) (opt : TransferOpt) (buffer : Nat → Byte) (virtAddr : BitVec 32)
    (size : Nat) (s : Kernel) (fault : Fault) : Prop where
  reached : ∃ j k n t addr space, Visits pid opt buffer virtAddr size s j k t ∧
    RangePart virtAddr.toNat size j k n addr.toNat ∧ addr.toNat < 2 ^ 31 ∧
    Absent t pid space addr ∧ pageIn pid addr t = .error fault

variable {pid size : Nat} {opt : TransferOpt} {buffer : Nat → Byte} {virtAddr addr : BitVec 32}
  {s s₁ : Kernel} {space space₁ : AddrSpace} {t t' : Transfer} {fault : Fault}

/-! ## The sizes of the copies -/

section Sizes

variable {va next : Nat} {made rest : List Nat}

theorem replicate_made {rounds : Nat} {last : List Nat} (short : last.length ≤ 1)
    (split : List.replicate rounds pageSize ++ last = made ++ next :: rest) :
    made.sum = made.length * pageSize := by
  induction rounds generalizing made with
  | zero =>
    have lengths := congrArg List.length split
    simp only [List.replicate_zero, List.nil_append, List.length_append, List.length_cons] at lengths
    obtain rfl : made = [] := List.length_eq_zero_iff.mp (by omega)
    rfl
  | succ rounds ih =>
    cases made with
    | nil => rfl
    | cons first made =>
      simp only [List.replicate_succ, List.cons_append, List.cons.injEq] at split
      obtain ⟨rfl, split⟩ := split
      rw [List.sum_cons, ih split, List.length_cons, Nat.add_mul, Nat.one_mul, Nat.add_comm]

/-- The copies before another one end at a page boundary. -/
theorem copySizes_made (sizes : copySizes va size = made ++ next :: rest) :
    made = [] ∨ va % pageSize + made.sum = made.length * pageSize := by
  have small := Nat.mod_lt va (show 0 < pageSize by decide)
  have tail : ∀ left : Nat, (if left % pageSize = 0 then [] else [left % pageSize]).length ≤ 1 := by
    intro left
    split <;> simp
  by_cases aligned : va % pageSize = 0
  · simp only [copySizes, if_pos aligned, List.nil_append] at sizes
    rw [replicate_made (tail _) sizes, aligned, Nat.zero_add]
    exact .inr rfl
  · cases made with
    | nil => exact .inl rfl
    | cons first made =>
      simp only [copySizes, if_neg aligned, List.cons_append, List.cons.injEq] at sizes
      obtain ⟨rfl, sizes⟩ := sizes
      -- there is more to copy, so the first copy goes to the end of its page
      have more : pageSize - va % pageSize ≤ size := by
        by_contra all
        rw [Nat.min_eq_left (by omega), Nat.sub_self] at sizes
        simp at sizes
      rw [List.sum_cons, replicate_made (tail _) sizes, List.length_cons, Nat.min_eq_right more,
        Nat.add_mul, Nat.one_mul]
      exact .inr (by omega)

/-- A copy of a call stays in its page. -/
theorem copySizes_next (sizes : copySizes va size = made ++ next :: rest) :
    RangePart va size made.length made.sum next (va + made.sum) := by
  have sum : made.sum + (next + rest.sum) = size := by
    rw [← List.sum_cons, ← List.sum_append, ← sizes]
    exact copySizes_sum
  have split := Nat.div_add_mod' va pageSize
  have place := Nat.div_add_mod' (va + made.sum) pageSize
  have small := Nat.mod_lt (va + made.sum) (show 0 < pageSize by decide)
  have within : (va + made.sum) % pageSize + next ≤ pageSize ∧ (0 < size → 0 < next) ∧
      rangePages va size ((va + made.sum) / pageSize) := by
    by_cases positive : 0 < size
    · have within : WithinPages va (copySizes va size) := copySizes_withinPages positive
      rw [sizes, withinPages_append] at within
      obtain ⟨-, ⟨nonempty, fits⟩, -⟩ := within
      refine ⟨fits, fun _ => nonempty, ?_, by omega⟩
      rw [Nat.add_mul]
      omega
    · -- only a call that starts inside a page has a copy of no bytes
      have unaligned : va % pageSize ≠ 0 := by
        intro aligned
        have zero : size = 0 := by omega
        simp [copySizes, aligned, zero] at sizes
      have nothing : made.sum = 0 := by omega
      rw [nothing, Nat.add_zero] at small ⊢
      refine ⟨by omega, by omega, ?_, by omega⟩
      rw [Nat.add_mul]
      omega
  obtain rfl | start := copySizes_made sizes
  · exact ⟨rfl, rfl, .inl ⟨rfl, rfl⟩, within.1, by omega, within.2.1, within.2.2⟩
  · have start : va + made.sum = (va / pageSize + made.length) * pageSize := by
      rw [Nat.add_mul]
      omega
    refine ⟨rfl, ?_, .inr ?_, within.1, by omega, within.2.1, within.2.2⟩
    · rw [start, Nat.mul_div_cancel _ (by decide)]
    · rw [start, Nat.mul_mod_left]

end Sizes

/-! ## One copy -/

theorem addrSpaceTranslate_rejects (found : s.allPCB pid = some space)
    (outside : space.Rejects addr) (size : Int) :
    addrSpaceTranslate pid addr size s = .ok (none, s) := by
  unfold addrSpaceTranslate
  by_cases negative : addr.toInt < 0
  · rw [if_pos negative]
    rfl
  · have past := outside.resolve_left negative
    rw [if_neg negative]
    simp only [Kernel.space, found, ok_bind]
    rw [if_pos past]
    rfl

theorem copyChunk_rejects (found : t.kernel.allPCB pid = some space)
    (outside : space.Rejects t.curVirtAddr) (size : Int) :
    copyChunk pid opt size t = .ok (false, t) := by
  simp only [copyChunk, addrSpaceTranslate_rejects found outside, ok_bind]
  rfl

theorem toNat_lt_of_nonneg (nonneg : 0 ≤ addr.toInt) : addr.toNat < 2 ^ 31 := by
  have signed := toInt_of_nonneg nonneg
  have bound := BitVec.toInt_lt (x := addr)
  omega

theorem Kernel.storeInto_zero (s : Kernel) (pid : Nat) (space : AddrSpace) (vpn : Nat)
    (bytes : Nat → Byte) (physAddr : Nat) :
    s.storeInto pid space vpn false bytes physAddr 0 =
      s.setSpace pid (some (space.setEntry vpn ((space.pageTable vpn).touched false))) := by
  have nothing : bcopy bytes physAddr 0 s.machine.mainMemory = s.machine.mainMemory := by
    funext address
    exact if_neg (by omega)
  rw [Kernel.storeInto, nothing]
  rfl

theorem copyChunk_inFrame (opt : TransferOpt) {f n : Nat}
    (inFrame : InFrame t.kernel pid space t.curVirtAddr f)
    (addressable : t.curVirtAddr.toNat < 2 ^ 31)
    (within : t.curVirtAddr.toNat % pageSize + n ≤ pageSize) :
    ∃ t', copyChunk pid opt n t = .ok (true, t') ∧ (opt = .r → t'.buffer = t.buffer) ∧
      t'.kernel = t.kernel.storeInto pid space (t.curVirtAddr.toNat / pageSize) false t.rest
        (f * pageSize + t.curVirtAddr.toNat % pageSize) (opt.stored n) := by
  cases opt with
  | r => exact ⟨_, copyChunk_resident inFrame addressable within, fun _ => rfl, rfl⟩
  | w => exact ⟨_, copyChunk_resident_w inFrame addressable within, by simp,
      (Kernel.storeInto_zero ..).symm⟩

inductive Chunk (pid : Nat) (opt : TransferOpt) (space : AddrSpace) (n : Nat) (t : Transfer) :
    Prop where
  | rejected (outside : space.Rejects t.curVirtAddr)
      (result : ∀ size : Int, copyChunk pid opt size t = .ok (false, t))
  | copied {t' : Transfer} {s₁ : Kernel} {space₁ : AddrSpace} {f : Nat}
      (brought : BroughtIn t.kernel pid t.curVirtAddr s₁)
      (inFrame : InFrame s₁ pid space₁ t.curVirtAddr f)
      (result : copyChunk pid opt n t = .ok (true, t'))
      (sameBuffer : opt = .r → t'.buffer = t.buffer)
      (kernel : t'.kernel = s₁.storeInto pid space₁ (t.curVirtAddr.toNat / pageSize) false t.rest
        (f * pageSize + t.curVirtAddr.toNat % pageSize) (opt.stored n))
  | failed {fault : Fault} (absent : Absent t.kernel pid space t.curVirtAddr)
      (fails : pageIn pid t.curVirtAddr t.kernel = .error fault)
      (result : copyChunk pid opt n t = .error fault)

theorem chunk_cases {n : Nat} (opt : TransferOpt) (wf : WellFormed t.kernel)
    (found : t.kernel.allPCB pid = some space)
    (within : t.curVirtAddr.toNat % pageSize + n ≤ pageSize) : Chunk pid opt space n t := by
  by_cases outside : space.Rejects t.curVirtAddr
  · exact .rejected outside (copyChunk_rejects found outside)
  have addressable := toNat_lt_of_nonneg (not_lt.mp fun negative => outside (.inl negative))
  have inTable : t.curVirtAddr.toNat / pageSize < space.numPages :=
    not_le.mp fun past => outside (.inr past)
  cases valid : (space.pageTable (t.curVirtAddr.toNat / pageSize)).valid with
  | true =>
    obtain ⟨f, inFrame⟩ := InFrame.of_valid wf found inTable valid
    obtain ⟨t', run, sameBuffer, kernel⟩ := copyChunk_inFrame opt inFrame addressable within
    exact .copied (.present found valid) inFrame run sameBuffer kernel
  | false =>
    have absent : Absent t.kernel pid space t.curVirtAddr := ⟨found, inTable, valid⟩
    cases loaded : pageIn pid t.curVirtAddr t.kernel with
    | error fault => exact .failed absent loaded (copyChunk_fails absent addressable loaded _ _)
    | ok s₁ =>
      obtain ⟨space₁, f, inFrame, -⟩ := pageIn_entries wf found loaded
      obtain ⟨t', run, sameBuffer, kernel⟩ :=
        copyChunk_inFrame (t := { t with kernel := s₁ }) opt inFrame addressable within
      exact .copied (.loaded found valid loaded) inFrame
        ((copyChunk_loads absent addressable loaded inFrame _ _).trans run) sameBuffer kernel

/-! ## What visits keep -/

theorem BroughtIn.faults (wf : WellFormed s) (found : s.allPCB pid = some space)
    (invalid : (space.pageTable (addr.toNat / pageSize)).valid = false)
    (run : pageIn pid addr s = .ok s₁) : PageFaults s pid addr := by
  obtain ⟨space₁, f, inFrame, pages, -⟩ := pageIn_entries wf found run
  exact ⟨_, ⟨space, found, pages ▸ inFrame.inTable, rfl⟩, invalid⟩

theorem BroughtIn.sound (brought : BroughtIn s pid addr s₁) (sound : Sound s) : Sound s₁ := by
  cases brought with
  | present => exact sound
  | loaded found invalid run =>
    exact (Step.pageFault (faults sound.toWellFormed found invalid run) run).sound sound

theorem BroughtIn.programs (brought : BroughtIn s pid addr s₁) (sound : Sound s) (q : Nat) :
    program s₁ q = program s q := by
  cases brought with
  | present => rfl
  | loaded found invalid run =>
    exact (pageFault_cells sound (faults sound.toWellFormed found invalid run) run).1 q

section Visits

variable {j k : Nat} {u : Kernel}

theorem Visits.kept (visits : Visits pid opt buffer virtAddr size s j k u) (sound : Sound s) :
    Sound u ∧ ∀ q, program u q = program s q := by
  induction visits with
  | start => exact ⟨sound, fun _ => rfl⟩
  | next earlier part addressable brought inFrame ih =>
    obtain ⟨sound, programs⟩ := ih
    have sound₁ := brought.sound sound
    refine ⟨touched_sound false sound₁ inFrame.found inFrame.inTable rfl rfl rfl, fun q => ?_⟩
    refine .trans ?_ ((brought.programs sound q).trans (programs q))
    exact program_setSpace inFrame.found rfl (by rfl) q

theorem Visits.sameHost (visits : Visits pid opt buffer virtAddr size s j k u) (sound : Sound s) :
    SameHost s u := by
  induction visits with
  | start => exact ⟨rfl, fun _ => rfl⟩
  | next earlier _ _ brought _ ih =>
    cases brought with
    | present => exact ⟨ih.bigEndian, ih.paths⟩
    | loaded found invalid run =>
      obtain ⟨soundT, -⟩ := earlier.kept sound
      have faults := BroughtIn.faults soundT.toWellFormed found invalid run
      obtain ⟨bigEndian, paths⟩ := (Step.pageFault faults run).sameHost soundT.toWellFormed
      exact ⟨bigEndian.trans ih.bigEndian, fun name => (paths name).trans (ih.paths name)⟩

theorem Visits.found (visits : Visits pid opt buffer virtAddr size s j k u) (sound : Sound s)
    (found : s.allPCB pid = some space) :
    ∃ space', u.allPCB pid = some space' ∧ space'.program = space.program := by
  rw [← program_eq_some, (visits.kept sound).2]
  exact program_eq_some.mpr ⟨space, found, rfl⟩

/-- The program in the frame that was brought in is the one that the call began with. -/
theorem Visits.brought {t₁ : Kernel} {f : Nat} (visits : Visits pid opt buffer virtAddr size s j k u)
    (sound : Sound s) (found : s.allPCB pid = some space) (brought : BroughtIn u pid addr t₁)
    (inFrame : InFrame t₁ pid space₁ addr f) : space₁.program = space.program := by
  obtain ⟨soundU, programs⟩ := visits.kept sound
  have after := program_eq_some.mpr ⟨space₁, inFrame.found, rfl⟩
  have before := program_eq_some.mpr ⟨space, found, rfl⟩
  rw [brought.programs soundU, programs, before] at after
  exact (Option.some.inj after).symm

theorem Visits.accepts (visits : Visits pid opt buffer virtAddr size s j k u) (sound : Sound s)
    (found : s.allPCB pid = some space) {v : Nat} (first : virtAddr.toNat / pageSize ≤ v)
    (visited : v < virtAddr.toNat / pageSize + j) : space.Accepts v := by
  induction visits with
  | start => omega
  | @next j k n f t t₁ addr space₁ earlier part addressable brought inFrame ih =>
    have page := part.page
    by_cases before : v < virtAddr.toNat / pageSize + j
    · exact ih before
    · obtain rfl : v = addr.toNat / pageSize := by omega
      have pages : space₁.numPages = space.numPages :=
        congrArg Program.numPages (earlier.brought sound found brought inFrame)
      exact ⟨pages ▸ inFrame.inTable, Nat.lt_of_le_of_lt (Nat.div_mul_le_self ..) addressable⟩

theorem Visits.reach (visits : Visits pid opt buffer virtAddr size s j k u) :
    j = 0 ∧ k = 0 ∨ virtAddr.toNat + k ≤ (virtAddr.toNat / pageSize + j) * pageSize := by
  cases visits with
  | start => exact .inl ⟨rfl, rfl⟩
  | @next j k n f _ _ addr _ _ part =>
    obtain ⟨address, page, -, within, -⟩ := part
    refine .inr ?_
    simp only [pageSize] at *
    omega

theorem Visits.lt (visits : Visits pid opt buffer virtAddr size s j k u) (sound : Sound s)
    (found : s.allPCB pid = some space) : virtAddr.toNat + k < 2 ^ 32 := by
  have bound := virtAddr.isLt
  obtain ⟨-, rfl⟩ | reach := visits.reach
  · exact bound
  · by_cases none : j = 0
    · simp only [pageSize] at reach
      omega
    · have last := visits.accepts sound found (v := virtAddr.toNat / pageSize + (j - 1))
        (Nat.le_add_right ..) (by omega)
      simp only [AddrSpace.Accepts, pageSize] at last reach
      omega

end Visits

/-! ## Calls -/

structure Copying (pid : Nat) (opt : TransferOpt) (buffer : Nat → Byte) (virtAddr : BitVec 32)
    (size : Nat) (s : Kernel) (j k : Nat) (t : Transfer) : Prop where
  address : t.curVirtAddr = virtAddr + BitVec.ofNat 32 k
  position : t.curBuffer = (k : Int)
  sameBuffer : opt = .r → t.buffer = buffer
  visits : Visits pid opt buffer virtAddr size s j k t.kernel

theorem Copying.start (left : Int) :
    Copying pid opt buffer virtAddr size s 0 0 ⟨s, buffer, virtAddr, 0, left⟩ :=
  ⟨by simp, rfl, fun _ => rfl, .start⟩

theorem Copying.stores {j k n f : Nat} (copying : Copying pid opt buffer virtAddr size s j k t)
    (s₁ : Kernel) (space₁ : AddrSpace) (vpn : Nat) :
    s₁.storeInto pid space₁ vpn false t.rest f (opt.stored n) =
      s₁.storeInto pid space₁ vpn false (fun i => buffer (k + i)) f (opt.stored n) := by
  cases opt with
  | r =>
    have rest : t.rest = fun i => buffer (k + i) := by
      funext i
      rw [Transfer.rest, copying.position, Int.toNat_natCast, copying.sameBuffer rfl]
    rw [rest]
  | w => exact (Kernel.storeInto_zero ..).trans (Kernel.storeInto_zero ..).symm

theorem rejects_iff : space.Rejects addr ↔ ¬ space.Accepts (addr.toNat / pageSize) := by
  rw [AddrSpace.Rejects, AddrSpace.Accepts, BitVec.toInt_eq_toNat_cond]
  simp only [pageSize]
  split <;> omega

/-- One more page: it is visited, its address is rejected, or `PageIn` fails. -/
theorem Copying.next {j k n : Nat} (copying : Copying pid opt buffer virtAddr size s j k t)
    (sound : Sound s) (found : s.allPCB pid = some space)
    (part : RangePart virtAddr.toNat size j k n (virtAddr.toNat + k)) :
    (¬ space.Accepts ((virtAddr.toNat + k) / pageSize) ∧ copyChunk pid opt n t = .ok (false, t)) ∨
      (∃ t', copyChunk pid opt n t = .ok (true, t') ∧
        Copying pid opt buffer virtAddr size s (j + 1) (k + n) t') ∨
      ∃ fault, copyChunk pid opt n t = .error fault ∧
        LoadFails pid opt buffer virtAddr size s fault := by
  obtain ⟨soundT, -⟩ := copying.visits.kept sound
  obtain ⟨space', found', same⟩ := copying.visits.found sound found
  have pages : space'.numPages = space.numPages := congrArg Program.numPages same
  have toNat : t.curVirtAddr.toNat = virtAddr.toNat + k := by
    rw [copying.address]
    exact toNat_add_ofNat (copying.visits.lt sound found)
  have rejects : space'.Rejects t.curVirtAddr ↔ ¬ space.Accepts ((virtAddr.toNat + k) / pageSize) := by
    rw [rejects_iff, toNat, AddrSpace.Accepts, AddrSpace.Accepts, pages]
  rw [← toNat] at part
  by_cases outside : space'.Rejects t.curVirtAddr
  · exact .inl ⟨rejects.mp outside, copyChunk_rejects found' outside _⟩
  have addressable : t.curVirtAddr.toNat < 2 ^ 31 := toNat_lt_of_nonneg
    (not_lt.mp fun negative => outside (.inl negative))
  cases chunk_cases opt soundT.toWellFormed found' part.within with
  | rejected rejected => exact absurd rejected outside
  | @copied t' s₁ space₁ f brought inFrame result sameBuffer kernel =>
    obtain ⟨address, position, -⟩ := copyChunk_advances result
    refine .inr (.inl ⟨t', result, ?_, ?_, fun isR => ?_, ?_⟩)
    · rw [address, copying.address, BitVec.add_assoc, BitVec.ofNat_add]
    · rw [position, copying.position, Nat.cast_add]
    · rw [sameBuffer isR, copying.sameBuffer isR]
    · rw [kernel, copying.stores]
      exact copying.visits.next part addressable brought inFrame
  | failed absent fails result =>
    exact .inr (.inr ⟨_, result, ⟨j, k, n, _, _, space', copying.visits, part, addressable, absent,
      fails⟩⟩)

/-- Some of the copies of a call, after those made. -/
theorem Copying.copyAll {made now rest : List Nat} (sound : Sound s)
    (found : s.allPCB pid = some space)
    (sizes : copySizes virtAddr.toNat size = made ++ (now ++ rest))
    (copying : Copying pid opt buffer virtAddr size s made.length made.sum t) :
    (∃ t', Nachos.copyAll pid opt now t = .ok (some t') ∧
        Copying pid opt buffer virtAddr size s (made ++ now).length (made ++ now).sum t') ∨
      (Nachos.copyAll pid opt now t = .ok none ∧
        ∃ v, rangePages virtAddr.toNat size v ∧ ¬ space.Accepts v) ∨
      ∃ fault, Nachos.copyAll pid opt now t = .error fault ∧
        LoadFails pid opt buffer virtAddr size s fault := by
  induction now generalizing made t with
  | nil =>
    rw [List.append_nil]
    exact .inl ⟨t, rfl, copying⟩
  | cons n now ih =>
    have part := copySizes_next sizes
    simp only [Nachos.copyAll, bind, Except.bind]
    obtain ⟨outside, result⟩ | ⟨t', result, next⟩ | ⟨fault, result, fails⟩ :=
      copying.next sound found part
    · rw [result]
      exact .inr (.inl ⟨rfl, _, part.covers, outside⟩)
    · rw [result]
      have split : made ++ n :: now = (made ++ [n]) ++ now := by simp
      rw [split]
      refine ih (by simpa using sizes) ?_
      rw [List.length_append, List.sum_append, List.sum_singleton]
      exact next
    · rw [result]
      exact .inr (.inr ⟨fault, rfl, fails⟩)

theorem userReadWrite_of_rejects (opt : TransferOpt) (buffer : Nat → Byte) (size : Nat)
    (found : s.allPCB pid = some space) (rejects : space.Rejects virtAddr) :
    if size = 0 then userReadWrite pid buffer virtAddr size opt s = .ok (buffer, s)
    else userReadWrite pid buffer virtAddr size opt s = .error .endlessLoop ∨
      userReadWrite pid buffer virtAddr size opt s = .error .assertion := by
  have nothing : ∀ copySize : Int,
      copyChunk pid opt copySize ⟨s, buffer, virtAddr, 0, size⟩ =
        .ok (false, ⟨s, buffer, virtAddr, 0, size⟩) := copyChunk_rejects found rejects
  have tried : ∀ copySize : Int, tryChunk pid opt copySize ⟨s, buffer, virtAddr, 0, size⟩ =
      .ok ⟨s, buffer, virtAddr, 0, size⟩ := by
    intro copySize
    simp only [tryChunk, nothing, ok_bind]
    rfl
  rw [userReadWrite_eq, tried, ite_self]
  simp only [bind, Except.bind, Int.toNat_natCast]
  split
  next empty =>
    subst empty
    simp [copyPages, assert]
  next nonempty =>
    cases size / pageSize with
    | zero =>
      have more : ¬ (size : Int) = 0 := by omega
      refine .inr ?_
      simp only [copyPages, if_neg more, tried, assert]
      rw [if_neg (by simp; omega)]
    | succ rounds =>
      refine .inl ?_
      simp only [copyPages, nothing, ok_bind]
      rfl

theorem rangePages_le {va size v : Nat} (covers : rangePages va size v) : va / pageSize ≤ v := by
  simp only [rangePages, pageSize] at *
  omega

theorem rangePages_zero {va v : Nat} (covers : rangePages va 0 v) : va / pageSize = v := by
  simp only [rangePages, pageSize] at *
  omega

theorem rangePages_first (addr : BitVec 32) {size : Nat} (positive : 0 < size) :
    rangePages addr.toNat size (addr.toNat / pageSize) := by
  simp only [rangePages, pageSize]
  omega

theorem contains_iff_accepts (positive : 0 < size) :
    space.Contains virtAddr size ↔
      ∀ v, rangePages virtAddr.toNat size v → space.Accepts v := by
  have bound := virtAddr.isLt
  constructor
  · rintro ⟨nonneg, pages, signed⟩ v ⟨-, below⟩
    rw [toInt_of_nonneg nonneg] at pages signed
    simp only [AddrSpace.Accepts, pageSize] at *
    omega
  · intro accepts
    have first := accepts (virtAddr.toNat / pageSize) (rangePages_first virtAddr positive)
    have last := accepts ((virtAddr.toNat + size - 1) / pageSize)
      (by simp only [rangePages, pageSize]; omega)
    have nonneg : 0 ≤ virtAddr.toInt := by
      rw [BitVec.toInt_eq_toNat_cond]
      simp only [AddrSpace.Accepts, pageSize] at *
      split <;> omega
    have signed := toInt_of_nonneg nonneg
    refine ⟨nonneg, ?_, ?_⟩ <;>
    · simp only [AddrSpace.Accepts, pageSize] at *
      omega

/-- A call for no bytes has a page only if it starts inside one. -/
theorem copySizes_all {v : Nat} (covers : rangePages virtAddr.toNat size v)
    (reach : (copySizes virtAddr.toNat size).length = 0 ∧ size = 0 ∨ virtAddr.toNat + size ≤
      (virtAddr.toNat / pageSize + (copySizes virtAddr.toNat size).length) * pageSize) :
    v < virtAddr.toNat / pageSize + (copySizes virtAddr.toNat size).length := by
  obtain ⟨none, rfl⟩ | reach := reach
  · have unaligned : virtAddr.toNat % pageSize ≠ 0 := by
      simp only [rangePages, pageSize] at *
      omega
    simp [copySizes, unaligned] at none
  · have below := covers.2
    exact Nat.lt_of_mul_lt_mul_right (Nat.lt_of_lt_of_le below reach)

/-- What becomes of a call: it visits the pages of its range, it comes to a page that is not
accepted, or `PageIn` fails. -/
inductive CopyOutcome (pid : Nat) (opt : TransferOpt) (buffer : Nat → Byte) (virtAddr : BitVec 32)
    (size : Nat) (space : AddrSpace) (s : Kernel) : Prop where
  | completed {j : Nat} {t : Transfer} (inside : size = 0 ∨ space.Contains virtAddr size)
      (result : userReadWrite pid buffer virtAddr size opt s = .ok (t.buffer, t.kernel))
      (copying : Copying pid opt buffer virtAddr size s j size t)
      (all : ∀ v, rangePages virtAddr.toNat size v → space.Accepts v →
        v < virtAddr.toNat / pageSize + j)
  | outside (outside : ¬ (size = 0 ∨ space.Contains virtAddr size))
      (result : userReadWrite pid buffer virtAddr size opt s = .error .endlessLoop ∨
        userReadWrite pid buffer virtAddr size opt s = .error .assertion)
  | failed {fault : Fault} (fails : LoadFails pid opt buffer virtAddr size s fault)
      (result : userReadWrite pid buffer virtAddr size opt s = .error fault)

theorem userReadWrite_outcome (opt : TransferOpt) (buffer : Nat → Byte) (virtAddr : BitVec 32)
    (size : Nat) (sound : Sound s) (found : s.allPCB pid = some space) :
    CopyOutcome pid opt buffer virtAddr size space s := by
  by_cases rejects : space.Rejects virtAddr
  · have result := userReadWrite_of_rejects opt buffer size found rejects
    rw [rejects_iff] at rejects
    split at result
    next empty =>
      subst empty
      refine .completed (t := ⟨s, buffer, virtAddr, 0, 0⟩) (.inl rfl) result (.start _)
        fun v covers accepts => absurd ?_ rejects
      exact rangePages_zero covers ▸ accepts
    next nonempty =>
      refine .outside (fun inside => rejects ?_) result
      refine (contains_iff_accepts (by omega)).mp (inside.resolve_left nonempty) _ ?_
      exact rangePages_first virtAddr (by omega)
  have nonneg : 0 ≤ virtAddr.toInt := not_lt.mp fun negative => rejects (.inl negative)
  have call : CallResult (copyAll pid opt _ _) (userReadWrite pid buffer virtAddr size opt s) :=
    userReadWrite_copies nonneg fun _ t' chunk => by
      have offset := Nat.mod_lt virtAddr.toNat (show 0 < pageSize by decide)
      -- the first address is translated
      cases chunk_cases (t := ⟨s, buffer, virtAddr, 0, size⟩) opt sound.toWellFormed found
        (show virtAddr.toNat % pageSize + min size (pageSize - virtAddr.toNat % pageSize) ≤ pageSize by
          omega) with
      | rejected outside => exact rejects outside
      | copied _ _ result => cases result.symm.trans chunk
      | failed _ _ result => cases result.symm.trans chunk
  have start : Copying pid opt buffer virtAddr size s ([] : List Nat).length ([] : List Nat).sum
      ⟨s, buffer, virtAddr, 0, size⟩ := .start _
  obtain ⟨t, copies, copied⟩ | ⟨copies, v, covers, outside⟩ | ⟨fault, copies, fails⟩ :=
    start.copyAll sound found (List.append_nil (copySizes virtAddr.toNat size)).symm
  · rw [List.nil_append, copySizes_sum] at copied
    rw [copies] at call
    refine .completed ?_ call copied fun v covers _ => copySizes_all covers copied.visits.reach
    by_cases empty : size = 0
    · exact .inl empty
    · refine .inr ((contains_iff_accepts (by omega)).mpr fun v covers => ?_)
      exact copied.visits.accepts sound found (rangePages_le covers)
        (copySizes_all covers copied.visits.reach)
  · rw [copies] at call
    refine .outside (fun inside => outside ?_) call
    by_cases empty : size = 0
    · subst empty
      rw [rejects_iff, not_not] at rejects
      exact rangePages_zero covers ▸ rejects
    · exact (contains_iff_accepts (by omega)).mp (inside.resolve_left empty) v covers
  · rw [copies] at call
    exact .failed fails call

/-! ## Any call that returns -/

structure Advances (pid : Nat) (t t' : Transfer) : Prop where
  position : t.curBuffer ≤ t'.curBuffer
  nobody : t.kernel.allPCB pid = none → t'.kernel = t.kernel

theorem Advances.trans {t₁ t₂ : Transfer} (first : Advances pid t t₁) (second : Advances pid t₁ t₂) :
    Advances pid t t₂ where
  position := first.position.trans second.position
  nobody none := by
    have same := first.nobody none
    rw [second.nobody (same ▸ none), same]

theorem copyChunk_advancing {copySize : Int} {copied : Bool}
    (run : copyChunk pid opt copySize t = .ok (copied, t')) : Advances pid t t' := by
  obtain ⟨⟨found, s⟩, translated, run⟩ := bind_eq_ok.mp run
  have nobody : t.kernel.allPCB pid = none → s = t.kernel ∧ found = none := by
    intro none
    unfold addrSpaceTranslate at translated
    split at translated
    next =>
      cases translated
      exact ⟨rfl, rfl⟩
    next =>
      obtain ⟨space, isSpace, -⟩ := bind_eq_ok.mp translated
      cases none.symm.trans (Kernel.space_eq_ok.mp isSpace)
  dsimp only at run
  split at run
  next =>
    cases run
    exact ⟨Int.le_refl _, fun none => (nobody none).1⟩
  next =>
    split at run
    next => cases run
    next nonneg =>
      have impossible : t.kernel.allPCB pid ≠ none := fun none => by cases (nobody none).2
      split at run <;>
      · cases run
        exact ⟨by dsimp only; omega, fun none => absurd none impossible⟩

theorem tryChunk_advancing {copySize : Int} (run : tryChunk pid opt copySize t = .ok t') :
    Advances pid t t' := by
  obtain ⟨⟨copied, t₁⟩, chunk, run⟩ := bind_eq_ok.mp run
  cases run
  exact copyChunk_advancing chunk

theorem copyPages_advancing {rounds : Nat} (run : copyPages pid opt rounds t = .ok t') :
    Advances pid t t' := by
  induction rounds generalizing t with
  | zero =>
    cases run
    exact ⟨Int.le_refl _, fun _ => rfl⟩
  | succ rounds ih =>
    obtain ⟨⟨copied, t₁⟩, chunk, run⟩ := bind_eq_ok.mp run
    dsimp only at run
    split at run
    next => exact (copyChunk_advancing chunk).trans (ih run)
    next => cases run

/-- A call that returns has visited pages, or has done nothing. -/
theorem userReadWrite_inv {size : Int} {buffer' : Nat → Byte} {s' : Kernel} (sound : Sound s)
    (run : userReadWrite pid buffer virtAddr size opt s = .ok (buffer', s')) :
    0 ≤ size ∧ (s' = s ∨ ∃ space j, s.allPCB pid = some space ∧
      Visits pid opt buffer virtAddr size.toNat s j size.toNat s') := by
  have parts := run
  rw [userReadWrite_eq] at parts
  obtain ⟨t₃, parts, finished⟩ := bind_eq_ok.mp parts
  obtain ⟨t₂, parts, last⟩ := bind_eq_ok.mp parts
  obtain ⟨t₁, first, whole⟩ := bind_eq_ok.mp parts
  obtain ⟨_, all, result⟩ := bind_eq_ok.mp finished
  cases result
  have advances : Advances pid ⟨s, buffer, virtAddr, 0, size⟩ t₃ := by
    refine Advances.trans ?_ ((copyPages_advancing whole).trans ?_)
    · split at first
      next =>
        cases first
        exact ⟨Int.le_refl _, fun _ => rfl⟩
      next => exact tryChunk_advancing first
    · split at last
      next =>
        cases last
        exact ⟨Int.le_refl _, fun _ => rfl⟩
      next => exact tryChunk_advancing last
  have nonneg : 0 ≤ size := by
    have total : t₃.curBuffer = size := by simpa using assert_eq_ok.mp all
    exact total ▸ advances.position
  refine ⟨nonneg, ?_⟩
  cases found : s.allPCB pid with
  | none => exact .inl (advances.nobody found)
  | some space =>
    obtain ⟨n, rfl⟩ := Int.eq_ofNat_of_zero_le nonneg
    cases userReadWrite_outcome opt buffer virtAddr n sound found with
    | completed _ result copying =>
      obtain ⟨-, same⟩ := Prod.mk.inj (Except.ok.inj (result.symm.trans run))
      exact .inr ⟨space, _, rfl, same ▸ copying.visits⟩
    | outside _ result => obtain failed | failed := result <;> cases failed.symm.trans run
    | failed _ result => cases result.symm.trans run

/-! ## Runs with kernel copies -/

theorem SystemStep.sound {s s' : Kernel} {op : SystemOp} (step : SystemStep s op s')
    (sound : Sound s) : Sound s' := by
  cases step with
  | user step => exact step.sound sound
  | transfer run =>
    obtain ⟨-, rfl | ⟨space, j, -, visits⟩⟩ := userReadWrite_inv sound run
    · exact sound
    · exact (visits.kept sound).1

theorem system_sound {bigEndian : Bool} {junk : Nat → BitVec 32} {files : Files}
    {history : List (Kernel × SystemOp)}
    (run : Run SystemStep (boot bigEndian junk files) history s) : Sound s :=
  run.always ⟨boot_wellFormed _ _ _, boot_coherent _ _ _⟩ fun _ _ _ sound step => step.sound sound

end Nachos
