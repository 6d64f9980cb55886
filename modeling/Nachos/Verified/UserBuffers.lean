import Nachos.Verified.UserCopies

/-!
# User buffers in memory

What `userReadWrite` does when the pages of its range are in memory: byte `i` of the buffer and
the byte at the virtual address `virtAddr + i` are copied, whatever frames the pages are in.
-/

namespace Nachos

open Loops

def AddrSpace.physAddr (space : AddrSpace) (address : Nat) : Nat :=
  (space.pageTable (address / pageSize)).physicalPage.toNat * pageSize + address % pageSize

structure AddrSpace.Resident (space : AddrSpace) (virtAddr size : Nat) : Prop where
  frames : ∀ v, rangePages virtAddr size v → (space.pageTable v).valid = true ∧
    ∃ f < numPhysPages, (space.pageTable v).physicalPage = (f : Int)
  distinct : ∀ v w, rangePages virtAddr size v → rangePages virtAddr size w →
    (space.pageTable v).physicalPage = (space.pageTable w).physicalPage → v = w

structure AddrSpace.SameFrames (space space' : AddrSpace) : Prop where
  numPages : space'.numPages = space.numPages
  valid : ∀ v, (space'.pageTable v).valid = (space.pageTable v).valid
  physicalPage : ∀ v, (space'.pageTable v).physicalPage = (space.pageTable v).physicalPage

section Translation

variable {space space' : AddrSpace} {virtAddr size : Nat}

theorem AddrSpace.SameFrames.refl : SameFrames space space := ⟨rfl, fun _ => rfl, fun _ => rfl⟩

theorem AddrSpace.SameFrames.touched (same : SameFrames space space') (vpn : Nat) (writing : Bool) :
    SameFrames space (space'.setEntry vpn ((space'.pageTable vpn).touched writing)) := by
  refine ⟨same.numPages, fun v => ?_, fun v => ?_⟩
  · rw [AddrSpace.setEntry_pageTable]
    split
    next here => exact here ▸ same.valid v
    next => exact same.valid v
  · rw [AddrSpace.setEntry_pageTable]
    split
    next here => exact here ▸ same.physicalPage v
    next => exact same.physicalPage v

theorem AddrSpace.SameFrames.physAddr (same : SameFrames space space') (address : Nat) :
    space'.physAddr address = space.physAddr address := by
  rw [AddrSpace.physAddr, AddrSpace.physAddr, same.physicalPage]

theorem AddrSpace.SameFrames.resident (same : SameFrames space space')
    (resident : space.Resident virtAddr size) : space'.Resident virtAddr size := by
  refine ⟨fun v covers => ?_, fun v w coversV coversW equal => ?_⟩
  · rw [same.valid, same.physicalPage]
    exact resident.frames v covers
  · rw [same.physicalPage, same.physicalPage] at equal
    exact resident.distinct v w coversV coversW equal

theorem rangePages_of_lt (virtAddr : Nat) {i : Nat} (bound : i < size) :
    rangePages virtAddr size ((virtAddr + i) / pageSize) := by
  simp only [rangePages, pageSize] at *
  omega

theorem AddrSpace.physAddr_add {address k : Nat} (within : address % pageSize + k < pageSize) :
    space.physAddr (address + k) = space.physAddr address + k := by
  have page : (address + k) / pageSize = address / pageSize := by
    simp only [pageSize] at *
    omega
  have offset : (address + k) % pageSize = address % pageSize + k := by
    simp only [pageSize] at *
    omega
  rw [AddrSpace.physAddr, AddrSpace.physAddr, page, offset, Nat.add_assoc]

/-- Different bytes of the range are in different places. -/
theorem AddrSpace.Resident.physAddr_inj (resident : space.Resident virtAddr size) {i j : Nat}
    (iBound : i < size) (jBound : j < size)
    (same : space.physAddr (virtAddr + i) = space.physAddr (virtAddr + j)) : i = j := by
  have iPage := rangePages_of_lt virtAddr iBound
  have jPage := rangePages_of_lt virtAddr jBound
  obtain ⟨-, f, -, fMaps⟩ := resident.frames _ iPage
  obtain ⟨-, g, -, gMaps⟩ := resident.frames _ jPage
  have iSplit := Nat.div_add_mod' (virtAddr + i) pageSize
  have jSplit := Nat.div_add_mod' (virtAddr + j) pageSize
  simp only [AddrSpace.physAddr, fMaps, gMaps, Int.toNat_natCast] at same
  have frames : f = g := by
    simp only [pageSize] at *
    omega
  have pages := resident.distinct _ _ iPage jPage (by rw [fMaps, gMaps, frames])
  rw [frames] at same
  rw [pages] at iSplit
  omega

end Translation

/-! ## The copies -/

section Copies

variable {pid : Nat} {space : AddrSpace} {virtAddr : BitVec 32} {size : Nat}

structure Transferred (pid : Nat) (space : AddrSpace) (virtAddr : BitVec 32) (k : Nat)
    (t : Transfer) : Prop where
  address : t.curVirtAddr = virtAddr + BitVec.ofNat 32 k
  position : t.curBuffer = (k : Int)
  table : ∃ space', t.kernel.allPCB pid = some space' ∧ space.SameFrames space'

theorem Transferred.inFrame {t : Transfer} {k n : Nat}
    (transferred : Transferred pid space virtAddr k t)
    (resident : space.Resident virtAddr.toNat size)
    (inside : virtAddr.toNat + size ≤ space.numPages * pageSize)
    (addressable : virtAddr.toNat + size ≤ 2 ^ 31) (positive : 0 < n) (fits : k + n ≤ size) :
    t.curVirtAddr.toNat = virtAddr.toNat + k ∧
      ∃ space' f, InFrame t.kernel pid space' t.curVirtAddr f ∧ space.SameFrames space' ∧
        f * pageSize + t.curVirtAddr.toNat % pageSize = space.physAddr (virtAddr.toNat + k) := by
  have toNat : t.curVirtAddr.toNat = virtAddr.toNat + k := by
    rw [transferred.address]
    exact toNat_add_ofNat (by omega)
  obtain ⟨space', found, same⟩ := transferred.table
  obtain ⟨valid, f, bound, maps⟩ :=
    resident.frames _ (rangePages_of_lt virtAddr.toNat (show k < size by omega))
  refine ⟨toNat, space', f, ⟨found, ?_, ?_, ?_, bound⟩, same, ?_⟩
  · rw [toNat, same.numPages]
    simp only [pageSize] at *
    omega
  · rw [toNat, same.valid]
    exact valid
  · rw [toNat, same.physicalPage]
    exact maps
  · rw [toNat, AddrSpace.physAddr, maps, Int.toNat_natCast]

structure Filled (s : Kernel) (buffer : Nat → Byte) (space : AddrSpace) (virtAddr k : Nat)
    (memory : Nat → Byte) : Prop where
  copied : ∀ i < k, memory (space.physAddr (virtAddr + i)) = buffer i
  others : ∀ address, (∀ i < k, address ≠ space.physAddr (virtAddr + i)) →
    memory address = s.machine.mainMemory address

theorem Filled.next {s : Kernel} {buffer memory : Nat → Byte} {va k n : Nat}
    (filled : Filled s buffer space va k memory) (resident : space.Resident va size)
    (fits : k + n ≤ size) (within : (va + k) % pageSize + n ≤ pageSize) :
    Filled s buffer space va (k + n)
      (bcopy (fun j => buffer (k + j)) (space.physAddr (va + k)) n memory) := by
  have place : ∀ j < n, space.physAddr (va + (k + j)) = space.physAddr (va + k) + j := by
    intro j below
    rw [← Nat.add_assoc]
    exact AddrSpace.physAddr_add (by omega)
  constructor
  · intro i below
    by_cases earlier : i < k
    · -- the new bytes go to other places
      have outside : ¬ (space.physAddr (va + k) ≤ space.physAddr (va + i) ∧
          space.physAddr (va + i) < space.physAddr (va + k) + n) := by
        rintro ⟨lower, upper⟩
        have same := place (space.physAddr (va + i) - space.physAddr (va + k)) (by omega)
        have index := resident.physAddr_inj (i := i)
          (j := k + (space.physAddr (va + i) - space.physAddr (va + k))) (by omega) (by omega)
          (by rw [same]; omega)
        omega
      rw [bcopy, if_neg outside]
      exact filled.copied i earlier
    · obtain ⟨j, rfl⟩ := Nat.exists_eq_add_of_le (Nat.le_of_not_lt earlier)
      rw [place j (by omega), bcopy, if_pos (by omega), Nat.add_sub_cancel_left]
  · intro address apart
    have outside : ¬ (space.physAddr (va + k) ≤ address ∧
        address < space.physAddr (va + k) + n) := by
      rintro ⟨lower, upper⟩
      refine apart (k + (address - space.physAddr (va + k))) (by omega) ?_
      rw [place _ (by omega)]
      omega
    rw [bcopy, if_neg outside]
    exact filled.others address fun i below => apart i (by omega)

structure Fetched (memory buffer : Nat → Byte) (space : AddrSpace) (virtAddr k : Nat)
    (buffer' : Nat → Byte) : Prop where
  copied : ∀ i < k, buffer' i = memory (space.physAddr (virtAddr + i))
  others : ∀ i, k ≤ i → buffer' i = buffer i

theorem Fetched.next {memory buffer buffer' : Nat → Byte} {va k n : Nat}
    (fetched : Fetched memory buffer space va k buffer')
    (within : (va + k) % pageSize + n ≤ pageSize) :
    Fetched memory buffer space va (k + n)
      (bcopy (fun j => memory (space.physAddr (va + k) + j)) k n buffer') := by
  constructor
  · intro i below
    by_cases earlier : i < k
    · rw [bcopy, if_neg (by omega)]
      exact fetched.copied i earlier
    · obtain ⟨j, rfl⟩ := Nat.exists_eq_add_of_le (Nat.le_of_not_lt earlier)
      have place : space.physAddr (va + k + j) = space.physAddr (va + k) + j :=
        AddrSpace.physAddr_add (by omega)
      rw [bcopy, if_pos (by omega), Nat.add_sub_cancel_left, ← place, Nat.add_assoc]
  · intro i past
    rw [bcopy, if_neg (by omega)]
    exact fetched.others i (by omega)

theorem Transferred.next {t t' : Transfer} {k n : Nat} {space' : AddrSpace} {vpn : Nat}
    {writing : Bool} (transferred : Transferred pid space virtAddr k t)
    (same : space.SameFrames space') (address : t'.curVirtAddr = t.curVirtAddr + BitVec.ofNat 32 n)
    (position : t'.curBuffer = t.curBuffer + n) (found : t'.kernel.allPCB pid =
      some (space'.setEntry vpn ((space'.pageTable vpn).touched writing))) :
    Transferred pid space virtAddr (k + n) t' := by
  refine ⟨?_, ?_, _, found, same.touched _ _⟩
  · rw [address, transferred.address, BitVec.add_assoc, BitVec.ofNat_add]
  · rw [position, transferred.position]
    omega

section

variable {s : Kernel} (found : s.allPCB pid = some space)
  (resident : space.Resident virtAddr.toNat size) (nonneg : 0 ≤ virtAddr.toInt)
  (positive : 0 < size) (inside : virtAddr.toNat + size ≤ space.numPages * pageSize)
  (addressable : virtAddr.toNat + size ≤ 2 ^ 31)

include found resident nonneg positive inside addressable

theorem userReadWrite_fills (buffer : Nat → Byte) :
    ∃ t space', copyAll pid .r (copySizes virtAddr.toNat size) ⟨s, buffer, virtAddr, 0, size⟩ =
        .ok (some t) ∧
      userReadWrite pid buffer virtAddr size .r s = .ok (buffer, t.kernel) ∧
      t.kernel.allPCB pid = some space' ∧ space.SameFrames space' ∧
      Filled s buffer space virtAddr.toNat size t.kernel.machine.mainMemory := by
  have rule := userReadWrite_rule s pid .r buffer
    (fun k t => Transferred pid space virtAddr k t ∧ t.buffer = buffer ∧
      Filled s buffer space virtAddr.toNat k t.kernel.machine.mainMemory) nonneg positive
    ⟨⟨by simp, rfl, space, found, .refl⟩, rfl, by simp, fun _ _ => rfl⟩ ?_
  · obtain ⟨t, copies, run, ⟨_, _, space', found', same⟩, rfl, filled⟩ := rule
    exact ⟨t, space', copies, run, found', same, filled⟩
  · rintro k n t ⟨transferred, rfl, filled⟩ nonempty fits within
    obtain ⟨toNat, space', f, inFrame, same, place⟩ :=
      transferred.inFrame resident inside addressable nonempty fits
    rw [← toNat] at within
    refine ⟨_, copyChunk_resident inFrame (by omega) within,
      transferred.next same rfl rfl (if_pos rfl), rfl, ?_⟩
    have rest : t.rest = fun j => t.buffer (k + j) := by
      funext j
      rw [Transfer.rest, transferred.position, Int.toNat_natCast]
    rw [toNat] at within
    show Filled s t.buffer space virtAddr.toNat (k + n) (bcopy t.rest _ n _)
    rw [rest, place]
    exact filled.next resident fits within

theorem userReadWrite_fetches (buffer : Nat → Byte) :
    ∃ t space', copyAll pid .w (copySizes virtAddr.toNat size) ⟨s, buffer, virtAddr, 0, size⟩ =
        .ok (some t) ∧
      userReadWrite pid buffer virtAddr size .w s = .ok (t.buffer, t.kernel) ∧
      t.kernel.machine = s.machine ∧ t.kernel.allPCB pid = some space' ∧ space.SameFrames space' ∧
      Fetched s.machine.mainMemory buffer space virtAddr.toNat size t.buffer := by
  have rule := userReadWrite_rule s pid .w buffer
    (fun k t => Transferred pid space virtAddr k t ∧ t.kernel.machine = s.machine ∧
      Fetched s.machine.mainMemory buffer space virtAddr.toNat k t.buffer) nonneg positive
    ⟨⟨by simp, rfl, space, found, .refl⟩, rfl, by simp, fun _ _ => rfl⟩ ?_
  · obtain ⟨t, copies, run, ⟨_, _, space', found', same⟩, memory, fetched⟩ := rule
    exact ⟨t, space', copies, run, memory, found', same, fetched⟩
  · rintro k n t ⟨transferred, memory, fetched⟩ nonempty fits within
    obtain ⟨toNat, space', f, inFrame, same, place⟩ :=
      transferred.inFrame resident inside addressable nonempty fits
    rw [← toNat] at within
    refine ⟨_, copyChunk_resident_w inFrame (by omega) within,
      transferred.next same rfl rfl (if_pos rfl), memory, ?_⟩
    rw [toNat] at within
    show Fetched _ _ _ _ (k + n) (bcopy (fun j => t.kernel.machine.mainMemory
      (f * pageSize + t.curVirtAddr.toNat % pageSize + j)) t.curBuffer.toNat n t.buffer)
    rw [transferred.position, Int.toNat_natCast, memory, place]
    exact fetched.next within

end

end Copies

/-- Copies to and from a range whose pages are in memory, in frames of their own.  With `'r'` the
bytes of the buffer, and no others, are put into the range; with `'w'` they are fetched, and memory
stays as it is.  The one undoes the other, and each copy of a call stays inside a page. -/
theorem user_buffer_copies_exact {s : Kernel} {pid : Nat} {space : AddrSpace}
    {virtAddr : BitVec 32} {size : Nat} (found : s.allPCB pid = some space)
    (resident : space.Resident virtAddr.toNat size) (nonneg : 0 ≤ virtAddr.toInt)
    (positive : 1 ≤ size) (inside : virtAddr.toNat + size ≤ space.numPages * pageSize)
    (addressable : virtAddr.toNat + size ≤ 2 ^ 31) (buffer : Nat → Byte) :
    WithinPages virtAddr.toNat (copySizes virtAddr.toNat size) ∧
    (∃ t, copyAll pid .r (copySizes virtAddr.toNat size) ⟨s, buffer, virtAddr, 0, size⟩ =
        .ok (some t) ∧
      userReadWrite pid buffer virtAddr size .r s = .ok (buffer, t.kernel) ∧
      Filled s buffer space virtAddr.toNat size t.kernel.machine.mainMemory ∧
      ∀ into, ∃ fetched s', userReadWrite pid into virtAddr size .w t.kernel = .ok (fetched, s') ∧
        ∀ i < size, fetched i = buffer i) ∧
    ∃ t, copyAll pid .w (copySizes virtAddr.toNat size) ⟨s, buffer, virtAddr, 0, size⟩ =
        .ok (some t) ∧
      userReadWrite pid buffer virtAddr size .w s = .ok (t.buffer, t.kernel) ∧
      t.kernel.machine = s.machine ∧
      Fetched s.machine.mainMemory buffer space virtAddr.toNat size t.buffer ∧
      ∃ s', userReadWrite pid t.buffer virtAddr size .r t.kernel = .ok (t.buffer, s') ∧
        s'.machine.mainMemory = s.machine.mainMemory := by
  refine ⟨copySizes_withinPages positive, ?_, ?_⟩
  · obtain ⟨t, space', copies, run, found', same, filled⟩ :=
      userReadWrite_fills found resident nonneg positive inside addressable buffer
    refine ⟨t, copies, run, filled, fun into => ?_⟩
    obtain ⟨t', -, -, back, -, -, -, fetched⟩ := userReadWrite_fetches found'
      (same.resident resident) nonneg positive (same.numPages ▸ inside) addressable into
    refine ⟨t'.buffer, t'.kernel, back, fun i below => ?_⟩
    rw [fetched.copied i below, same.physAddr, filled.copied i below]
  · obtain ⟨t, space', copies, run, memory, found', same, fetched⟩ :=
      userReadWrite_fetches found resident nonneg positive inside addressable buffer
    refine ⟨t, copies, run, memory, fetched, ?_⟩
    obtain ⟨t', -, -, back, -, -, filled⟩ := userReadWrite_fills found'
      (same.resident resident) nonneg positive (same.numPages ▸ inside) addressable t.buffer
    refine ⟨t'.kernel, back, funext fun address => ?_⟩
    by_cases copied : ∃ i < size, address = space'.physAddr (virtAddr.toNat + i)
    · obtain ⟨i, below, rfl⟩ := copied
      rw [filled.copied i below, fetched.copied i below, same.physAddr]
    · push Not at copied
      rw [filled.others address copied, memory]

def residentSpace (numPages : Nat) (frames : Nat → Nat) (bound : numPages ≤ 2 ^ 25) : AddrSpace where
  numPages := numPages
  pageTable v := { freshEntry v false with physicalPage := frames v, valid := true }
  codeDataSize := 0
  codeDataVirtAddr := 0
  codeDataFileAddr := 0
  swapFileSize := 0
  execfilename := .path "prog"
  numPages_le := bound

/-- The range of 60 bytes at address 100 is on two pages, in the frames 5 and 3. -/
theorem copies_over_two_frames :
    let space := residentSpace 2 (fun v => 5 - 2 * v) (by decide)
    let s := (boot false (fun _ => 0#32) fun _ => none).setSpace 0 (some space)
    WithinPages 100 (copySizes 100 60) ∧
    ∃ t, userReadWrite 0 (fun i => BitVec.ofNat 8 i) 100#32 60 .r s =
        .ok (fun i => BitVec.ofNat 8 i, t) ∧
      Filled s (fun i => BitVec.ofNat 8 i) space 100 60 t.machine.mainMemory := by
  intro space s
  have pages : ∀ v, rangePages 100 60 v → v = 0 ∨ v = 1 := by
    intro v covers
    simp only [rangePages, pageSize] at covers
    omega
  have resident : space.Resident 100 60 := by
    refine ⟨fun v covers => ⟨rfl, 5 - 2 * v, by simp only [numPhysPages]; omega, rfl⟩,
      fun v w coversV coversW same => ?_⟩
    have frames : ((5 - 2 * v : Nat) : Int) = ((5 - 2 * w : Nat) : Int) := same
    obtain rfl | rfl := pages v coversV <;> obtain rfl | rfl := pages w coversW <;> omega
  obtain ⟨within, ⟨t, -, run, filled, -⟩, -⟩ := @user_buffer_copies_exact s 0 space
    100#32 60 rfl resident (by decide) (by decide) (by decide) (by decide) fun i => BitVec.ofNat 8 i
  exact ⟨within, t.kernel, run, filled⟩

/-- Two bytes on both sides of the address 2^31, in an address space that has them.  The second
address is negative for `Translate`. -/
theorem copy_over_signed_range_fails :
    let space := residentSpace (2 ^ 24 + 1) (fun v => if v = 2 ^ 24 then 1 else 0) (by decide)
    let s := (boot false (fun _ => 0#32) fun _ => none).setSpace 0 (some space)
    s.allPCB 0 = some space ∧ space.Resident (2 ^ 31 - 1) 2 ∧
      2 ^ 31 - 1 + 2 ≤ space.numPages * pageSize ∧
      0 ≤ (BitVec.ofNat 32 (2 ^ 31 - 1)).toInt ∧
      ∀ result, userReadWrite 0 (fun _ => 7#8) (BitVec.ofNat 32 (2 ^ 31 - 1)) 2 .r s ≠ .ok result := by
  intro space s
  have pages : ∀ v, rangePages (2 ^ 31 - 1) 2 v → v = 2 ^ 24 - 1 ∨ v = 2 ^ 24 := by
    intro v covers
    simp only [rangePages, pageSize] at covers
    omega
  refine ⟨rfl, ⟨fun v covers => ⟨rfl, if v = 2 ^ 24 then 1 else 0, by split <;> decide, rfl⟩,
    fun v w coversV coversW same => ?_⟩, by decide, by decide, fun result done => ?_⟩
  · have frames : (((if v = 2 ^ 24 then 1 else 0 : Nat)) : Int) =
        ((if w = 2 ^ 24 then 1 else 0 : Nat) : Int) := same
    obtain rfl | rfl := pages v coversV <;> obtain rfl | rfl := pages w coversW <;>
      simp at frames ⊢
  · have failed : (userReadWrite 0 (fun _ => 7#8) (BitVec.ofNat 32
      (2 ^ 31 - 1)) 2 .r s).toOption.isNone =
        true := by
      decide +kernel
    rw [done] at failed
    cases failed

end Nachos
