import Nachos.Verified.KernelCopies

/-!
# The copies of a transfer

`userReadWrite` cuts its range at the page boundaries: `copySizes` lists the sizes of its copies,
and `copyAll` makes copies of given sizes one after the other.  None of the copies crosses a page
boundary.  The rule at the end follows an invariant through all copies of a call.
-/

namespace Nachos

open Loops

/-- The sizes of the copies that `userReadWrite` makes for `size` bytes at `virtAddr`: up to the
first page boundary, whole pages, and the rest. -/
def copySizes (virtAddr size : Nat) : List Nat :=
  let head := if virtAddr % pageSize = 0 then 0 else min size (pageSize - virtAddr % pageSize)
  let tail := (size - head) % pageSize
  (if virtAddr % pageSize = 0 then [] else [head]) ++
    (List.replicate ((size - head) / pageSize) pageSize ++ if tail = 0 then [] else [tail])

def copyAll (pid : Nat) (opt : TransferOpt) : List Nat → Transfer → Except Fault (Option Transfer)
  | [], t => .ok (some t)
  | copySize :: rest, t => do
    let (copied, t) ← copyChunk pid opt copySize t
    if copied then copyAll pid opt rest t else .ok none

def WithinPages : Nat → List Nat → Prop
  | _, [] => True
  | virtAddr, copySize :: rest =>
    (0 < copySize ∧ virtAddr % pageSize + copySize ≤ pageSize) ∧
      WithinPages (virtAddr + copySize) rest

section Sizes

variable {virtAddr size : Nat}

theorem withinPages_append {first second : List Nat} :
    WithinPages virtAddr (first ++ second) ↔
      WithinPages virtAddr first ∧ WithinPages (virtAddr + first.sum) second := by
  induction first generalizing virtAddr with
  | nil => simp [WithinPages]
  | cons copySize rest ih =>
    simp only [List.cons_append, WithinPages, ih, List.sum_cons, and_assoc,
      Nat.add_assoc]

theorem withinPages_replicate (aligned : virtAddr % pageSize = 0) (rounds : Nat) :
    WithinPages virtAddr (List.replicate rounds pageSize) := by
  induction rounds generalizing virtAddr with
  | zero => trivial
  | succ rounds ih =>
    refine ⟨⟨by decide, by omega⟩, ih ?_⟩
    rw [Nat.add_mod_right]
    exact aligned

theorem copySizes_sum : (copySizes virtAddr size).sum = size := by
  have total := Nat.div_add_mod' (size - if virtAddr % pageSize = 0 then 0
    else min size (pageSize - virtAddr % pageSize)) pageSize
  simp only [copySizes, List.sum_append, List.sum_replicate_nat]
  split
  next aligned =>
    rw [if_pos aligned] at total
    split <;> simp_all
  next unaligned =>
    rw [if_neg unaligned] at total
    split
    next => simp only [List.sum_cons, List.sum_nil]; omega
    next => simp only [List.sum_cons, List.sum_nil]; omega

theorem copySizes_withinPages (positive : 0 < size) :
    WithinPages virtAddr (copySizes virtAddr size) := by
  have small := Nat.mod_lt virtAddr (show 0 < pageSize by decide)
  -- after the first part the copies start at a page boundary, or there is nothing left
  have rest : ∀ start left, (0 < left → start % pageSize = 0) →
      WithinPages start (List.replicate (left / pageSize) pageSize ++
        if left % pageSize = 0 then [] else [left % pageSize]) := by
    intro start left boundary
    by_cases nothing : left = 0
    · subst nothing
      trivial
    · have aligned := boundary (by omega)
      refine withinPages_append.mpr ⟨withinPages_replicate aligned _, ?_⟩
      split
      next => trivial
      next =>
        have last := Nat.mod_lt left (show 0 < pageSize by decide)
        refine ⟨⟨by omega, ?_⟩, trivial⟩
        simp only [List.sum_replicate_nat, Nat.add_mul_mod_self_right]
        omega
  simp only [copySizes]
  by_cases aligned : virtAddr % pageSize = 0
  · simp only [if_pos aligned, List.nil_append]
    exact rest virtAddr _ fun _ => aligned
  · simp only [if_neg aligned, List.singleton_append, WithinPages]
    refine ⟨⟨by omega, by omega⟩, rest _ _ fun more => ?_⟩
    simp only [pageSize] at *
    omega

end Sizes

variable {size : Nat}

section Copies

variable {pid : Nat} {opt : TransferOpt} {t t' : Transfer}

theorem copyAll_append (first second : List Nat) (t : Transfer) :
    copyAll pid opt (first ++ second) t = copyAll pid opt first t >>= fun after =>
      match after with
      | none => .ok none
      | some t => copyAll pid opt second t := by
  induction first generalizing t with
  | nil => rfl
  | cons copySize rest ih =>
    simp only [List.cons_append, copyAll, bind, Except.bind]
    cases copyChunk pid opt copySize t with
    | error => rfl
    | ok result =>
      obtain ⟨copied, after⟩ := result
      cases copied with
      | false => rfl
      | true => exact ih after

theorem copyChunk_advances {copySize : Nat} (run : copyChunk pid opt copySize t = .ok (true, t')) :
    t'.curVirtAddr = t.curVirtAddr + BitVec.ofNat 32 copySize ∧
      t'.curBuffer = t.curBuffer + copySize ∧ t'.leftSize = t.leftSize - copySize := by
  obtain ⟨⟨found, s⟩, -, run⟩ := bind_eq_ok.mp run
  dsimp only at run
  split at run
  next => cases run
  next =>
    split at run
    next => cases run
    next =>
      split at run <;>
      · cases run
        simp [BitVec.ofInt_natCast]

theorem copyAll_advances {sizes : List Nat} (run : copyAll pid opt sizes t = .ok (some t')) :
    t'.curVirtAddr = t.curVirtAddr + BitVec.ofNat 32 sizes.sum ∧
      t'.curBuffer = t.curBuffer + (sizes.sum : Nat) ∧
      t'.leftSize = t.leftSize - (sizes.sum : Nat) := by
  induction sizes generalizing t with
  | nil =>
    cases run
    simp
  | cons copySize rest ih =>
    obtain ⟨⟨copied, t₁⟩, chunk, run⟩ := bind_eq_ok.mp run
    dsimp only at run
    split at run
    next isCopied =>
      subst isCopied
      obtain ⟨address, position, left⟩ := copyChunk_advances chunk
      obtain ⟨address', position', left'⟩ := ih run
      rw [address', position', left', address, position, left, List.sum_cons, Nat.cast_add]
      refine ⟨?_, by omega, by omega⟩
      rw [BitVec.ofNat_add, BitVec.add_assoc]
    next => cases run

/-! ## The three parts of a call -/

theorem copyPages_eq (rounds : Nat) (t : Transfer) :
    copyPages pid opt rounds t = copyAll pid opt (List.replicate rounds pageSize) t >>=
      fun after => after.elim (.error .endlessLoop) .ok := by
  induction rounds generalizing t with
  | zero => rfl
  | succ rounds ih =>
    simp only [List.replicate_succ, copyAll, copyPages, bind, Except.bind]
    cases copyChunk pid opt pageSize t with
    | error => rfl
    | ok after =>
      obtain ⟨copied, after⟩ := after
      cases copied with
      | false => rfl
      | true => exact ih after

theorem copyChunk_of_false {copySize : Int} (run : copyChunk pid opt copySize t = .ok (false, t')) :
    t'.curBuffer = t.curBuffer := by
  obtain ⟨⟨found, s⟩, -, run⟩ := bind_eq_ok.mp run
  dsimp only at run
  split at run
  next =>
    cases run
    rfl
  next =>
    split at run
    next => cases run
    next => split at run <;> cases run

/-- What a call returns, by the result of its copies: when a translation fails, the loop over whole
pages or the `ASSERT` does. -/
def CallResult : Except Fault (Option Transfer) → Except Fault ((Nat → Byte) × Kernel) → Prop
  | .error fault, call => call = .error fault
  | .ok (some t), call => call = .ok (t.buffer, t.kernel)
  | .ok none, call => call = .error .endlessLoop ∨ call = .error .assertion

/-- The last two parts of a call, from where the first has left off. -/
theorem callResult_rest {left : Nat} (remaining : t.leftSize = left)
    (position : t.curBuffer + left = size) :
    CallResult (copyAll pid opt (List.replicate (left / pageSize) pageSize ++
        if left % pageSize = 0 then [] else [left % pageSize]) t)
      ((copyPages pid opt (t.leftSize.toNat / pageSize) t >>=
        fun t => if t.leftSize = 0 then .ok t else tryChunk pid opt t.leftSize t) >>=
        fun t => assert (t.curBuffer == (size : Int)) >>= fun _ => .ok (t.buffer, t.kernel)) := by
  have total := Nat.div_add_mod' left pageSize
  rw [remaining, Int.toNat_natCast, copyAll_append, copyPages_eq]
  cases pages : copyAll pid opt (List.replicate (left / pageSize) pageSize) t with
  | error => rfl
  | ok after =>
    cases after with
    | none => exact .inl rfl
    | some whole =>
      obtain ⟨-, position', left'⟩ := copyAll_advances pages
      simp only [List.sum_replicate_nat] at position' left'
      have rest : whole.leftSize = (left % pageSize : Nat) := by omega
      simp only [bind, Except.bind, Option.elim_some, rest]
      by_cases nothing : left % pageSize = 0
      · have finished : whole.curBuffer = size := by omega
        simp [nothing, copyAll, CallResult, finished, assert]
      · have more : ¬ ((left % pageSize : Nat) : Int) = 0 := by omega
        simp only [if_neg nothing, if_neg more, copyAll, tryChunk, bind, Except.bind]
        cases chunk : copyChunk pid opt (left % pageSize : Nat) whole with
        | error => rfl
        | ok after =>
          obtain ⟨copied, last⟩ := after
          cases copied with
          | false =>
            have short : ¬ last.curBuffer = size := by
              rw [copyChunk_of_false chunk]
              omega
            exact .inr (by simp [short, assert, pure_eq])
          | true =>
            have finished : last.curBuffer = size := by
              rw [(copyChunk_advances chunk).2.1]
              omega
            simp [CallResult, finished, assert, pure_eq]

/-- A call is its copies one after the other; the translation of the first address must not fail. -/
theorem userReadWrite_copies {buffer : Nat → Byte} {virtAddr : BitVec 32} {s : Kernel}
    (nonneg : 0 ≤ virtAddr.toInt)
    (first : copyAll pid opt (copySizes virtAddr.toNat size) ⟨s, buffer, virtAddr, 0, size⟩ = .ok none →
      ∀ t', copyChunk pid opt (min size (pageSize - virtAddr.toNat % pageSize) : Nat)
        ⟨s, buffer, virtAddr, 0, size⟩ ≠ .ok (false, t')) :
    CallResult (copyAll pid opt (copySizes virtAddr.toNat size) ⟨s, buffer, virtAddr, 0, size⟩)
      (userReadWrite pid buffer virtAddr size opt s) := by
  have offset : virtAddr.toInt.tmod pageSize = (virtAddr.toNat % pageSize : Nat) := by
    rw [toInt_of_nonneg nonneg]
    rfl
  have small := Nat.mod_lt virtAddr.toNat (show 0 < pageSize by decide)
  have count : min (size : Int) (pageSize - (virtAddr.toNat % pageSize : Nat)) =
      (min size (pageSize - virtAddr.toNat % pageSize) : Nat) := by omega
  rw [userReadWrite_eq, offset, count]
  by_cases aligned : virtAddr.toNat % pageSize = 0
  · rw [if_pos (by omega)]
    simp only [copySizes, if_pos aligned, List.nil_append, Nat.sub_zero]
    exact callResult_rest (t := ⟨s, buffer, virtAddr, 0, size⟩) rfl (Int.zero_add _)
  · rw [if_neg (by omega)]
    simp only [copySizes, if_neg aligned, List.singleton_append, copyAll] at first ⊢
    cases chunk : copyChunk pid opt (min size (pageSize - virtAddr.toNat % pageSize) : Nat)
      ⟨s, buffer, virtAddr, 0, size⟩ with
    | error fault =>
      rw [show tryChunk pid opt _ _ = .error fault by simp only [tryChunk, chunk]; rfl]
      rfl
    | ok after =>
      obtain ⟨copied, middle⟩ := after
      cases copied with
      | false => exact absurd chunk (first (by rw [chunk]; rfl) middle)
      | true =>
        obtain ⟨-, position, left⟩ := copyChunk_advances chunk
        rw [show tryChunk pid opt _ _ = .ok middle by simp only [tryChunk, chunk]; rfl]
        dsimp only at position left
        exact callResult_rest (t := middle) (by omega) (by omega)

theorem copyChunk_resident_w {space : AddrSpace} {f : Nat}
    (inFrame : InFrame t.kernel pid space t.curVirtAddr f)
    (addressable : t.curVirtAddr.toNat < 2 ^ 31) {n : Nat}
    (within : t.curVirtAddr.toNat % pageSize + n ≤ pageSize) :
    copyChunk pid .w n t =
      .ok (true, { t.advance n (t.kernel.setSpace pid (some (space.setEntry
          (t.curVirtAddr.toNat / pageSize)
          ((space.pageTable (t.curVirtAddr.toNat / pageSize)).touched false)))) with
        buffer := bcopy (fun k => t.kernel.machine.mainMemory
          (f * pageSize + t.curVirtAddr.toNat % pageSize + k)) t.curBuffer.toNat n t.buffer }) := by
  have nonneg : ¬ ((n : Int) < 0) := by omega
  simp only [copyChunk, addrSpaceTranslate_resident inFrame addressable within, ok_bind,
    if_neg nonneg, pure_eq, Int.toNat_natCast, BitVec.ofInt_natCast, bcopy_bzero]
  rfl

/-! ## An invariant of the copies -/

/-- `I k` holds after `k` bytes, and each copy completes and keeps `I`. -/
theorem copyAll_rule (I : Nat → Transfer → Prop) {virtAddr size k : Nat}
    (step : ∀ k copySize t, I k t → 0 < copySize → k + copySize ≤ size →
      (virtAddr + k) % pageSize + copySize ≤ pageSize →
      ∃ t', copyChunk pid opt copySize t = .ok (true, t') ∧ I (k + copySize) t')
    {sizes : List Nat} (begins : I k t) (fits : k + sizes.sum ≤ size)
    (within : WithinPages (virtAddr + k) sizes) :
    ∃ t', copyAll pid opt sizes t = .ok (some t') ∧ I (k + sizes.sum) t' := by
  induction sizes generalizing t k with
  | nil => exact ⟨t, rfl, begins⟩
  | cons copySize rest ih =>
    simp only [List.sum_cons] at fits
    obtain ⟨t₁, copied, next⟩ := step k copySize t begins within.1.1 (by omega) within.1.2
    have others : WithinPages (virtAddr + (k + copySize)) rest := by
      rw [← Nat.add_assoc]
      exact within.2
    simp only [copyAll, copied, ok_bind, if_true, List.sum_cons, ← Nat.add_assoc]
    exact ih next (by omega) others

theorem userReadWrite_rule (s : Kernel) (pid : Nat) (opt : TransferOpt) (buffer : Nat → Byte)
    (I : Nat → Transfer → Prop) {virtAddr : BitVec 32}
    (nonneg : 0 ≤ virtAddr.toInt) (positive : 0 < size)
    (begins : I 0 ⟨s, buffer, virtAddr, 0, size⟩)
    (step : ∀ k copySize t, I k t → 0 < copySize → k + copySize ≤ size →
      (virtAddr.toNat + k) % pageSize + copySize ≤ pageSize →
      ∃ t', copyChunk pid opt copySize t = .ok (true, t') ∧ I (k + copySize) t') :
    ∃ t, copyAll pid opt (copySizes virtAddr.toNat size) ⟨s, buffer, virtAddr, 0, size⟩ =
      .ok (some t) ∧ userReadWrite pid buffer virtAddr size opt s = .ok (t.buffer, t.kernel) ∧
      I size t := by
  have sum : (copySizes virtAddr.toNat size).sum = size := copySizes_sum
  have within : WithinPages (virtAddr.toNat + 0) (copySizes virtAddr.toNat size) :=
    copySizes_withinPages positive
  obtain ⟨t, copies, done⟩ := copyAll_rule I step begins (by rw [sum, Nat.zero_add]) within
  rw [sum, Nat.zero_add] at done
  have call := userReadWrite_copies nonneg fun none => by cases copies.symm.trans none
  rw [copies] at call
  exact ⟨t, copies, call, done⟩

end Copies

end Nachos
