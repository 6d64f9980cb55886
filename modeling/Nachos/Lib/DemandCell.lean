import Mathlib.Tactic.Common

/-!
# Cells loaded on demand

A cell has a backing copy and, while it is resident, a working copy.  Eviction writes
a dirty working copy back; the next use fills the cell from the backing copy again.  A
cell past the end of the initial image may be zeroed instead of filled, once.

`Ok image past` relates a cell to the image it started from: a cell never written
still has the image, and a cell that may still be zeroed has never been used.  Under it
no transition but a write changes the content.
-/

/-- `content` is the working copy of a resident cell, and the backing copy of one that
is not. -/
structure DemandCell (α : Type) where
  resident : Bool
  dirty : Bool
  zeroFilled : Bool
  backing : α
  content : α

namespace DemandCell

variable {α : Type} {c d e : DemandCell α} {image zero : α} {past : Prop}

def fresh (image : α) (zeroFilled : Bool) : DemandCell α where
  resident := false
  dirty := false
  zeroFilled := zeroFilled
  backing := image
  content := image

def evict (c : DemandCell α) : DemandCell α :=
  let saved := if c.dirty then c.content else c.backing
  { c with resident := false, backing := saved, content := saved }

def fill (c : DemandCell α) : DemandCell α := { c with resident := true, content := c.backing }

def zeroFill (c : DemandCell α) (zero : α) : DemandCell α :=
  { c with resident := true, zeroFilled := true, content := zero }

def write (c : DemandCell α) (value : α) : DemandCell α := { c with dirty := true, content := value }

def branch (c : DemandCell α) (image : α) : DemandCell α :=
  { c with backing := image, content := if c.resident then c.content else image }

def KeptOrEvicted (c d : DemandCell α) : Prop := d = c ∨ (c.resident = true ∧ d = c.evict)

theorem KeptOrEvicted.trans (first : KeptOrEvicted c d) (second : KeptOrEvicted d e) :
    KeptOrEvicted c e := by
  obtain rfl | ⟨resident, rfl⟩ := first
  · exact second
  · obtain rfl | ⟨again, -⟩ := second
    · exact Or.inr ⟨resident, rfl⟩
    · -- an evicted cell is not evicted twice
      simp [evict] at again

theorem KeptOrEvicted.of_not_resident (kept : KeptOrEvicted c d) (absent : c.resident = false) :
    d = c := by
  obtain rfl | ⟨resident, -⟩ := kept
  · rfl
  · simp [absent] at resident

theorem KeptOrEvicted.dirty (kept : KeptOrEvicted c d) : d.dirty = c.dirty := by
  obtain rfl | ⟨-, rfl⟩ := kept
  · rfl
  · rfl

structure Ok (image : α) (past : Prop) (c : DemandCell α) : Prop where
  absent : c.resident = false → c.content = c.backing
  clean : c.dirty = false → c.backing = image ∧ c.content = image
  unused : past → c.zeroFilled = false → c.resident = false ∧ c.dirty = false

namespace Ok

theorem fresh (image : α) (past : Prop) (zeroFilled : Bool) :
    Ok image past (DemandCell.fresh image zeroFilled) where
  absent _ := rfl
  clean _ := ⟨rfl, rfl⟩
  unused _ _ := ⟨rfl, rfl⟩

theorem evict_content (ok : Ok image past c) : c.evict.content = c.content := by
  cases dirty : c.dirty with
  | true => simp [DemandCell.evict, dirty]
  | false =>
    -- a clean cell has the image in both places
    obtain ⟨backing, content⟩ := ok.clean dirty
    simp [DemandCell.evict, dirty, backing, content]

theorem evict (ok : Ok image past c) : Ok image past c.evict where
  absent _ := rfl
  clean := by
    intro clean
    have cleanBefore : c.dirty = false := clean
    obtain ⟨backing, -⟩ := ok.clean cleanBefore
    simp [DemandCell.evict, cleanBefore, backing]
  unused := by
    intro isPast notZeroed
    exact ⟨rfl, (ok.unused isPast notZeroed).2⟩

theorem keptOrEvicted (ok : Ok image past c) (kept : KeptOrEvicted c d) :
    Ok image past d ∧ d.content = c.content := by
  obtain rfl | ⟨-, rfl⟩ := kept
  · exact ⟨ok, rfl⟩
  · exact ⟨ok.evict, ok.evict_content⟩

/-- Filling a cell that has not been zeroed is left to cells inside the image. -/
theorem fill (ok : Ok image past c) (absent : c.resident = false)
    (loaded : past → c.zeroFilled = true) :
    Ok image past c.fill ∧ c.fill.content = c.content := by
  have same : c.fill.content = c.content := (ok.absent absent).symm
  refine ⟨⟨fun resident => ?_, fun clean => ?_, fun isPast notZeroed => ?_⟩, same⟩
  · simp [DemandCell.fill] at resident
  · obtain ⟨backing, content⟩ := ok.clean clean
    exact ⟨backing, same.trans content⟩
  · have zeroed : c.zeroFilled = false := notZeroed
    simp [loaded isPast] at zeroed

/-- Zeroing an unused cell past the end of the image gives what the image has there. -/
theorem zeroFill (ok : Ok image past c) (isPast : past) (notZeroed : c.zeroFilled = false)
    (zeros : past → image = zero) :
    Ok image past (c.zeroFill zero) ∧ (c.zeroFill zero).content = c.content := by
  obtain ⟨-, clean⟩ := ok.unused isPast notZeroed
  obtain ⟨backing, content⟩ := ok.clean clean
  have same : (c.zeroFill zero).content = c.content := by
    rw [content, zeros isPast]
    rfl
  refine ⟨⟨fun resident => ?_, fun _ => ⟨backing, same.trans content⟩, fun _ zeroed => ?_⟩, same⟩
  · simp [DemandCell.zeroFill] at resident
  · simp [DemandCell.zeroFill] at zeroed

theorem write (ok : Ok image past c) (resident : c.resident = true) (value : α) :
    Ok image past (c.write value) where
  absent := by
    intro absent
    have absentBefore : c.resident = false := absent
    simp [resident] at absentBefore
  clean := by
    intro clean
    simp [DemandCell.write] at clean
  unused := by
    intro isPast notZeroed
    have absent := (ok.unused isPast notZeroed).1
    simp [resident] at absent

/-- A branch has the content of its original when a dirty original is resident. -/
theorem branch_content (ok : Ok image past c) (dirtyResident : c.dirty = true → c.resident = true) :
    (c.branch image).content = c.content := by
  cases resident : c.resident with
  | true => simp [DemandCell.branch, resident]
  | false =>
    have clean : c.dirty = false := by
      cases dirty : c.dirty with
      | false => rfl
      | true => simp [dirtyResident dirty] at resident
    simp [DemandCell.branch, resident, (ok.clean clean).2]

theorem branch (ok : Ok image past c) : Ok image past (c.branch image) where
  absent := by
    intro absent
    have absentBefore : c.resident = false := absent
    simp [DemandCell.branch, absentBefore]
  clean := by
    intro clean
    have content := (ok.clean clean).2
    simp [DemandCell.branch, content]
  unused := ok.unused

end Ok

end DemandCell
