import Nachos.FileSys.Disk
import Nachos.Lib.Runs

/-!
# The time of a disk request

The latency of the simulated disk, of `disk.cc`.  The disk turns by one sector in `RotationTime` ticks,
so sector `n` of a track begins to pass under the head when `n * RotationTime` ticks are over, and again
after each turn.  All times are below `2 ^ 31`.
-/

namespace Nachos

open Runs

def rotationTime : Int := 500

def seekTime : Int := 500

structure DiskHead where
  lastSector : Int
  bufferInit : Int
  active : Bool
  totalTicks : Int
  due : Int
  deriving DecidableEq, Repr

namespace DiskHead

def new : DiskHead := ⟨0, 0, false, 0, 0⟩

def timeToSeek (s : DiskHead) (newSector : Int) : Int × Int :=
  let newTrack := newSector.tdiv sectorsPerTrack
  let oldTrack := s.lastSector.tdiv sectorsPerTrack
  let seek := (newTrack - oldTrack).natAbs * seekTime
  let past := (s.totalTicks + seek).tmod rotationTime
  (seek, if past > 0 then rotationTime - past else 0)

def moduloDiff (newSector position : Int) : Int :=
  let toOffset := newSector.tmod sectorsPerTrack
  let fromOffset := position.tmod sectorsPerTrack
  ((toOffset - fromOffset) + sectorsPerTrack).tmod sectorsPerTrack

def timeAfter (s : DiskHead) (newSector : Int) : Int :=
  s.totalTicks + (s.timeToSeek newSector).1 + (s.timeToSeek newSector).2

def trackBuffer (s : DiskHead) (newSector : Int) (writing : Bool) : Bool :=
  writing = false ∧ (s.timeToSeek newSector).1 = 0 ∧
    (s.timeAfter newSector - s.bufferInit).tdiv rotationTime >
      moduloDiff newSector (s.bufferInit.tdiv rotationTime)

def computeLatency (s : DiskHead) (newSector : Int) (writing : Bool) : Int :=
  let (seek, rotation) := s.timeToSeek newSector
  if s.trackBuffer newSector writing then rotationTime
  else
    let rotation := rotation +
      moduloDiff newSector ((s.timeAfter newSector).tdiv rotationTime) * rotationTime
    seek + rotation + rotationTime

def updateLast (s : DiskHead) (newSector : Int) : DiskHead :=
  { s with
    bufferInit := if (s.timeToSeek newSector).1 ≠ 0 then s.timeAfter newSector else s.bufferInit
    lastSector := newSector }

def request (s : DiskHead) (sectorNumber : Int) (writing : Bool) : Except Fault DiskHead := do
  let ticks := s.computeLatency sectorNumber writing
  assert (!s.active)
  assert (Disk.inRange sectorNumber)
  return { s.updateLast sectorNumber with active := true, due := s.totalTicks + ticks }

end DiskHead

inductive DiskHeadEvent where
  | request (sectorNumber : Int) (writing : Bool)
  /-- `HandleInterrupt`, once the request is due. -/
  | interrupt
  | pass (ticks : Nat)
  deriving DecidableEq, Repr

def performDiskHead (event : DiskHeadEvent) (s : DiskHead) : Option DiskHead :=
  match event with
  | .request sectorNumber writing => (s.request sectorNumber writing).toOption
  | .interrupt => if s.active ∧ s.due ≤ s.totalTicks then some { s with active := false } else none
  | .pass ticks => some { s with totalTicks := s.totalTicks + ticks }

def DiskHeadStep (s : DiskHead) (event : DiskHeadEvent) (s' : DiskHead) : Prop :=
  performDiskHead event s = some s'

end Nachos
