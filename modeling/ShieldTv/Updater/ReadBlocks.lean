import ShieldTv.Applypatch.Bspatch
import ShieldTv.Updater.ByteCounts

/-!
# `ReadBlocks` of `updater/blockimg.c`

The loops of `read_all` and `ReadBlocks` over `read`, in bytes. `read_all` adds what `read`
returns until it has everything, so that it gets a number of rounds.
-/

namespace ShieldTv.Updater.ReadBlocks

open Applypatch (Stop)
open Updater.ByteCounts

/-- A file behind `read`: a call delivers some of the bytes asked for, none only from the end of the
file on, or fails. -/
structure Device where
  size : Nat
  read : Nat → Nat → Option Bytes
  length_read_le : ∀ {offset room data}, read offset room = some data → data.length ≤ room
  progress : ∀ {offset room data}, read offset room = some data → offset < size → 0 < room →
    data ≠ [] ∧ offset + data.length ≤ size
  end_of_file : ∀ {offset room data}, read offset room = some data → size ≤ offset → data = []

def readAll (dev : Device) : Nat → Nat → Nat → Except Stop Bytes
  | _, _, 0 => .ok []
  | 0, _, _ + 1 => .error .running
  | fuel + 1, offset, size + 1 =>
    match dev.read offset (size + 1) with
    | none => .error .failed
    | some data => do
      let rest ← readAll dev fuel (offset + data.length) (size + 1 - data.length)
      .ok (data ++ rest)

def readBlocks (dev : Device) (fuel : Nat) : List Range → Except Stop Bytes
  | [] => .ok []
  | range :: src => do
    let data ← readAll dev fuel (range.1 * 4096) (rangeBytes range)
    let rest ← readBlocks dev fuel src
    .ok (data ++ rest)

end ShieldTv.Updater.ReadBlocks
