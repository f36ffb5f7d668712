import Foundry.Base.Words
import Mathlib.Data.List.Defs

/-!
# Keccak-256

The hash of Ethereum, on a state of five rows of five lanes of 64 bits.  Lanes are natural numbers
with the operations that a kernel computes on literals.
-/

namespace Foundry.Keccak

open List

abbrev Rows := List (List Nat)

def rotateLane (n lane : Nat) : Nat :=
  Nat.mod (Nat.shiftRight (Nat.mul lane 0x10000000000000001) (Nat.sub 64 n)) 0x10000000000000000

def rotateRow : Nat → List Nat → List Nat
  | n + 1, lane :: row => rotateRow n (row ++ [lane])
  | _, row => row

def theta (rows : Rows) : Rows :=
  let parity := rows.foldl (zipWith Nat.xor) (replicate 5 0)
  let change := zipWith Nat.xor (rotateRow 4 parity) ((rotateRow 1 parity).map (rotateLane 1))
  rows.map (zipWith Nat.xor change)

def offsets : Rows :=
  [[0, 1, 62, 28, 27], [36, 44, 6, 55, 20], [3, 10, 43, 25, 39], [41, 45, 15, 21, 8],
    [18, 2, 61, 56, 14]]

def rho (rows : Rows) : Rows := zipWith (zipWith rotateLane) offsets rows

def pi (rows : Rows) : Rows :=
  let rows := zipWith rotateRow (range 5) rows
  [0, 3, 1, 4, 2].map fun x => rows.map fun row => row.getD x 0

def chi (rows : Rows) : Rows :=
  rows.map fun row => zipWith Nat.xor row
    (zipWith (fun a b => Nat.land (Nat.sub 0xffffffffffffffff a) b) (rotateRow 1 row)
      (rotateRow 2 row))

def iota (constant : Nat) : Rows → Rows
  | (lane :: row) :: rows => (Nat.xor lane constant :: row) :: rows
  | rows => rows

def constants : List Nat :=
  [0x0000000000000001, 0x0000000000008082, 0x800000000000808a, 0x8000000080008000,
    0x000000000000808b, 0x0000000080000001, 0x8000000080008081, 0x8000000000008009,
    0x000000000000008a, 0x0000000000000088, 0x0000000080008009, 0x000000008000000a,
    0x000000008000808b, 0x800000000000008b, 0x8000000000008089, 0x8000000000008003,
    0x8000000000008002, 0x8000000000000080, 0x000000000000800a, 0x800000008000000a,
    0x8000000080008081, 0x8000000000008080, 0x0000000080000001, 0x8000000080008008]

def permute (rows : Rows) : Rows :=
  constants.foldl (fun rows constant => iota constant (chi (pi (rho (theta rows))))) rows

def pad (message : List Nat) : List Nat :=
  let gap := 136 - message.length % 136
  message ++ if gap = 1 then [0x81] else 1 :: replicate (gap - 2) 0 ++ [0x80]

/-- Takes in a block of 17 lanes. -/
def absorb (rows : Rows) (block : List Nat) : Rows :=
  let lanes := (block.toChunks 8).map fun bytes => bytes.foldr (fun byte n => byte + 256 * n) 0
  permute (zipWith (zipWith Nat.xor) rows ((lanes ++ replicate 8 0).toChunks 5))

def laneBytes (lane : Nat) : List Nat := (range 8).map fun i => lane / 256 ^ i % 256

end Foundry.Keccak

namespace Foundry

open Keccak in
def keccak256 (message : Bytes) : B256 :=
  let rows := ((pad (message.map BitVec.toNat)).toChunks 136).foldl absorb
    (List.replicate 5 (List.replicate 5 0))
  let bytes := (rows.flatten.take 4).flatMap laneBytes
  BitVec.ofNat 256 (bytes.foldl (fun n byte => 256 * n + byte) 0)

example : keccak256 [] = 0xc5d2460186f7233c927e7db2dcc703c0e500b653ca82273b7bfad8045d85a470 := by
  decide +kernel

end Foundry
