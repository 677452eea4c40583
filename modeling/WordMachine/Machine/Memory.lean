import Std.Data.TreeMap
import WordMachine.Instruction

/-!
# `Machine.Memory` — byte memory with exact bounds

Memory is a number of bytes, all zero at first. Only bytes that were written are kept, so a large
memory costs nothing until it is used.

Contents:
* `checkAccess`: an access fits if its address is not beyond the end and its size is not more than what is left
  from there;
* `Memory`, `Memory.limit`, `load`, `store`, `write`;
* `zeroTerminated`, `Memory.string`, `Image.string`: strings up to a zero byte.
-/

namespace WordMachine

/-- Refuse an access that does not lie within a region of `limit` bytes. -/
def checkAccess (region : Region) (limit : Nat) (address : UInt64) (size : Int) : Except Fault Unit :=
  if address.toNat ≤ limit ∧ 0 ≤ size ∧ size ≤ (limit - address.toNat : Nat) then .ok ()
  else .error (.access ⟨region, address, size, limit⟩)

/-- The bytes from a place up to the first zero byte among the next `count` ones. -/
def zeroTerminated (byteAt : Nat → UInt8) : Nat → Nat → Option Bytes
  | 0, _ => none
  | count + 1, place =>
      let b := byteAt place
      if b = 0 then some [] else (zeroTerminated byteAt count (place + 1)).map (b :: ·)

/-- The zero-terminated string at an address of a region. A string that runs off the end is an access
of all bytes left and one more. -/
def regionString (region : Region) (limit : Nat) (byteAt : Nat → UInt8) (address : UInt64) :
    Except Fault Bytes :=
  match checkAccess region limit address 1 with
  | .error fault => .error fault
  | .ok () =>
      match zeroTerminated byteAt (limit - address.toNat) address.toNat with
      | some text => .ok text
      | none => .error (.access ⟨region, address, limit - address.toNat + 1, limit⟩)

/-- The zero-terminated string at an address of an image. -/
def Image.string (image : Image) (address : UInt64) : Except Fault Bytes :=
  regionString .image image.size (fun place => image[place]?.getD 0) address

/-- Data memory: its declared size and the bytes that were written. -/
structure Memory where
  size : Int
  cells : Std.TreeMap Nat UInt8 := ∅

namespace Memory

/-- The default memory size in bytes. -/
def defaultSize : Nat := 128 * Nat.pow 2 20

/-- The number of bytes there are; a negative size declares none. -/
def limit (m : Memory) : Nat := m.size.toNat

/-- The byte at a place. -/
def byte (m : Memory) (place : Nat) : UInt8 := m.cells.getD place 0

/-- The `count` bytes from a place on. -/
def read (m : Memory) : Nat → Nat → Bytes
  | _, 0 => []
  | place, count + 1 => m.byte place :: m.read (place + 1) count

/-- Put bytes from a place on. -/
def put (m : Memory) : Nat → Bytes → Memory
  | _, [] => m
  | place, b :: rest => put { m with cells := m.cells.insert place b } (place + 1) rest

/-- All bytes zero. -/
def reset (m : Memory) : Memory := { m with cells := ∅ }

/-- The value of `size` bytes at an address, least significant first, modulo `2 ^ 64`. -/
def load (m : Memory) (address : UInt64) (size : Int) : Except Fault UInt64 :=
  match checkAccess .memory m.limit address size with
  | .error fault => .error fault
  | .ok () => .ok (ofLittleEndian (m.read address.toNat size.toNat)).toUInt64

/-- Put the low `size` bytes of a value at an address, least significant first. -/
def store (m : Memory) (address : UInt64) (size : Int) (value : UInt64) : Except Fault Memory :=
  match checkAccess .memory m.limit address size with
  | .error fault => .error fault
  | .ok () => .ok (m.put address.toNat (littleEndian size.toNat value.toNat))

/-- Put a block of bytes at an address. -/
def write (m : Memory) (address : UInt64) (data : Bytes) : Except Fault Memory :=
  match checkAccess .memory m.limit address data.length with
  | .error fault => .error fault
  | .ok () => .ok (m.put address.toNat data)

/-- The zero-terminated string at an address. -/
def string (m : Memory) (address : UInt64) : Except Fault Bytes :=
  regionString .memory m.limit m.byte address

end Memory

end WordMachine
