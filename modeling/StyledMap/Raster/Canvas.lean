import StyledMap.Text.Power

/-! A canvas: the bytes an engine draws into, four for each pixel, row by row. -/
namespace StyledMap

structure Canvas where
  width : Nat
  height : Nat
  bytes : ByteArray
  size_eq : bytes.size = 4 * (width * height)

namespace Canvas

def bytesPerPixel : Nat := 4

/-- Lengths are counted in 64 bits. -/
def lengthLimit : Nat := 2 ^ 64 - 1

/-- One piece of memory is no longer than this. -/
def allocationLimit : Nat := 2 ^ 63 - 1

/-- The length of a canvas, if it can be counted. -/
def length? (width height : Nat) : Option Nat :=
  if 4 * (width * height) ≤ lengthLimit then some (4 * (width * height)) else none

/-- Why a canvas was not made: its size makes no sense, or there is no such memory. -/
inductive Refusal where
  | size
  | memory
  deriving Repr, DecidableEq

def zeros (n : Nat) : ByteArray := ⟨Array.replicate n 0⟩

@[simp] theorem size_zeros (n : Nat) : (zeros n).size = n := by
  simp [zeros, ByteArray.size]

/-- An empty canvas, all zero. -/
def blank (width height : Nat) : Except Refusal Canvas :=
  match length? width height with
  | none | some 0 => .error .size
  | some n =>
    if allocationLimit < n then .error .memory
    else .ok ⟨width, height, zeros (4 * (width * height)), size_zeros _⟩

/-- Puts bytes at the start of a canvas. What does not fit is dropped, what is not reached stays. -/
def write (c : Canvas) (bytes : ByteArray) : Canvas where
  width := c.width
  height := c.height
  bytes := bytes.extract 0 c.bytes.size ++ c.bytes.extract bytes.size c.bytes.size
  size_eq := by
    have h := c.size_eq
    simp only [ByteArray.size_append, ByteArray.size_extract]
    omega

def isBlank (c : Canvas) : Bool := c.bytes.data.all (· == 0)

end Canvas
end StyledMap
