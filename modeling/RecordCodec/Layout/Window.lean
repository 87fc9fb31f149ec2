import RecordCodec.AddressSpace

/-!
# Windows of a fixed run

Leaves of a fixed width that follow each other form a run, which is read through
one word window after another. While a run is compiled, the open window is
tracked: the byte of the run at which it starts, how many of its bits are taken,
and how many bits the whole run has so far.

A run ends wherever the input cursor has to move, and its length in bytes is
then how far the cursor moves.

The bits that are taken of a window are counted in 16 bits. Where the window starts
and how long the run is are addresses.
-/

namespace RecordCodec

namespace Layout

/-- The count of the bits of a window wraps around here. -/
def countSize : Nat := 65536

structure Window where
  start : Nat := 0
  taken : Nat := 0
  runBits : Nat := 0
  deriving DecidableEq, Repr

namespace Window

variable [AddressSpace]

/-- Opens a new window behind the bits that are taken. -/
def reopen (window : Window) : Window :=
  { window with start := AddressSpace.add window.start (window.taken / 8), taken := 0 }

/-- Whether a leaf still lies inside the window. -/
def fits (window : Window) (bits : Nat) : Bool := (window.taken + bits) % countSize ≤ 256

/-- Takes the bits of a leaf. -/
def take (window : Window) (bits : Nat) : Window :=
  { window with
    taken := (window.taken + bits) % countSize
    runBits := AddressSpace.add window.runBits bits }

/-- The length of the run in whole bytes. -/
def runBytes (window : Window) : Nat := window.runBits / 8

/-- Ends the run: its length in bytes, and the first window of the next one. -/
def close (window : Window) : Nat × Window := (window.runBytes, {})

end Window

end Layout

end RecordCodec
