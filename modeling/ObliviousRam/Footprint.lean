import ObliviousRam.Config
import ObliviousRam.PositionMap.Creation

/- The number of bytes that each structure takes. The plain functions are exact, and those that end
in a question mark answer only if the size fits in a word. -/
namespace ObliviousRam.Footprint

def word : Nat := 8

def encryption : Nat := 16

/-- The fixed part of a layer, apart from what its lists and arrays hold. -/
def header : Nat := 288

def block (w : Nat) : Nat := (w + 2) * word

def bucket (w : Nat) : Nat := Bucket.capacity * block w + encryption

def tree (w levels : Nat) : Nat := (2 ^ levels - 1) * bucket w

def stash (w levels overflowSize : Nat) : Nat :=
  let slots := Bucket.capacity * levels + overflowSize
  slots * block w + levels * word + slots * word

def scanMap (size : Nat) : Nat := size * word

def layer (w : Nat) (config : Config) (levels : Nat) : Nat :=
  header + tree w levels + stash w levels config.overflowSize + levels * word

/-- A map of one entry counts as one that is scanned. With a threshold of zero it would be packed into
one block, the map of that block into another one, and so on without end. No memory is created with
such a threshold, but its size can be asked for. -/
def positionMap (w : Nat) (config : Config) (size : Nat) : Nat :=
  if size ≤ config.scanThreshold ∨ w < 2 ∨ size ≤ 1 then scanMap size
  else
    let blocks := ceilDiv size w
    layer w config (levelsFor blocks) + positionMap w config blocks
termination_by size
decreasing_by exact ceilDiv_lt (by omega) (by omega)

def oram (w : Nat) (config : Config) (levels blocks : Nat) : Nat :=
  layer w config levels + positionMap w config blocks

def tree? (w levels : Nat) : Except Fault Nat :=
  if levels < 64 then Word.fits (tree w levels) else .error .wordOverflow

def stash? (w levels overflowSize : Nat) : Except Fault Nat :=
  Word.fits (stash w levels overflowSize)

def scanMap? (size : Nat) : Except Fault Nat := Word.fits (scanMap size)

def positionMap? (w : Nat) (config : Config) (size : Nat) : Except Fault Nat :=
  Word.fits (positionMap w config size)

def oram? (w : Nat) (config : Config) (levels blocks : Nat) : Except Fault Nat :=
  if levels < 64 then Word.fits (oram w config levels blocks) else .error .wordOverflow

end ObliviousRam.Footprint
