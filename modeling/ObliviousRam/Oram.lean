import ObliviousRam.PositionMap

namespace ObliviousRam

/-- A memory of blocks whose accesses do not show which block is meant, nor what is done to it. -/
structure Oram (w : Nat) where
  layer : Layer w
  positions : PositionMap w

namespace Oram

variable {w : Nat} {σ α : Type}

/-- Hands out the next `n` ids and answers the first, or none if fewer are left. -/
def allocate (oram : Oram w) (n : Nat) : Option Word × Oram w :=
  let (first, layer) := oram.layer.allocate n
  (first, { oram with layer })

def depth (oram : Oram w) : Nat := oram.positions.depth

def report (oram : Oram w) : Statistics.Report :=
  ⟨oram.layer.statistics, oram.positions.occupancy⟩

/-- Forgets all blocks. Their positions stay as they are, which is as good as drawing new ones. -/
def clear (oram : Oram w) : Engine σ (Oram w) := do
  Engine.tell (.oramCleared oram.layer.capacity)
  return { oram with layer := oram.layer.clear }

variable [LeafSource σ]

/-- Uses the data of an allocated block. What the accessor stores is kept even if it refuses. -/
def access (oram : Oram w) (id : Word) (use : Accessor w α) :
    Engine σ (Except Refusal α × Oram w) := do
  let (answer, layer, positions) ←
    oram.layer.access oram.positions oram.positions.relocate id use
  return (answer, ⟨layer, positions⟩)

def get (oram : Oram w) (id : Word) : Engine σ (Except Refusal (Vector Word w) × Oram w) :=
  oram.access id fun data => (.ok data, data)

def put (oram : Oram w) (id : Word) (data : Vector Word w) :
    Engine σ (Except Refusal Unit × Oram w) :=
  oram.access id fun _ => (.ok (), data)

def windowRefusal? (w start len : Nat) (buffer : Option Nat) : Option Refusal :=
  if len = 0 ∨ w < start + len then some (.partialWriteRange start len w)
  else
    match buffer with
    | some actual => if actual = len then none else some (.bufferLength len actual)
    | none => none

def putPartial (oram : Oram w) (id : Word) (start : Nat) (words : List Word)
    (buffer : Option (List Word)) : Engine σ (Except Refusal (Option (List Word)) × Oram w) :=
  match windowRefusal? w start words.length (buffer.map List.length) with
  | some refusal => return (.error refusal, oram)
  | none => oram.access id fun data =>
    (.ok (buffer.map (Window.read start words.length data)), Window.write start words data)

end Oram

end ObliviousRam
