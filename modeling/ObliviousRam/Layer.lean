import ObliviousRam.Config
import ObliviousRam.Engine
import ObliviousRam.Stash.Eviction
import ObliviousRam.Stash.Growth
import ObliviousRam.Statistics
import ObliviousRam.Tree.Storage

namespace ObliviousRam

/-- One tree with its stash. Where its blocks are to be found is kept elsewhere. -/
structure Layer (w : Nat) where
  tree : BucketTree w
  stash : Stash w
  path : Path
  capacity : Nat
  allocated : Nat
  statistics : Statistics

/-- What is done with the data of a block: an answer, and the data that is stored. -/
abbrev Accessor (w : Nat) (α : Type) := Vector Word w → Except Refusal α × Vector Word w

namespace Layer

variable {w : Nat} {σ α μ : Type}

def assemble (config : Config) (tree : BucketTree w) (capacity depth : Nat) :
    Engine σ (Layer w) := do
  let stash ← Stash.create config.network tree.levels config.overflowSize
  let path ← Path.between 0 tree.root
  Engine.tell (.oramCreated w capacity tree.levels tree.leaves.toNat depth)
  return ⟨tree, stash, path, capacity, 0, .start depth⟩

def allocate (layer : Layer w) (n : Nat) : Option Word × Layer w :=
  if layer.allocated + n ≤ layer.capacity then
    (some (UInt64.ofNat layer.allocated), { layer with allocated := layer.allocated + n })
  else (none, layer)

def clear (layer : Layer w) : Layer w :=
  { layer with
    tree := layer.tree.clear
    stash := layer.stash.clear
    allocated := 0
    statistics := layer.statistics.reset }

/-- Reads one bucket of a path into the stash. The last part of the state is block `id` as soon as
it is found. -/
def fetchBucket (id : Word) : BucketTree w × Stash w × Block w → Word × Nat →
    Except Fault (BucketTree w × Stash w × Block w)
  | (tree, stash, target), (node, level) => do
    let (bucket, tree) ← tree.read node
    let (stash, target) ← stash.load level bucket id target
    return (tree, stash, target)

def fetch (layer : Layer w) (id : Word) : Except Fault (Layer w × Block w) := do
  let (tree, stash, target) ←
    layer.path.nodes.zipIdx.foldlM (fetchBucket id) (layer.tree, layer.stash, Block.empty)
  let (stash, target) ← stash.takeOverflow id target
  return ({ layer with tree, stash }, target)

/-- Fetches block `id` from the path of leaf number `previous`, uses it, and leaves it in the stash
to be sent to leaf number `next`. A refusal by the accessor comes too late to undo anything. -/
def gather (layer : Layer w) (id previous next : Word) (use : Accessor w α) :
    Engine σ (Except Refusal α × Layer w) := do
  let path ← layer.path.retarget (← Word.double previous)
  let (layer, target) ← { layer with path }.fetch id
  let position ← Word.double next
  let (answer, data) := use target.data
  let stash ← layer.stash.keep ⟨id, position, data⟩
  return (answer, { layer with stash })

def writeBucket (stash : Stash w) (tree : BucketTree w) : Word × Nat → Except Fault (BucketTree w)
  | (node, level) => do
    let bucket ← stash.bucketAt level
    tree.write node bucket

def writeBack (layer : Layer w) : Except Fault (Layer w) := do
  let tree ← layer.path.nodes.zipIdx.foldlM (writeBucket layer.stash) layer.tree
  return { layer with tree }

def flush (layer : Layer w) : Except Fault (Layer w) := do
  let stash ← layer.stash.evict layer.path
  let layer ← { layer with stash }.writeBack
  return { layer with statistics := layer.statistics.record stash.overflowCount }

def visit (layer : Layer w) (id previous next : Word) (use : Accessor w α) :
    Engine σ (Except Refusal α × Layer w) := do
  let (answer, layer) ← layer.gather id previous next use
  return (answer, ← layer.flush)

/-- Accesses block `id`. The state `positions` knows its leaf, which `relocate` replaces by a new
one and answers. -/
def access [LeafSource σ] (layer : Layer w) (positions : μ)
    (relocate : Word → Word → Engine σ (Except Refusal Word × μ)) (id : Word)
    (use : Accessor w α) : Engine σ (Except Refusal α × Layer w × μ) := do
  if id.toNat < layer.allocated then
    let next ← Engine.draw layer.tree.leaves
    match ← relocate id next with
    | (.ok previous, positions) =>
      let (answer, layer) ← layer.visit id previous next use
      return (answer, layer, positions)
    | (.error refusal, positions) => return (.error refusal, layer, positions)
  else return (.error .unallocatedBlock, layer, positions)

end Layer

end ObliviousRam
