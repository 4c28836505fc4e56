import ObliviousRam.Tree.Node

namespace ObliviousRam

structure Path where
  leaf : Word
  /-- The nodes above the leaf, its parent first. -/
  ancestors : List Word
  deriving DecidableEq

namespace Path

def nodes (p : Path) : List Word := p.leaf :: p.ancestors

def length (p : Path) : Nat := p.ancestors.length + 1

def root (p : Path) : Word := p.ancestors.getLastD p.leaf

/-- The `count` nodes met on the way up from `x`, a node of level `l`. -/
def above : Nat → Nat → Word → List Word
  | 0, _, _ => []
  | count + 1, l, x => Node.parent l x :: above count (l + 1) (Node.parent l x)

/-- The path of `height + 1` nodes that starts at `leaf`, whatever root it ends in. -/
def climb (height : Nat) (leaf : Word) : Except Fault Path := do
  unless Node.isLeaf leaf do throw (.notALeaf leaf)
  unless height < 63 do throw .wordOverflow
  let p : Path := ⟨leaf, above height 0 leaf⟩
  let bound ← Word.double p.root
  unless leaf ≤ bound do throw (.leafOutsideTree leaf)
  return p

def heightOf (root : Word) : Except Fault Nat := do
  let size ← Word.fits (root.toNat + 1)
  unless 2 ^ size.log2 = size do throw (.malformedRoot root)
  return size.log2

def between (leaf root : Word) : Except Fault Path := do
  let p ← climb (← heightOf root) leaf
  unless p.root = root do throw (.leafOutsideTree leaf)
  return p

def retarget (p : Path) (leaf : Word) : Except Fault Path :=
  climb p.ancestors.length leaf

@[simp] theorem length_nodes (p : Path) : p.nodes.length = p.length := rfl

@[simp] theorem length_above (count l : Nat) (x : Word) : (above count l x).length = count := by
  induction count generalizing l x with
  | zero => rfl
  | succ count ih => simp [above, ih]

end Path

end ObliviousRam
