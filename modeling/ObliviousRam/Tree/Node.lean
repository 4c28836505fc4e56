import ObliviousRam.Word

/- Nodes of a complete binary tree are numbered from left to right. The leaves are the even ids,
the lowest `l` bits of a node at level `l` are ones and bit `l` is zero. -/
namespace ObliviousRam.Node

def trailingOnes : Nat → Nat → Nat
  | 0, _ => 0
  | bits + 1, n => if n % 2 = 1 then trailingOnes bits (n / 2) + 1 else 0

def level (x : Word) : Nat := trailingOnes 64 x.toNat

def isLeaf (x : Word) : Bool := x % 2 == 0

/-- The parent of a node at level `l`: bit `l` is set and the bit above it cleared. -/
def parent (l : Nat) (x : Word) : Word :=
  (x ||| 1 <<< UInt64.ofNat l) &&& ~~~(1 <<< UInt64.ofNat (l + 1))

def parentAt (l : Nat) (x : Word) : Except Fault Word :=
  if l + 1 < 64 then .ok (parent l x) else .error .wordOverflow

def lowerBound (x : Word) : Except Fault Word :=
  if x = Word.allOnes then .error .wordOverflow else .ok (x &&& (x + 1))

def upperBound (x : Word) : Except Fault Word := do
  let twice ← Word.double x
  let low ← lowerBound x
  return twice - low

def count (levels : Nat) : Except Fault Nat :=
  if levels < 64 then .ok (2 ^ levels - 1) else .error .wordOverflow

def root (levels : Nat) : Except Fault Word :=
  if 0 < levels ∧ levels ≤ 64 then .ok (UInt64.ofNat (2 ^ (levels - 1) - 1))
  else .error .wordOverflow

end ObliviousRam.Node
