import ObliviousRam.Block

namespace ObliviousRam

abbrev Bucket.capacity : Nat := 3

structure Bucket (w : Nat) where
  blocks : Vector (Block w) Bucket.capacity
  deriving DecidableEq

namespace Bucket

variable {w : Nat}

def empty : Bucket w := ⟨Vector.replicate capacity Block.empty⟩

def toList (b : Bucket w) : List (Block w) := b.blocks.toList

def ofList (bs : List (Block w)) : Bucket w :=
  ⟨#v[bs.getD 0 Block.empty, bs.getD 1 Block.empty, bs.getD 2 Block.empty]⟩

def isEmpty (b : Bucket w) : Bool := b.toList.all Block.isEmpty

def describe (b : Bucket w) : String :=
  if b.isEmpty then "Bucket::Empty"
  else "Bucket \x7b blocks: [" ++ ", ".intercalate (b.toList.map Block.describe) ++ "] \x7d"

@[simp] theorem length_toList (b : Bucket w) : b.toList.length = capacity := by
  simp [toList]

theorem toList_ofList {bs : List (Block w)} (h : bs.length = capacity) :
    (ofList bs).toList = bs := by
  match bs, h with
  | [_, _, _], _ => rfl

@[simp] theorem toList_empty : (empty : Bucket w).toList = List.replicate capacity Block.empty :=
  rfl

end Bucket

end ObliviousRam
