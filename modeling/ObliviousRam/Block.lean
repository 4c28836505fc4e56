import ObliviousRam.Word

namespace ObliviousRam

structure Block (w : Nat) where
  id : Word
  position : Word
  data : Vector Word w
  deriving DecidableEq

namespace Block

variable {w : Nat}

/-- What an empty slot holds. A block that was never written reads as all ones. -/
def empty : Block w := ⟨Word.allOnes, Word.allOnes, Vector.replicate w Word.allOnes⟩

instance : Inhabited (Block w) := ⟨empty⟩

def isEmpty (b : Block w) : Bool := b.id == Word.allOnes

def select (a b : Block w) (choice : Bool) : Block w := bif choice then b else a

def swap (a b : Block w) (choice : Bool) : Block w × Block w :=
  (select a b choice, select b a choice)

def describe (b : Block w) : String :=
  if b.isEmpty then "Block::Empty"
  else
    "Block \x7b id: " ++ b.id.toNat.repr ++ ", position: " ++ b.position.toNat.repr ++
      ", data: [" ++ ", ".intercalate (b.data.toList.map fun x => x.toNat.repr) ++ "] \x7d"

@[simp] theorem isEmpty_empty : (empty : Block w).isEmpty = true := by
  simp [isEmpty, empty]

theorem isEmpty_iff {b : Block w} : b.isEmpty = true ↔ b.id = Word.allOnes := by
  simp [isEmpty]

end Block

end ObliviousRam
