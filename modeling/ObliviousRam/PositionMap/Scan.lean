import ObliviousRam.Engine

namespace ObliviousRam

namespace Scan

def select (i : Nat) (chosen : Word) : Word × Nat → Word
  | (x, j) => if j = i then x else chosen

/-- Word `i`, found in a pass over all words, which does not give away which one was meant. -/
def pick (i : Nat) (words : List Word) : Word := words.zipIdx.foldl (select i) 0

/-- Trades `held` for word `i` in the same way. The results are the words and what is held at the end. -/
def trade (i : Nat) : List (Word × Nat) → Word → List Word × Word
  | [], held => ([], held)
  | (x, j) :: rest, held =>
    let (x, held) := if j = i then (held, x) else (x, held)
    let (rest, held) := trade i rest held
    (x :: rest, held)

end Scan

structure ScanMap where
  entries : Array Word

namespace ScanMap

variable {σ : Type}

def create [LeafSource σ] (size : Nat) (positions : Word) : Creation σ ScanMap := do
  if positions = 0 then throw .invalidConfiguration
  let entries ← (Engine.drawMany positions size : Engine σ (List Word))
  return ⟨entries.toArray⟩

def size (m : ScanMap) : Nat := m.entries.size

def get (m : ScanMap) (id : Word) : Except Refusal Word :=
  if id.toNat < m.size then .ok (Scan.pick id.toNat m.entries.toList)
  else .error .addressOutOfBounds

def relocate (m : ScanMap) (id position : Word) : Except Refusal Word × ScanMap :=
  if id.toNat < m.size then
    let (entries, previous) := Scan.trade id.toNat m.entries.toList.zipIdx position
    (.ok previous, ⟨entries.toArray⟩)
  else (.error .addressOutOfBounds, m)

end ScanMap

end ObliviousRam
