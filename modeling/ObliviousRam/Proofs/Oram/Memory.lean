import ObliviousRam.Oram

namespace ObliviousRam

variable {w : Nat} {σ α : Type}

inductive Command (w : Nat) (α : Type) where
  | allocate (n : Nat)
  | get (id : Word)
  | put (id : Word) (data : Vector Word w)
  | putPartial (id : Word) (start : Nat) (words : List Word) (buffer : Option (List Word))
  | access (id : Word) (use : Accessor w α)
  | clear

inductive Answer (w : Nat) (α : Type) where
  | allocated (first : Option Word)
  | block (answer : Except Refusal (Vector Word w))
  | stored (answer : Except Refusal Unit)
  | replaced (answer : Except Refusal (Option (List Word)))
  | used (answer : Except Refusal α)
  | cleared

namespace Oram

variable [LeafSource σ]

def step (o : Oram w) : Command w α → Engine σ (Answer w α × Oram w)
  | .allocate n => return (.allocated (o.allocate n).1, (o.allocate n).2)
  | .get id => do
    let (answer, o) ← o.get id
    return (.block answer, o)
  | .put id data => do
    let (answer, o) ← o.put id data
    return (.stored answer, o)
  | .putPartial id start words buffer => do
    let (answer, o) ← o.putPartial id start words buffer
    return (.replaced answer, o)
  | .access id use => do
    let (answer, o) ← o.access id use
    return (.used answer, o)
  | .clear => do
    let o ← o.clear
    return (.cleared, o)

def run (o : Oram w) : List (Command w α) → Engine σ (List (Answer w α) × Oram w)
  | [] => return ([], o)
  | command :: rest => do
    let (answer, o) ← o.step command
    let (answers, o) ← o.run rest
    return (answer :: answers, o)

end Oram

structure Memory (w capacity : Nat) where
  allocated : Nat
  allocated_le : allocated ≤ capacity
  blocks : Vector (Vector Word w) capacity

namespace Memory

variable {capacity : Nat}

def blank (w capacity : Nat) : Memory w capacity :=
  ⟨0, Nat.zero_le _, Vector.replicate capacity (Vector.replicate w Word.allOnes)⟩

def allocate (memory : Memory w capacity) (n : Nat) : Option Word × Memory w capacity :=
  if h : memory.allocated + n ≤ capacity then
    (some (UInt64.ofNat memory.allocated), ⟨memory.allocated + n, h, memory.blocks⟩)
  else (none, memory)

def access (memory : Memory w capacity) (id : Word) (use : Accessor w α) :
    Except Refusal α × Memory w capacity :=
  if h : id.toNat < memory.allocated then
    have hid : id.toNat < capacity := Nat.lt_of_lt_of_le h memory.allocated_le
    let (answer, data) := use memory.blocks[id.toNat]
    (answer, { memory with blocks := memory.blocks.set id.toNat data })
  else (.error .unallocatedBlock, memory)

def splice (start : Nat) (words : List Word) (data : Vector Word w) : Vector Word w :=
  Vector.ofFn fun i => if i < start then data.get i else words.getD (i - start) (data.get i)

def putPartial (memory : Memory w capacity) (id : Word) (start : Nat) (words : List Word)
    (buffer : Option (List Word)) : Except Refusal (Option (List Word)) × Memory w capacity :=
  if words = [] ∨ w < start + words.length then
    (.error (.partialWriteRange start words.length w), memory)
  else
    match buffer with
    | none => memory.access id fun data => (.ok none, splice start words data)
    | some old =>
      if old.length = words.length then
        memory.access id fun data =>
          (.ok (some ((data.toList.drop start).take words.length)), splice start words data)
      else (.error (.bufferLength words.length old.length), memory)

def step (memory : Memory w capacity) : Command w α → Answer w α × Memory w capacity
  | .allocate n => (.allocated (memory.allocate n).1, (memory.allocate n).2)
  | .get id =>
    let (answer, memory) := memory.access id fun data => (.ok data, data)
    (.block answer, memory)
  | .put id data =>
    let (answer, memory) := memory.access id fun _ => (.ok (), data)
    (.stored answer, memory)
  | .putPartial id start words buffer =>
    let (answer, memory) := memory.putPartial id start words buffer
    (.replaced answer, memory)
  | .access id use =>
    let (answer, memory) := memory.access id use
    (.used answer, memory)
  | .clear => (.cleared, blank w capacity)

def answers (memory : Memory w capacity) : List (Command w α) → List (Answer w α)
  | [] => []
  | command :: rest => (memory.step command).1 :: (memory.step command).2.answers rest

end Memory

end ObliviousRam
