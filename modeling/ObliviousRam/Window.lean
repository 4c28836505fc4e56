import ObliviousRam.Word

/- A window of a block is written in one pass that treats all words alike, so that the words it
touches do not give away where it starts. -/
namespace ObliviousRam.Window

variable {w : Nat}

def holds (start len i : Nat) : Bool := start ≤ i && i < start + len

/-- The word of the window that word `i` of the block is paired with: `i - start` modulo `len`. -/
def source (start len i : Nat) : Nat := (i + len - start % len) % len

def write (start : Nat) (words : List Word) (data : Vector Word w) : Vector Word w :=
  data.mapFinIdx fun i x _ =>
    if holds start words.length i then words.getD (source start words.length i) x else x

def capture (start len : Nat) (buffer : List Word) : Word × Nat → List Word
  | (x, i) => if holds start len i then buffer.set (source start len i) x else buffer

def read (start len : Nat) (data : Vector Word w) (buffer : List Word) : List Word :=
  data.toList.zipIdx.foldl (capture start len) buffer

end ObliviousRam.Window
