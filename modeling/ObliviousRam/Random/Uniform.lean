import ObliviousRam.Random.Source
import ObliviousRam.Random.Words

namespace ObliviousRam

namespace WordStream

/-- Words whose product with `n` has a low half of at most this are kept. For each value below `n`
the same number of words is kept. -/
def zone (n : Word) : Nat := n.toNat * 2 ^ (63 - n.toNat.log2) - 1

def drawWithin (n : Word) : Nat → WordStream → Word × WordStream
  | 0, s =>
    let (x, s) := s.next
    (UInt64.ofNat (x.toNat * n.toNat / 2 ^ 64), s)
  | attempts + 1, s =>
    let (x, s) := s.next
    let product := x.toNat * n.toNat
    if product % 2 ^ 64 ≤ zone n then (UInt64.ofNat (product / 2 ^ 64), s)
    else drawWithin n attempts s

/-- A number of attempts that suffices after a script that ends: the generator gives each word once
in `2 ^ 64` steps, and each `n` keeps some word. -/
def attempts (s : WordStream) : Nat := s.script.size + 2 ^ 64

def below (n : Word) (s : WordStream) : Word × WordStream := drawWithin n s.attempts s

theorem ofNat_mul_div_lt (x n : Word) (h : 0 < n) :
    UInt64.ofNat (x.toNat * n.toNat / 2 ^ 64) < n := by
  have hn : 0 < n.toNat := by simpa [UInt64.lt_iff_toNat_lt] using h
  have hx := x.toNat_lt
  have : x.toNat * n.toNat / 2 ^ 64 < n.toNat := by
    rw [Nat.div_lt_iff_lt_mul (by decide), Nat.mul_comm]
    exact Nat.mul_lt_mul_of_pos_left hx hn
  rw [UInt64.lt_iff_toNat_lt, UInt64.toNat_ofNat']
  exact Nat.lt_of_le_of_lt (Nat.mod_le _ _) this

theorem drawWithin_lt (n : Word) (h : 0 < n) (k : Nat) (s : WordStream) :
    (drawWithin n k s).1 < n := by
  induction k generalizing s with
  | zero => exact ofNat_mul_div_lt _ _ h
  | succ k ih =>
    unfold drawWithin
    dsimp only
    split
    · exact ofNat_mul_div_lt _ _ h
    · exact ih _

instance : LeafSource WordStream := ⟨below⟩

instance : LawfulLeafSource WordStream := ⟨fun n s h => drawWithin_lt n h _ s⟩

end WordStream

end ObliviousRam
