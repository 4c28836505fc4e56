import ObliviousRam.Bucket
import ObliviousRam.Tree.Node

namespace ObliviousRam

inductive Touch where
  | read (node : Word)
  | write (node : Word)
  deriving DecidableEq

def Touch.isRead : Touch → Bool
  | read _ => true
  | write _ => false

/-- A tree of buckets, held where every read and write can be seen. -/
structure BucketTree (w : Nat) where
  levels : Nat
  levels_pos : 0 < levels
  levels_lt : levels < 64
  buckets : Vector (Bucket w) (2 ^ levels - 1)
  /-- All reads and writes so far, the latest first. -/
  history : List Touch

namespace BucketTree

variable {w : Nat}

def create (levels : Nat) : Except Refusal (BucketTree w) :=
  if h : 0 < levels ∧ levels < 64 then
    .ok ⟨levels, h.1, h.2, Vector.replicate (2 ^ levels - 1) Bucket.empty, []⟩
  else .error .invalidConfiguration

def read (t : BucketTree w) (node : Word) : Except Fault (Bucket w × BucketTree w) :=
  if h : node.toNat < 2 ^ t.levels - 1 then
    .ok (t.buckets[node.toNat], { t with history := .read node :: t.history })
  else .error (.bucketOutOfRange node t.levels)

def write (t : BucketTree w) (node : Word) (bucket : Bucket w) : Except Fault (BucketTree w) :=
  if h : node.toNat < 2 ^ t.levels - 1 then
    .ok { t with
      buckets := t.buckets.set node.toNat bucket
      history := .write node :: t.history }
  else .error (.bucketOutOfRange node t.levels)

def reads (t : BucketTree w) : Nat := t.history.countP Touch.isRead

def writes (t : BucketTree w) : Nat := t.history.countP fun touch => !touch.isRead

def clear (t : BucketTree w) : BucketTree w :=
  { t with buckets := Vector.replicate (2 ^ t.levels - 1) Bucket.empty }

def count (t : BucketTree w) : Nat := 2 ^ t.levels - 1

def leaves (t : BucketTree w) : Word := UInt64.ofNat (2 ^ (t.levels - 1))

def root (t : BucketTree w) : Word := UInt64.ofNat (2 ^ (t.levels - 1) - 1)

theorem toNat_leaves (t : BucketTree w) : t.leaves.toNat = 2 ^ (t.levels - 1) := by
  have hlt := t.levels_lt
  have : 2 ^ (t.levels - 1) < 2 ^ 64 := Nat.pow_lt_pow_right (by omega) (by omega)
  simpa [leaves] using Nat.mod_eq_of_lt this

end BucketTree

end ObliviousRam
