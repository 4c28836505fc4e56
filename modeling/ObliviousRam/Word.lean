import ObliviousRam.Failure

namespace ObliviousRam

-- Powers of numbers are read the same way whether or not those of monoids are in scope.
attribute [instance (high), default_instance high + 1] instPowNat

abbrev Word := UInt64

namespace Word

def allOnes : Word := 0xFFFFFFFFFFFFFFFF

def double (x : Word) : Except Fault Word :=
  if x.toNat < 2 ^ 63 then .ok (2 * x) else .error .wordOverflow

def fits (n : Nat) : Except Fault Nat :=
  if n < 2 ^ 64 then .ok n else .error .wordOverflow

@[simp] theorem toNat_allOnes : allOnes.toNat = 2 ^ 64 - 1 := rfl

theorem toNat_double {x y : Word} (h : double x = .ok y) : y.toNat = 2 * x.toNat := by
  unfold double at h
  split at h
  · cases h
    rw [UInt64.toNat_mul]
    simp
    omega
  · cases h

end Word

/-- The least `k` with `n ≤ 2 ^ k`. -/
def ceilLog2 (n : Nat) : Nat :=
  if n ≤ 1 then 0 else (n - 1).log2 + 1

theorem ceilLog2_le_iff (n k : Nat) : ceilLog2 n ≤ k ↔ n ≤ 2 ^ k := by
  unfold ceilLog2
  split
  · have := Nat.one_le_two_pow (n := k)
    omega
  · rw [Nat.add_one_le_iff, Nat.log2_lt (by omega)]
    omega

def ceilDiv (n size : Nat) : Nat := (n + size - 1) / size

theorem lt_ceilDiv (n size i : Nat) (hsize : 0 < size) : i < ceilDiv n size ↔ size * i < n := by
  rw [ceilDiv, Nat.lt_iff_add_one_le, Nat.le_div_iff_mul_le hsize, Nat.add_mul, Nat.mul_comm]
  omega

end ObliviousRam
