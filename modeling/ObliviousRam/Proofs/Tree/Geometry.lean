import Mathlib.Tactic.ByContra
import ObliviousRam.Tree.Path

namespace ObliviousRam

namespace Node

/-- The least leaf below the ancestor of `leaf` at level `l`. -/
def base (l leaf : Nat) : Nat := leaf / 2 ^ (l + 1) * 2 ^ (l + 1)

def ancestor (l leaf : Nat) : Nat := base l leaf + (2 ^ l - 1)

def Encloses (node position : Word) : Prop :=
  ∃ low high, lowerBound node = .ok low ∧ upperBound node = .ok high ∧
    low ≤ position ∧ position ≤ high

theorem isLeaf_iff {x : Word} : isLeaf x = true ↔ x.toNat % 2 = 0 := by
  rw [isLeaf, beq_iff_eq, ← UInt64.toNat_inj, UInt64.toNat_mod]
  rfl

theorem testBit_base (l leaf i : Nat) :
    (base l leaf).testBit i = (decide (l < i) && leaf.testBit i) := by
  rw [base, Nat.mul_comm, Nat.testBit_two_pow_mul, Nat.testBit_div_two_pow]
  by_cases h : l < i
  · simp [h, show i ≥ l + 1 by omega]
  · simp [h, show ¬i ≥ l + 1 by omega]

theorem testBit_base_add (l leaf r i : Nat) (hr : r < 2 ^ (l + 1)) :
    (base l leaf + r).testBit i = (r.testBit i || decide (l < i) && leaf.testBit i) := by
  rw [base, Nat.mul_comm, Nat.testBit_two_pow_mul_add _ hr, Nat.testBit_div_two_pow]
  by_cases h : l < i
  · have hle : 2 ^ (l + 1) ≤ 2 ^ i := Nat.pow_le_pow_right (by decide) h
    have hi : r.testBit i = false := Nat.testBit_lt_two_pow (by omega)
    simp [h, hi, show ¬i < l + 1 by omega, Nat.sub_add_cancel (show l + 1 ≤ i by omega)]
  · simp [h, show i < l + 1 by omega]

theorem two_pow_sub_one_lt (l : Nat) : 2 ^ l - 1 < 2 ^ (l + 1) := by
  have := Nat.two_pow_pos l
  rw [Nat.pow_succ]
  omega

theorem testBit_ancestor (l leaf i : Nat) :
    (ancestor l leaf).testBit i = (decide (i < l) || decide (l < i) && leaf.testBit i) := by
  rw [ancestor, testBit_base_add _ _ _ _ (two_pow_sub_one_lt l), Nat.testBit_two_pow_sub_one]

theorem ancestor_injective (l l' leaf : Nat) (h : ancestor l leaf = ancestor l' leaf) : l = l' := by
  have h₁ := testBit_ancestor l leaf l
  have h₂ := testBit_ancestor l' leaf l'
  rw [h, testBit_ancestor] at h₁
  rw [← h, testBit_ancestor] at h₂
  simp at h₁ h₂
  omega

theorem ancestor_lt (levels l leaf : Nat) (hl : l < levels) (hleaf : leaf < 2 ^ levels) :
    ancestor l leaf < 2 ^ levels - 1 := by
  have hpow : 2 ^ levels = 2 ^ (levels - (l + 1)) * 2 ^ (l + 1) := by
    rw [← Nat.pow_add, Nat.sub_add_cancel hl]
  have hdiv : leaf / 2 ^ (l + 1) < 2 ^ (levels - (l + 1)) := by
    rw [Nat.div_lt_iff_lt_mul (Nat.two_pow_pos _), ← hpow]
    exact hleaf
  have hmul := Nat.mul_le_mul_right (2 ^ (l + 1)) (Nat.succ_le_of_lt hdiv)
  rw [Nat.succ_mul, ← hpow] at hmul
  have := Nat.two_pow_pos l
  have := Nat.pow_succ 2 l
  rw [ancestor, base]
  omega

theorem ancestor_zero (leaf : Nat) (heven : leaf % 2 = 0) : ancestor 0 leaf = leaf := by
  simp [ancestor, base]
  omega

theorem toNat_one_shiftLeft (k : Nat) (hk : k < 64) :
    (1 <<< UInt64.ofNat k : UInt64).toNat = 2 ^ k := by
  have hlt : 2 ^ k < 2 ^ 64 := Nat.pow_lt_pow_right (by decide) hk
  rw [UInt64.toNat_shiftLeft, UInt64.toNat_ofNat', Nat.mod_eq_of_lt (show k < 2 ^ 64 by omega),
    Nat.mod_eq_of_lt hk, UInt64.toNat_one, Nat.one_shiftLeft, Nat.mod_eq_of_lt hlt]

theorem toNat_parent (l leaf : Nat) (x : Word) (hl : l + 1 < 64) (hx : x.toNat = ancestor l leaf) :
    (parent l x).toNat = ancestor (l + 1) leaf := by
  have hlt : 2 ^ (l + 1) < 2 ^ 64 := Nat.pow_lt_pow_right (by decide) hl
  rw [parent, UInt64.toNat_and, UInt64.toNat_or, UInt64.toNat_not, toNat_one_shiftLeft l (by omega),
    toNat_one_shiftLeft (l + 1) hl]
  apply Nat.eq_of_testBit_eq
  intro i
  have hxi : x.toNat.testBit i = (decide (i < l) || decide (l < i) && leaf.testBit i) := by
    rw [hx, testBit_ancestor]
  rw [Nat.testBit_and, Nat.testBit_or, hxi, testBit_ancestor, UInt64.size,
    Nat.sub_sub, Nat.add_comm 1, Nat.testBit_two_pow_sub_succ hlt, Nat.testBit_two_pow,
    Nat.testBit_two_pow]
  by_cases hi : i < 64
  · by_cases h₁ : i = l
    · simp [h₁, show l < 64 by omega]
    · by_cases h₂ : i = l + 1
      · simp [h₂]
      · have h₃ : (i < l + 1) = (i < l) := by simp; omega
        have h₄ : (l + 1 < i) = (l < i) := by simp; omega
        simp [hi, Ne.symm h₁, Ne.symm h₂, h₃, h₄]
  · -- Bits that a word does not have are zero in the leaf too.
    have hbig : x.toNat.testBit i = false := Nat.testBit_lt_two_pow
      (Nat.lt_of_lt_of_le x.toNat_lt (Nat.pow_le_pow_right (by decide) (Nat.not_lt.1 hi)))
    rw [hxi] at hbig
    simp [show l < i by omega, show ¬i < l by omega] at hbig
    simp [hi, hbig, show ¬i < l + 1 by omega]

theorem lowerBound_eq (l leaf : Nat) (x : Word) (hx : x.toNat = ancestor l leaf)
    (hlt : x.toNat < 2 ^ 63) :
    ∃ low, lowerBound x = .ok low ∧ low.toNat = base l leaf := by
  have hne : x ≠ Word.allOnes := by
    rintro rfl
    simp at hlt
  have hsucc : (x + 1).toNat = base l leaf + 2 ^ l := by
    have := Nat.two_pow_pos l
    rw [UInt64.toNat_add, UInt64.toNat_one, Nat.mod_eq_of_lt (by omega), hx, ancestor]
    omega
  have hl : 2 ^ l < 2 ^ (l + 1) := Nat.pow_lt_pow_right (by decide) (by omega)
  refine ⟨x &&& (x + 1), by rw [lowerBound, if_neg hne], ?_⟩
  rw [UInt64.toNat_and, hsucc, hx]
  apply Nat.eq_of_testBit_eq
  intro i
  rw [Nat.testBit_and, testBit_ancestor, testBit_base_add _ _ _ _ hl, testBit_base,
    Nat.testBit_two_pow]
  by_cases h₁ : i = l
  · simp [h₁]
  · by_cases h₂ : i < l
    · simp [h₂, show ¬l < i by omega, show ¬l = i by omega]
    · simp [h₂, Ne.symm h₁]

theorem upperBound_eq (l leaf : Nat) (x : Word) (hx : x.toNat = ancestor l leaf)
    (hlt : x.toNat < 2 ^ 63) :
    ∃ high, upperBound x = .ok high ∧ high.toNat = base l leaf + 2 * (2 ^ l - 1) := by
  obtain ⟨low, hlow, hbase⟩ := lowerBound_eq l leaf x hx hlt
  have htwice : (2 * x : Word).toNat = 2 * x.toNat := by
    rw [UInt64.toNat_mul]
    simp
    omega
  refine ⟨2 * x - low, ?_, ?_⟩
  · rw [upperBound, Word.double, if_pos hlt, hlow]
    rfl
  · rw [UInt64.toNat_sub_of_le, htwice, hbase, hx, ancestor]
    · omega
    · rw [UInt64.le_iff_toNat_le, htwice, hbase, hx, ancestor]
      omega

theorem exists_level (x : Nat) : ∃ l y, x = y * 2 ^ (l + 1) + (2 ^ l - 1) := by
  induction x using Nat.strongRecOn with
  | ind x ih =>
    by_cases heven : x % 2 = 0
    · exact ⟨0, x / 2, by omega⟩
    · obtain ⟨l, y, hy⟩ := ih (x / 2) (by omega)
      have := Nat.two_pow_pos l
      have := Nat.pow_succ 2 l
      refine ⟨l + 1, y, ?_⟩
      rw [Nat.pow_succ, ← Nat.mul_assoc]
      omega

theorem ancestor_block (l y : Nat) : ancestor l (y * 2 ^ (l + 1)) = y * 2 ^ (l + 1) + (2 ^ l - 1) := by
  rw [ancestor, base, Nat.mul_div_cancel _ (Nat.two_pow_pos _)]

theorem ancestor_eq_of_mem (l y leaf : Nat) (hlow : y * 2 ^ (l + 1) ≤ leaf)
    (hhigh : leaf ≤ y * 2 ^ (l + 1) + 2 * (2 ^ l - 1)) :
    ancestor l leaf = y * 2 ^ (l + 1) + (2 ^ l - 1) := by
  have hpos := Nat.two_pow_pos l
  have hdiv : leaf / 2 ^ (l + 1) = y := by
    rw [Nat.div_eq_iff (Nat.two_pow_pos _), Nat.pow_succ]
    rw [Nat.pow_succ] at hlow hhigh
    omega
  rw [ancestor, base, hdiv]

/-- A node whose bounds enclose a position lies on the path of that position. -/
theorem eq_ancestor_of_mem_bounds (levels : Nat) (x low high q : Word)
    (hx : x.toNat < 2 ^ levels - 1) (hlevels : levels < 64) (hlow : lowerBound x = .ok low)
    (hhigh : upperBound x = .ok high) (hlq : low ≤ q) (hqh : q ≤ high) :
    ∃ l < levels, x.toNat = ancestor l q.toNat := by
  obtain ⟨l, y, hxy⟩ := exists_level x.toNat
  have hle : 2 ^ levels ≤ 2 ^ 63 := Nat.pow_le_pow_right (by decide) (by omega)
  have hanc : x.toNat = ancestor l (y * 2 ^ (l + 1)) := by rw [ancestor_block, hxy]
  obtain ⟨low', hlow', hbase⟩ := lowerBound_eq l _ x hanc (by omega)
  obtain ⟨high', hhigh', htop⟩ := upperBound_eq l _ x hanc (by omega)
  rw [hlow, Except.ok.injEq] at hlow'
  rw [hhigh, Except.ok.injEq] at hhigh'
  subst hlow' hhigh'
  rw [UInt64.le_iff_toNat_le] at hlq hqh
  rw [base, Nat.mul_div_cancel _ (Nat.two_pow_pos _)] at hbase htop
  refine ⟨l, ?_, by rw [hxy, ancestor_eq_of_mem l y _ (by omega) (by omega)]⟩
  by_contra hl
  have := Nat.pow_le_pow_right (show 0 < 2 by decide) (Nat.not_lt.1 hl)
  omega

theorem trailingOnes_ancestor (bits l leaf : Nat) (hl : l ≤ bits) :
    trailingOnes bits (ancestor l leaf) = l := by
  induction l generalizing bits leaf with
  | zero =>
    cases bits with
    | zero => rfl
    | succ bits =>
      rw [trailingOnes, if_neg]
      simp [ancestor, base]
  | succ l ih =>
    obtain ⟨bits, rfl⟩ := Nat.exists_eq_add_of_le' hl
    have hpos := Nat.two_pow_pos l
    -- Without its last one, an ancestor of `leaf` is one of `leaf / 2`, a level further down.
    have hhalf : ancestor (l + 1) leaf = 2 * ancestor l (leaf / 2) + 1 := by
      have hbase : base (l + 1) leaf = 2 * base l (leaf / 2) := by
        rw [base, base, Nat.div_div_eq_div_mul, Nat.pow_succ 2 (l + 1), Nat.mul_comm _ 2,
          Nat.mul_left_comm]
      rw [ancestor, ancestor, hbase, Nat.pow_succ]
      omega
    rw [← Nat.add_assoc, trailingOnes, hhalf, if_pos (by omega),
      show (2 * ancestor l (leaf / 2) + 1) / 2 = ancestor l (leaf / 2) by omega,
      ih (bits + l) (leaf / 2) (by omega)]

theorem level_eq (l leaf : Nat) (x : Word) (hl : l ≤ 64) (hx : x.toNat = ancestor l leaf) :
    level x = l := by
  rw [level, hx, trailingOnes_ancestor 64 l leaf hl]

/-- `Below x y` says that `y` is `x` or a descendant of it. -/
inductive Below (x : Word) : Word → Prop
  | refl : Below x x
  | child {y : Word} (h : Below x (parent (level y) y)) : Below x y

theorem below_of_ancestor (rise l leaf : Nat) (x y : Word) (hl : l + rise < 64)
    (hx : x.toNat = ancestor (l + rise) leaf) (hy : y.toNat = ancestor l leaf) : Below x y := by
  induction rise generalizing l y with
  | zero =>
    obtain rfl : x = y := UInt64.toNat_inj.1 (hx.trans hy.symm)
    exact .refl
  | succ rise ih =>
    apply Below.child
    rw [level_eq l leaf y (by omega) hy]
    apply ih (l + 1) _ (by omega)
    · rw [hx, Nat.add_right_comm, Nat.add_assoc]
    · exact toNat_parent l leaf y (by omega) hy

end Node

end ObliviousRam
