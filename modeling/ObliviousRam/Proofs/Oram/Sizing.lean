import ObliviousRam.Proofs.Oram.Budget

namespace ObliviousRam

theorem isLeast_ceilDiv (n : Nat) {size : Nat} (hsize : 0 < size) :
    IsLeast {k | n ≤ k * size} (ceilDiv n size) := by
  have hiff : ∀ k, ceilDiv n size ≤ k ↔ n ≤ k * size := fun k => by
    rw [ceilDiv_le_iff hsize, Nat.mul_comm]
  exact ⟨(hiff _).1 (Nat.le_refl _), fun k hk => (hiff k).2 hk⟩

theorem isLeast_levelsFor (blocks : Nat) :
    IsLeast {l | 1 ≤ l ∧ blocks ≤ 2 ^ l} (levelsFor blocks) :=
  ⟨⟨levelsFor_pos blocks, le_two_pow_levelsFor blocks⟩,
    fun _ hl => Nat.max_le.2 ⟨hl.1, (ceilLog2_le_iff _ _).2 hl.2⟩⟩

theorem le_levelsFor_of_lt {blocks levels : Nat} (h : 2 ^ levels < blocks) :
    levels < levelsFor blocks := by
  by_contra hle
  have hpow : 2 ^ levelsFor blocks ≤ 2 ^ levels :=
    Nat.pow_le_pow_right (by decide) (Nat.not_lt.1 hle)
  have := le_two_pow_levelsFor blocks
  omega

namespace Word

def pred? (x : Word) : Option Word := if x = 0 then none else some (x - 1)

def log2? (x : Word) : Option Nat := if x = 0 then none else some x.toNat.log2

def succ32? (n : Nat) : Option Nat := if n + 1 < 2 ^ 32 then some (n + 1) else none

end Word

/-- The least `k` with `n ≤ 2 ^ k`, if no step on the way leaves its range. -/
def ceilLog2? (n : Word) : Option Nat :=
  if n.toNat ≤ 1 then some 0
  else do
    let last ← Word.pred? n
    let bits ← Word.log2? last
    Word.succ32? bits

def levelsFor? (blocks : Word) : Option Nat := (ceilLog2? blocks).map (max 1)

theorem ceilLog2?_eq (n : Word) : ceilLog2? n = some (ceilLog2 n.toNat) := by
  rw [ceilLog2?, ceilLog2]
  by_cases hsmall : n.toNat ≤ 1
  · rw [if_pos hsmall, if_pos hsmall]
  · have hone : (1 : Word) ≤ n := UInt64.le_iff_toNat_le.2 (by rw [UInt64.toNat_one]; omega)
    have hlast : (n - 1).toNat = n.toNat - 1 := UInt64.toNat_sub_of_le _ _ hone
    have hn : n ≠ 0 := by
      rintro rfl
      exact hsmall (by decide)
    have hpred : n - 1 ≠ 0 := by
      intro hzero
      rw [hzero, UInt64.toNat_zero] at hlast
      omega
    have hbits : (n.toNat - 1).log2 < 64 := by
      have := n.toNat_lt
      rw [Nat.log2_lt (by omega)]
      omega
    rw [if_neg hsmall, if_neg hsmall, Word.pred?, if_neg hn]
    simp only [Option.bind_eq_bind, Option.bind_some, Word.log2?, if_neg hpred, hlast]
    rw [Word.succ32?, if_pos (by omega)]

theorem levelsFor?_eq (blocks : Word) : levelsFor? blocks = some (levelsFor blocks.toNat) := by
  rw [levelsFor?, ceilLog2?_eq]
  rfl

variable {w : Nat} {σ : Type}

theorem BucketTree.length_slots (t : BucketTree w) :
    t.slots.length = Bucket.capacity * (2 ^ t.levels - 1) := by
  rw [slots, Stash.length_flatMap_toList, Vector.length_toList]

namespace Oram

variable [LeafSource σ] {config : Config} {words levels blocks : Nat} {o : Oram w} {env env' : Env σ}

/-- A tree that would be too high for its nodes to be numbered is not built. -/
theorem build_of_le (hlevels : 64 ≤ levels) (env : Env σ) :
    Creation.run (build (w := w) config levels blocks) env =
      (.ok (.error .invalidConfiguration), env) := by
  have htree : BucketTree.create (w := w) levels = .error .invalidConfiguration :=
    dif_neg fun h => absurd h.2 (Nat.not_lt.2 hlevels)
  rw [build]
  split
  · rfl
  · rw [htree]
    rfl

theorem create_of_lt (h : 2 ^ 63 < ceilDiv words w) (env : Env σ) :
    Creation.run (create (w := w) config words) env =
      (.ok (.error .invalidConfiguration), env) := by
  rw [create]
  split
  · rfl
  · exact build_of_le (le_levelsFor_of_lt h) env

/-- A memory for a number of words has the fewest blocks that hold them, and the fewest levels with two
blocks or less to a leaf. Nothing is lost to rounding or to the size of a word: there is a slot for each
block, no id is that of an empty slot, and each leaf has a node. The levels are reckoned without overflow
for any number of blocks, and a number that would take 64 of them is turned down. -/
theorem sized_of_create (config : Config) :
    (∀ (words : Nat) (o : Oram w) (env env' : Env σ),
      Creation.run (create config words) env = (.ok (.ok o), env') →
        IsLeast {n | words ≤ n * w} o.layer.capacity ∧
        IsLeast {l | 1 ≤ l ∧ o.layer.capacity ≤ 2 ^ l} o.layer.tree.levels ∧
        o.layer.capacity ≤ 2 * o.layer.tree.leaves.toNat ∧
        o.layer.tree.slots.length = 3 * (2 ^ o.layer.tree.levels - 1) ∧
        o.layer.capacity ≤ o.layer.tree.slots.length ∧
        (∀ id : Word, id.toNat < o.layer.capacity → id ≠ Word.allOnes) ∧
        ∀ leaf : Word, leaf < o.layer.tree.leaves →
          ∃ node, Word.double leaf = .ok node ∧ node.toNat < 2 ^ 63) ∧
    ∀ n : Word, levelsFor? n = some (levelsFor n.toNat) ∧
      IsLeast {l | 1 ≤ l ∧ n.toNat ≤ 2 ^ l} (levelsFor n.toNat) ∧
      ∀ (words : Nat) (env : Env σ), ceilDiv words w = n.toNat → 2 ^ 63 < n.toNat →
        Creation.run (create (w := w) config words) env =
          (.ok (.error .invalidConfiguration), env) := by
  refine ⟨fun words o env env' h => ?_, fun n => ⟨levelsFor?_eq n, isLeast_levelsFor n.toNat,
    fun words env hn hlarge => create_of_lt (by omega) env⟩⟩
  obtain ⟨hw, hbuild⟩ := create_cases h
  obtain ⟨hlevels, hcapacity⟩ := shape_of_build hbuild
  have hle := le_two_pow_levelsFor (ceilDiv words w)
  rw [← hlevels, ← hcapacity] at hle
  have hpow := o.layer.tree.two_pow_levels
  have hroom := o.layer.tree.two_pow_levels_le
  have hone := Nat.two_pow_pos (o.layer.tree.levels - 1)
  have hleaves := o.layer.tree.toNat_leaves
  have hslots : o.layer.tree.slots.length = 3 * (2 ^ o.layer.tree.levels - 1) :=
    o.layer.tree.length_slots
  refine ⟨hcapacity ▸ isLeast_ceilDiv words hw, ?_, by omega, hslots, by omega, fun id hid => ?_,
    fun leaf hleaf => ?_⟩
  · rw [hlevels, hcapacity]
    exact isLeast_levelsFor _
  · rintro rfl
    rw [Word.toNat_allOnes] at hid
    omega
  · rw [UInt64.lt_iff_toNat_lt] at hleaf
    have hdouble : Word.double leaf = .ok (2 * leaf) := by
      rw [Word.double, if_pos (by omega)]
    exact ⟨2 * leaf, hdouble, by rw [Word.toNat_double hdouble]; omega⟩

/-- Nine words take five blocks of two, one more than two levels are for. Blocks of one word are turned
down as soon as they are more than half of all words there are. -/
theorem sized_of_create_nine : ∃ (o : Oram 2) (env env' : Env WordStream),
    Creation.run (create ⟨0, 4, .bitonic⟩ 9) env = (.ok (.ok o), env') ∧
      IsLeast {n | 9 ≤ n * 2} o.layer.capacity ∧ o.layer.capacity = 5 ∧
      IsLeast {l | 1 ≤ l ∧ o.layer.capacity ≤ 2 ^ l} o.layer.tree.levels ∧
      o.layer.tree.levels = 3 ∧ levelsFor? 0x8000000000000001 = some 64 ∧
      Creation.run (create (w := 1) ⟨0, 4, .bitonic⟩ (2 ^ 63 + 1)) env =
        (.ok (.error .invalidConfiguration), env) := by
  have hsucceeds : Creation.succeeds (create (w := 2) ⟨0, 4, .bitonic⟩ 9)
      ⟨WordStream.ofSeed 0, #[]⟩ = true := by decide +kernel
  obtain ⟨o, env', h⟩ := Creation.exists_of_succeeds hsucceeds
  obtain ⟨hcreated, -⟩ := sized_of_create (w := 2) (σ := WordStream) ⟨0, 4, .bitonic⟩
  obtain ⟨hcapacity, hlevels, -⟩ := hcreated 9 o _ env' h
  have hfive : o.layer.capacity = 5 := hcapacity.unique ⟨by decide, fun n hn => by
    change 9 ≤ n * 2 at hn
    omega⟩
  have hthree : o.layer.tree.levels = 3 := by
    rw [hfive] at hlevels
    exact hlevels.unique ⟨by decide, fun l hl => (ceilLog2_le_iff 5 l).2 hl.2⟩
  obtain ⟨-, hwords⟩ := sized_of_create (w := 1) (σ := WordStream) ⟨0, 4, .bitonic⟩
  obtain ⟨hchecked, -, hrefused⟩ := hwords 0x8000000000000001
  have hmost : levelsFor (0x8000000000000001 : Word).toNat = 64 := by decide +kernel
  rw [hmost] at hchecked
  exact ⟨o, _, env', h, hcapacity, hfive, hlevels, hthree, hchecked,
    hrefused (2 ^ 63 + 1) _ (by decide) (by decide)⟩

end Oram

end ObliviousRam
