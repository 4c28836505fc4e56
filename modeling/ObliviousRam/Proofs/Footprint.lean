import ObliviousRam.Footprint
import ObliviousRam.Proofs.PositionMap.Depth

namespace ObliviousRam

theorem ceilDiv_mono {n n' size : Nat} (hsize : 0 < size) (h : n ≤ n') :
    ceilDiv n size ≤ ceilDiv n' size := by
  rw [ceilDiv_le_iff hsize]
  exact Nat.le_trans h ((ceilDiv_le_iff hsize).1 (Nat.le_refl _))

theorem levelsFor_mono {blocks blocks' : Nat} (h : blocks ≤ blocks') :
    levelsFor blocks ≤ levelsFor blocks' := by
  have hceil : ceilLog2 blocks ≤ ceilLog2 blocks' := by
    rw [ceilLog2_le_iff]
    exact Nat.le_trans h ((ceilLog2_le_iff blocks' _).1 (Nat.le_refl _))
  rw [levelsFor, levelsFor]
  omega

theorem le_two_pow_levelsFor (blocks : Nat) : blocks ≤ 2 ^ levelsFor blocks :=
  (ceilLog2_le_iff _ _).1 (Nat.le_max_right _ _)

namespace Footprint

variable {w levels levels' size size' blocks blocks' : Nat} {config : Config}

theorem bucket_pos (w : Nat) : 0 < bucket w := Nat.succ_pos _

theorem tree_le_layer (w : Nat) (config : Config) (levels : Nat) :
    tree w levels ≤ layer w config levels := by
  rw [layer]
  omega

theorem tree_le_oram (w : Nat) (config : Config) (levels blocks : Nat) :
    tree w levels ≤ oram w config levels blocks :=
  Nat.le_trans (tree_le_layer w config levels) (Nat.le_add_right _ _)

theorem layer_mono (h : levels ≤ levels') : layer w config levels ≤ layer w config levels' := by
  have htree : tree w levels ≤ tree w levels' := by
    apply Nat.mul_le_mul_right
    apply Nat.sub_le_sub_right
    exact Nat.pow_le_pow_right (by decide) h
  have hlevels : levels * word ≤ levels' * word := Nat.mul_le_mul_right _ h
  have hslots : Bucket.capacity * levels + config.overflowSize ≤
      Bucket.capacity * levels' + config.overflowSize :=
    Nat.add_le_add_right (Nat.mul_le_mul_left _ h) _
  have hblocks := Nat.mul_le_mul_right (block w) hslots
  have hwords := Nat.mul_le_mul_right word hslots
  simp only [layer, stash]
  omega

theorem positionMap_of_le (h : size ≤ config.scanThreshold ∨ w < 2 ∨ size ≤ 1) :
    positionMap w config size = scanMap size := by
  rw [positionMap, if_pos h]

theorem scanMap_le_layer (hw : 0 < w) (config : Config) (size : Nat) :
    scanMap size ≤ layer w config (levelsFor (ceilDiv size w)) := by
  have hsize : size ≤ w * ceilDiv size w := (ceilDiv_le_iff hw).1 (Nat.le_refl _)
  have hblocks := le_two_pow_levelsFor (ceilDiv size w)
  have htwo : 2 ^ 1 ≤ 2 ^ levelsFor (ceilDiv size w) :=
    Nat.pow_le_pow_right (by decide) (levelsFor_pos _)
  have hhalf : ceilDiv size w ≤ 2 * (2 ^ levelsFor (ceilDiv size w) - 1) := by omega
  have hbucket : 2 * w * word ≤ bucket w := by
    rw [bucket, block, word, Bucket.capacity]
    omega
  calc scanMap size ≤ w * ceilDiv size w * word := Nat.mul_le_mul_right _ hsize
    _ ≤ w * (2 * (2 ^ levelsFor (ceilDiv size w) - 1)) * word :=
      Nat.mul_le_mul_right _ (Nat.mul_le_mul_left _ hhalf)
    _ = (2 ^ levelsFor (ceilDiv size w) - 1) * (2 * w * word) := by ac_rfl
    _ ≤ tree w (levelsFor (ceilDiv size w)) := Nat.mul_le_mul_left _ hbucket
    _ ≤ layer w config (levelsFor (ceilDiv size w)) := tree_le_layer _ _ _

theorem positionMap_mono (h : size ≤ size') :
    positionMap w config size ≤ positionMap w config size' := by
  induction size' using Nat.strongRecOn generalizing size with
  | ind size' ih =>
    by_cases hsmall' : size' ≤ config.scanThreshold ∨ w < 2 ∨ size' ≤ 1
    · rw [positionMap_of_le hsmall', positionMap_of_le (by omega)]
      exact Nat.mul_le_mul_right _ h
    · conv => rhs; rw [positionMap, if_neg hsmall']
      have hw : 0 < w := by omega
      have hblocks : ceilDiv size w ≤ ceilDiv size' w := ceilDiv_mono hw h
      have hlayer : layer w config (levelsFor (ceilDiv size w)) ≤
          layer w config (levelsFor (ceilDiv size' w)) := layer_mono (levelsFor_mono hblocks)
      by_cases hsmall : size ≤ config.scanThreshold ∨ w < 2 ∨ size ≤ 1
      · rw [positionMap_of_le hsmall]
        calc scanMap size ≤ layer w config (levelsFor (ceilDiv size w)) :=
            scanMap_le_layer hw config size
          _ ≤ layer w config (levelsFor (ceilDiv size' w)) := hlayer
          _ ≤ _ := Nat.le_add_right _ _
      · rw [positionMap, if_neg hsmall]
        exact Nat.add_le_add hlayer (ih _ (ceilDiv_lt (by omega) (by omega)) hblocks)

theorem oram_mono (hlevels : levels ≤ levels') (hblocks : blocks ≤ blocks') :
    oram w config levels blocks ≤ oram w config levels' blocks' :=
  Nat.add_le_add (layer_mono hlevels) (positionMap_mono hblocks)

theorem oram?_eq (w : Nat) (config : Config) (levels blocks : Nat) :
    oram? w config levels blocks =
      if levels < 64 ∧ oram w config levels blocks < 2 ^ 64 then
        .ok (oram w config levels blocks)
      else .error .wordOverflow := by
  rw [oram?, Word.fits, ite_and]

/-- A slot takes many bytes. So where the bytes of one stash fit in a word, the slots of any stash with
as much overflow do. -/
theorem room_of_oram (h : oram w config levels blocks < 2 ^ 64) :
    Bucket.capacity * 63 + config.overflowSize < 2 ^ 64 := by
  have hwords : config.overflowSize * word ≤
      (Bucket.capacity * levels + config.overflowSize) * word :=
    Nat.mul_le_mul_right _ (Nat.le_add_left _ _)
  simp only [oram, layer, stash, word, Bucket.capacity] at h hwords ⊢
  omega

end Footprint

end ObliviousRam
