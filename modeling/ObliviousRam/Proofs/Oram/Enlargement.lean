import ObliviousRam.Proofs.Oram.Budget
import ObliviousRam.Proofs.Oram.LoadFactor

namespace ObliviousRam.Oram

variable {w : Nat} {config : Config} {available : Nat} {loadFactor : Float}

/-- The map of a memory with blocks of one word can only be scanned, and this one is too large. -/
def Unmappable (w : Nat) (config : Config) (blocks : Nat) : Prop :=
  w = 1 ∧ config.scanThreshold < blocks

def Largest (w : Nat) (config : Config) (loadFactor : Float) (available levels : Nat) : Prop :=
  IsGreatest {n | 0 < n ∧ sizeFor w config loadFactor n ≤ available} levels

theorem tree_le_sizeFor (w : Nat) (config : Config) (loadFactor : Float) (levels : Nat) :
    Footprint.tree w levels ≤ sizeFor w config loadFactor levels :=
  Footprint.tree_le_oram w config levels _

theorem lt_of_sizeFor {levels : Nat} (h : sizeFor w config loadFactor levels < 2 ^ 64) :
    levels < 64 := by
  by_contra hle
  have hpow : 2 ^ 64 ≤ 2 ^ levels := Nat.pow_le_pow_right (by decide) (by omega)
  have hbucket : 2 ≤ Footprint.bucket w := Nat.le_trans (by decide) (Nat.le_add_left 16 _)
  have htree : (2 ^ 64 - 1) * 2 ≤ Footprint.tree w levels := Nat.mul_le_mul (by omega) hbucket
  have := tree_le_sizeFor w config loadFactor levels
  omega

theorem le_tallest_of_sizeFor {levels : Nat} (h : sizeFor w config loadFactor levels ≤ available) :
    levels ≤ tallest w available :=
  le_tallest_iff.2 (Nat.le_trans (tree_le_sizeFor w config loadFactor levels) h)

theorem largest_of_search {levels : Nat}
    (h : Search (sizeFor w config loadFactor) available (tallest w available) (.ok (some levels))) :
    Largest w config loadFactor available levels := by
  cases h with
  | found pos le lt fits within largest =>
    refine ⟨⟨pos, within⟩, fun taller htaller => ?_⟩
    by_contra hlt
    have hlarge := largest taller (Nat.not_le.1 hlt) (le_tallest_of_sizeFor htaller.2)
    exact absurd htaller.2 (Nat.not_le.2 hlarge)

section

variable (haccepted : 1.0 ≤ loadFactor ∧ loadFactor ≤ 3.0 ∧ w ≠ 0)
include haccepted

theorem sizeFor_mono {levels levels' : Nat} (hle : levels ≤ levels') (hlevels' : levels' ≤ 63) :
    sizeFor w config loadFactor levels ≤ sizeFor w config loadFactor levels' :=
  Footprint.oram_mono hle (blocksFor_mono haccepted.1 haccepted.2.1 hle hlevels')

theorem fits_of_tallest {top levels : Nat} (htop : sizeFor w config loadFactor top < 2 ^ 64)
    (hle : levels ≤ top) : sizeFor w config loadFactor levels < 2 ^ 64 := by
  have hlt := lt_of_sizeFor htop
  exact Nat.lt_of_le_of_lt (sizeFor_mono haccepted hle (by omega)) htop

end

theorem fitting_overflow {top : Nat} (hpos : 0 < top)
    (hlarge : 2 ^ 64 ≤ sizeFor w config loadFactor top) :
    fitting w config available loadFactor top = .error .wordOverflow := by
  cases top with
  | zero => cases hpos
  | succ top =>
    rw [fitting, Footprint.oram?_eq, ← sizeFor, if_neg fun h => absurd h.2 (Nat.not_lt.2 hlarge)]
    rfl

variable {σ : Type} [LeafSource σ]

theorem build_refuses {levels blocks : Nat} (hlevels : 0 < levels) (hlt : levels < 64)
    (hmap : Unmappable w config blocks) (env : Env σ) :
    ∃ env', Creation.run (build (w := w) config levels blocks) env =
      (.ok (.error .invalidConfiguration), env') := by
  rw [build]
  by_cases hzero : blocks = 0 ∨ config.scanThreshold = 0
  · rw [if_pos hzero]
    exact ⟨env, rfl⟩
  · obtain ⟨tree, htree⟩ : ∃ tree : BucketTree w, _ := BucketTree.exists_create hlevels hlt
    obtain ⟨env', hrefused⟩ : ∃ env',
        Creation.run (PositionMap.create (w := w) config blocks tree.leaves) env = _ :=
      PositionMap.create_refuses (.inr (.inr ⟨hmap.2, .inl hmap.1⟩)) env
    rw [if_neg hzero]
    dsimp only
    rw [Creation.run_bind_ok (Creation.run_except_ok htree _), Creation.run_bind_error hrefused]
    exact ⟨env', rfl⟩

variable [LawfulLeafSource σ]

theorem exists_built {levels blocks : Nat} (hlevels : 0 < levels) (hlt : levels < 64)
    (hblocks : 0 < blocks) (hsize : blocks < 2 ^ 64) (hw : w ≠ 0)
    (hthreshold : 0 < config.scanThreshold) (hmap : ¬Unmappable w config blocks)
    (hroom : Bucket.capacity * 63 + config.overflowSize < 2 ^ 64) (env : Env σ) :
    ∃ o env', Creation.run (build (w := w) config levels blocks) env = (.ok (.ok o), env') := by
  have hfit : blocks ≤ config.scanThreshold ∨ 2 ≤ w ∧ 0 < config.scanThreshold := by
    rw [Unmappable] at hmap
    omega
  obtain ⟨tree, htree⟩ : ∃ tree : BucketTree w, _ := BucketTree.exists_create hlevels hlt
  obtain ⟨positions, env₁, hpositions⟩ := PositionMap.exists_created
    (UInt64.ne_of_lt tree.leaves_pos).symm hw hfit hsize hroom env
  obtain ⟨layer, env₂, hlayer⟩ := Layer.exists_assemble config tree blocks positions.depth hroom env₁
  rw [build, if_neg (by omega)]
  dsimp only
  rw [Creation.run_bind_ok (Creation.run_except_ok htree _), Creation.run_bind_ok hpositions,
    Creation.run_bind_ok (Creation.run_lift_ok hlayer)]
  exact ⟨_, _, rfl⟩

section

variable (haccepted : 1.0 ≤ loadFactor ∧ loadFactor ≤ 3.0 ∧ w ≠ 0)
include haccepted

theorem built_of_search (hthreshold : 0 < config.scanThreshold) {levels : Nat}
    (hfitting : fitting w config available loadFactor (tallest w available) = .ok (some levels))
    (env : Env σ) :
    Largest w config loadFactor available levels ∧ levels < 64 ∧
      (Unmappable w config (blocksFor loadFactor levels) → ∃ env',
        Creation.run (createWithin (w := w) config available loadFactor) env =
          (.ok (.error .invalidConfiguration), env')) ∧
      (¬Unmappable w config (blocksFor loadFactor levels) → ∃ (o : Oram w) (env' : Env σ),
        Creation.run (createWithin config available loadFactor) env = (.ok (.ok o), env') ∧
          o.layer.tree.levels = levels ∧ o.layer.capacity = blocksFor loadFactor levels) := by
  have hsearch := search_fitting w config available loadFactor (tallest w available)
  rw [hfitting] at hsearch
  refine ⟨largest_of_search hsearch, ?_⟩
  cases hsearch with
  | found pos le lt fits within largest =>
    rw [run_createWithin config available haccepted, hfitting]
    refine ⟨lt, fun hmap => build_refuses pos lt hmap env, fun hmap => ?_⟩
    have hleaves := (blocksFor_bounds haccepted.1 haccepted.2.1 (Nat.le_of_lt_succ lt)).1
    have hblocks := Nat.lt_of_lt_of_le (Nat.two_pow_pos _) hleaves
    obtain ⟨o, env', hrun⟩ := exists_built pos lt hblocks (blocksFor_lt loadFactor levels)
      haccepted.2.2 hthreshold hmap (Footprint.room_of_oram fits) env
    exact ⟨o, env', hrun, shape_of_build hrun⟩

/-- With a load factor that is accepted, bytes are turned down only if they are too few for a tree of
one level, or if the map cannot be made. -/
theorem too_few_of_refused (hthreshold : 0 < config.scanThreshold) {env env' : Env σ}
    (h : Creation.run (createWithin (w := w) config available loadFactor) env =
      (.ok (.error .invalidConfiguration), env')) :
    available < sizeFor w config loadFactor 1 ∨
      ∃ levels, Largest w config loadFactor available levels ∧
        Unmappable w config (blocksFor loadFactor levels) := by
  have hsearch := search_fitting w config available loadFactor (tallest w available)
  cases hfitting : fitting w config available loadFactor (tallest w available) with
  | error fault =>
    rw [run_createWithin config available haccepted, hfitting] at h
    cases h
  | ok levels? =>
    rw [hfitting] at hsearch
    cases hsearch with
    | exhausted large =>
      left
      by_contra hfits
      have hone := le_tallest_of_sizeFor (Nat.not_lt.1 hfits)
      exact hfits (large 1 Nat.one_pos hone)
    | @found levels =>
      right
      obtain ⟨hlargest, -, -, hbuilt⟩ := built_of_search haccepted hthreshold hfitting env
      refine ⟨levels, hlargest, ?_⟩
      by_contra hmap
      obtain ⟨o, env₁, hrun, -⟩ := hbuilt hmap
      cases h.symm.trans hrun

theorem exists_largest {available' levels : Nat} (hle : available ≤ available')
    (hlevels : Largest w config loadFactor available levels)
    (hfits : sizeFor w config loadFactor (tallest w available') < 2 ^ 64) :
    ∃ levels', fitting w config available' loadFactor (tallest w available') = .ok (some levels') ∧
      levels ≤ levels' := by
  have hwithin : sizeFor w config loadFactor levels ≤ available' := Nat.le_trans hlevels.1.2 hle
  have hsearch := search_fitting w config available' loadFactor (tallest w available')
  cases hfitting : fitting w config available' loadFactor (tallest w available') with
  | error fault =>
    rw [hfitting] at hsearch
    cases hsearch with
    | overflow pos le large =>
      have hfits' := fits_of_tallest haccepted hfits le
      have := lt_of_sizeFor hfits'
      omega
  | ok levels? =>
    rw [hfitting] at hsearch
    cases levels? with
    | none =>
      cases hsearch with
      | exhausted large =>
        have hlarge := large levels hlevels.1.1 (le_tallest_of_sizeFor hwithin)
        exact absurd hwithin (Nat.not_le.2 hlarge)
    | some levels' =>
      exact ⟨levels', rfl, (largest_of_search hsearch).2 ⟨hlevels.1.1, hwithin⟩⟩

end

/-- More bytes make a memory of no fewer levels and no fewer blocks, but for two cases. The sizes that
are computed on the way may not fit in a word, and that of the tallest tree decides it. And blocks of
one word may come to be too many for a map that is scanned, where fewer bytes made fewer blocks. -/
theorem createWithin_enlarges (config : Config)
    (haccepted : 1.0 ≤ loadFactor ∧ loadFactor ≤ 3.0 ∧ w ≠ 0)
    (hthreshold : 0 < config.scanThreshold) :
    (∀ (available : Nat) (env env' : Env σ),
      Creation.run (createWithin (w := w) config available loadFactor) env =
          (.ok (.error .invalidConfiguration), env') →
        available < sizeFor w config loadFactor 1 ∨
          ∃ levels, Largest w config loadFactor available levels ∧
            Unmappable w config (blocksFor loadFactor levels)) ∧
    ∀ (available available' : Nat) (o : Oram w) (env env₁ env' : Env σ), available ≤ available' →
      Creation.run (createWithin config available loadFactor) env = (.ok (.ok o), env₁) →
      let create' := Creation.run (createWithin (w := w) config available' loadFactor) env'
      (2 ^ 64 ≤ sizeFor w config loadFactor (tallest w available') →
        create' = (.error .wordOverflow, env')) ∧
      (sizeFor w config loadFactor (tallest w available') < 2 ^ 64 →
        ∃ levels, Largest w config loadFactor available' levels ∧
          (Unmappable w config (blocksFor loadFactor levels) →
            ∃ env₂, create' = (.ok (.error .invalidConfiguration), env₂)) ∧
          (¬Unmappable w config (blocksFor loadFactor levels) →
            ∃ o' env₂, create' = (.ok (.ok o'), env₂) ∧ o'.layer.tree.levels = levels ∧
              o.layer.tree.levels ≤ o'.layer.tree.levels ∧ o.layer.capacity ≤ o'.layer.capacity)) := by
  refine ⟨fun available env env' h => too_few_of_refused haccepted hthreshold h, ?_⟩
  intro available available' o env env₁ env' hle h create'
  obtain ⟨-, levels, hfitting, hbuild⟩ := createWithin_cases h
  obtain ⟨hlevels, hcapacity⟩ := shape_of_build hbuild
  obtain ⟨hlargest, -, -, -⟩ := built_of_search haccepted hthreshold hfitting env
  constructor
  · intro hlarge
    have hwithin : sizeFor w config loadFactor levels ≤ available' :=
      Nat.le_trans hlargest.1.2 hle
    have hpos := Nat.lt_of_lt_of_le hlargest.1.1 (le_tallest_of_sizeFor hwithin)
    change Creation.run (createWithin (w := w) config available' loadFactor) env' = _
    rw [run_createWithin config available' haccepted, fitting_overflow hpos hlarge]
  · intro hfits
    obtain ⟨levels', hfitting', hgrown⟩ := exists_largest haccepted hle hlargest hfits
    obtain ⟨hlargest', hlt, hrefused, hbuilt⟩ :=
      built_of_search haccepted hthreshold hfitting' env'
    refine ⟨levels', hlargest', hrefused, fun hmap => ?_⟩
    obtain ⟨o', env₂, hrun, hlevels', hcapacity'⟩ := hbuilt hmap
    have hblocks := blocksFor_mono haccepted.1 haccepted.2.1 hgrown (Nat.le_of_lt_succ hlt)
    exact ⟨o', env₂, hrun, hlevels', hlevels ▸ hlevels' ▸ hgrown, hcapacity ▸ hcapacity' ▸ hblocks⟩

theorem createWithin_enlarges_two : ∃ (o o' : Oram 2) (env env₁ env₂ : Env WordStream),
    Creation.run (createWithin ⟨0, 4, .bitonic⟩ 2399 1.5) env = (.ok (.ok o), env₁) ∧
      Creation.run (createWithin ⟨0, 4, .bitonic⟩ 2400 1.5) env = (.ok (.ok o'), env₂) ∧
      sizeFor 2 ⟨0, 4, .bitonic⟩ 1.5 3 = 2400 ∧ 3 ≤ o'.layer.tree.levels ∧
      o.layer.tree.levels ≤ o'.layer.tree.levels ∧ o.layer.capacity ≤ o'.layer.capacity := by
  have hsucceeds : Creation.succeeds (createWithin (w := 2) ⟨0, 4, .bitonic⟩ 2399 1.5)
      ⟨WordStream.ofSeed 0, #[]⟩ = true := by decide +kernel
  have haccepted : (1.0 : Float) ≤ 1.5 ∧ (1.5 : Float) ≤ 3.0 ∧ 2 ≠ 0 := by decide +kernel
  have hfits : sizeFor 2 ⟨0, 4, .bitonic⟩ 1.5 (tallest 2 2400) < 2 ^ 64 := by decide +kernel
  have hthree : sizeFor 2 ⟨0, 4, .bitonic⟩ 1.5 3 = 2400 := by decide +kernel
  obtain ⟨o, env₁, h⟩ := Creation.exists_of_succeeds hsucceeds
  obtain ⟨-, henlarges⟩ := createWithin_enlarges (σ := WordStream) ⟨0, 4, .bitonic⟩ haccepted
    (by decide)
  obtain ⟨-, hbuilt⟩ := henlarges 2399 2400 o _ env₁ ⟨WordStream.ofSeed 0, #[]⟩ (by decide) h
  obtain ⟨levels, hlargest, -, hgrown⟩ := hbuilt hfits
  obtain ⟨o', env₂, h', rfl, hlevels, hcapacity⟩ := hgrown fun hmap => absurd hmap.1 (by decide)
  exact ⟨o, o', _, env₁, env₂, h, h', hthree, hlargest.2 ⟨by decide, hthree.le⟩, hlevels, hcapacity⟩

/-- Blocks of one word, of which one at most has its place in a map. 496 bytes make a memory of one
block. With 792 bytes there would be two, and no memory is made at all. -/
theorem createWithin_shrinks : (1.0 : Float) ≤ 1.0 ∧ (1.0 : Float) ≤ 3.0 ∧
    sizeFor 1 ⟨0, 1, .bitonic⟩ 1.0 1 = 496 ∧
    ∃ (o : Oram 1) (env env₁ env₂ : Env WordStream),
      Creation.run (createWithin ⟨0, 1, .bitonic⟩ 496 1.0) env = (.ok (.ok o), env₁) ∧
        Creation.run (createWithin (w := 1) ⟨0, 1, .bitonic⟩ 792 1.0) env =
          (.ok (.error .invalidConfiguration), env₂) := by
  have hsucceeds : Creation.succeeds (createWithin (w := 1) ⟨0, 1, .bitonic⟩ 496 1.0)
      ⟨WordStream.ofSeed 0, #[]⟩ = true := by decide +kernel
  have hrefuses : Creation.refuses (createWithin (w := 1) ⟨0, 1, .bitonic⟩ 792 1.0)
      .invalidConfiguration ⟨WordStream.ofSeed 0, #[]⟩ = true := by decide +kernel
  obtain ⟨o, env₁, h⟩ := Creation.exists_of_succeeds hsucceeds
  obtain ⟨env₂, h'⟩ := Creation.exists_of_refuses hrefuses
  exact ⟨by decide +kernel, by decide +kernel, by decide +kernel, o, _, env₁, env₂, h, h'⟩

end ObliviousRam.Oram
