import ObliviousRam.Proofs.Footprint

namespace ObliviousRam

open LeafSource

variable {w : Nat} {σ : Type}

theorem BucketTree.levels_eq_of_leaves {t t' : BucketTree w} (h : t.leaves = t'.leaves) :
    t.levels = t'.levels := by
  have hpow := congrArg UInt64.toNat h
  rw [toNat_leaves, toNat_leaves] at hpow
  have hheight := Nat.pow_right_injective (Nat.le_refl 2) hpow
  have hpos := t.levels_pos
  have hpos' := t'.levels_pos
  omega

def Layer.bytes (overflowSize : Nat) (layer : Layer w) : Nat :=
  Footprint.header + layer.tree.count * Footprint.bucket w +
    layer.path.length * Footprint.word + Footprint.stash w layer.stash.levels overflowSize

theorem Layer.Sound.bytes_eq {layer : Layer w} {entry : Nat → Word} (h : layer.Sound entry)
    (config : Config) :
    layer.bytes config.overflowSize = Footprint.layer w config layer.tree.levels := by
  rw [Layer.bytes, h.stash_levels, h.path_length]
  exact Nat.add_right_comm _ _ _

namespace PositionMap

def scanned : PositionMap w → ScanMap
  | scan map => map
  | packed _ below _ _ => below.scanned

/-- The bytes of all the layers that a map is packed into, and of the entries at the bottom. -/
def bytes (overflowSize : Nat) (m : PositionMap w) : Nat :=
  (m.layers.map (Layer.bytes overflowSize)).sum + m.scanned.size * Footprint.word

theorem bytes_packed (overflowSize : Nat) (layer : Layer w) (below : PositionMap w) (first : Word)
    (size : Nat) : (packed layer below first size).bytes overflowSize =
      layer.bytes overflowSize + below.bytes overflowSize := by
  simp only [bytes, layers, scanned, List.map_cons, List.sum_cons, Nat.add_assoc]

/-- However sound maps of one size came about, they take the same bytes if their trees are as high. -/
theorem Sound.bytes_congr {m m' : PositionMap w} (hm : m.Sound) (hm' : m'.Sound)
    (hsize : m.size = m'.size) (hleaves : m.leafCounts = m'.leafCounts) (config : Config) :
    m.bytes config.overflowSize = m'.bytes config.overflowSize := by
  induction m generalizing m' with
  | scan map =>
    cases m' with
    | scan map' => exact congrArg (0 + · * Footprint.word) hsize
    | packed => cases hleaves
  | packed layer below first size ih =>
    cases m' with
    | scan => cases hleaves
    | packed layer' below' first' size' =>
      obtain ⟨-, -, hcapacity, -, hbelow, hlayer, hm⟩ := hm
      obtain ⟨-, -, hcapacity', -, hbelow', hlayer', hm'⟩ := hm'
      obtain ⟨htop, hrest⟩ := List.cons.inj hleaves
      have hsize : size = size' := hsize
      have hblocks : below.size = below'.size := by
        rw [hbelow, hcapacity, hbelow', hcapacity', hsize]
      rw [bytes_packed, bytes_packed, hlayer.bytes_eq, hlayer'.bytes_eq,
        BucketTree.levels_eq_of_leaves htop, ih hm hm' hblocks hrest]

variable [LeafSource σ] [LawfulLeafSource σ] {config : Config} {size : Nat} {positions : Word}

theorem bytes_eq_of_create {m : PositionMap w} {env env' : Env σ}
    (h : Creation.run (create config size positions) env = (.ok (.ok m), env')) :
    m.bytes config.overflowSize = Footprint.positionMap w config size := by
  induction size using Nat.strongRecOn generalizing positions m env env' with
  | ind size ih =>
    obtain ⟨-, ⟨hscan, rfl, -⟩ | ⟨hw, hlarge, hthreshold, tree, below, layer, filled, env₁, env₂,
      env₃, hcreate, -, hbelow, hassemble, hfill, rfl⟩⟩ := create_cases h
    · have hlength := length_drawAll (List.replicate size positions) env.source
      rw [List.length_replicate] at hlength
      rw [Footprint.positionMap_of_le (.inl hscan)]
      exact (Nat.zero_add _).trans (congrArg Footprint.scanMap hlength)
    · obtain ⟨-, hfilled⟩ := filled_of_fill (sound_before_fill hcreate hbelow hassemble)
        (toNat_zero_add_le _) hfill
      obtain ⟨hsound, hsize, -⟩ := exists_of_create hbelow
      obtain ⟨hfresh, -⟩ := Layer.fresh_of_assemble hcreate hassemble
      obtain ⟨hleaves, hcounts⟩ := List.cons.inj hfilled.leafCounts
      have hlevels : filled.layer.tree.levels = levelsFor (ceilDiv size w) :=
        (BucketTree.levels_eq_of_leaves hleaves).trans hfresh.levels
      have hblocks : filled.positions.size = below.size :=
        (hfilled.sound.size.trans (hfilled.capacity.trans hfresh.capacity)).trans hsize.symm
      have hbytes := hfilled.sound.positions.bytes_congr hsound hblocks hcounts config
      have hpacked : ¬(size ≤ config.scanThreshold ∨ w < 2 ∨ size ≤ 1) := by omega
      calc (packed filled.layer filled.positions 0 size).bytes config.overflowSize
        _ = filled.layer.bytes config.overflowSize +
            filled.positions.bytes config.overflowSize := bytes_packed _ _ _ _ _
        _ = Footprint.layer w config (levelsFor (ceilDiv size w)) +
            Footprint.positionMap w config (ceilDiv size w) := by
          rw [hfilled.sound.layer.bytes_eq, hlevels, hbytes,
            ih _ (ceilDiv_lt (by omega) hw) hbelow]
        _ = Footprint.positionMap w config size := by
          conv => rhs; rw [Footprint.positionMap, if_neg hpacked]

/-- The bytes that are reckoned for a map, if they fit in a word, are those of the layers it is made
of, each with the levels that it has. -/
theorem bytes_of_create {m : PositionMap w} {bytes : Nat} {env env' : Env σ}
    (h : Creation.run (create config size positions) env = (.ok (.ok m), env'))
    (hbytes : Footprint.positionMap? w config size = .ok bytes) :
    bytes = (m.layers.map (Layer.bytes config.overflowSize)).sum +
      m.scanned.size * Footprint.word := by
  rw [Footprint.positionMap?, Word.fits] at hbytes
  split at hbytes
  · cases hbytes
    exact (bytes_eq_of_create h).symm
  · cases hbytes

theorem bytes_of_create_five : ∃ (m : PositionMap 2) (env env' : Env WordStream),
    Creation.run (create ⟨0, 1, .bitonic⟩ 5 8) env = (.ok (.ok m), env') ∧
      Footprint.positionMap? 2 ⟨0, 1, .bitonic⟩ 5 = .ok 1976 ∧
      1976 = (m.layers.map (Layer.bytes 0)).sum + m.scanned.size * Footprint.word := by
  obtain ⟨m, env', hrun⟩ : ∃ (m : PositionMap 2) (env' : Env WordStream),
      Creation.run (create ⟨0, 1, .bitonic⟩ 5 8) ⟨WordStream.ofSeed 0, #[]⟩ =
        (.ok (.ok m), env') :=
    exists_created (by decide) (by decide) (.inr (by decide)) (by decide) (by decide) _
  have hbytes : Footprint.positionMap? 2 ⟨0, 1, .bitonic⟩ 5 = .ok 1976 := by decide +kernel
  have hsum := bytes_of_create hrun hbytes
  exact ⟨m, _, env', hrun, hbytes, hsum⟩

end PositionMap

end ObliviousRam
