import Mathlib.Order.Bounds.Basic
import ObliviousRam.Proofs.Oram.Traffic

namespace ObliviousRam

open LeafSource

theorem ceilDiv_le_iff {n size k : Nat} (hsize : 0 < size) : ceilDiv n size ≤ k ↔ n ≤ size * k := by
  rw [← Nat.not_lt, lt_ceilDiv n size k hsize, Nat.not_lt]

theorem ceilDiv_one (n : Nat) : ceilDiv n 1 = n := by
  rw [ceilDiv, Nat.div_one, Nat.add_sub_cancel]

theorem ceilDiv_ceilDiv (n : Nat) {a b : Nat} (ha : 0 < a) (hb : 0 < b) :
    ceilDiv (ceilDiv n a) b = ceilDiv n (a * b) :=
  eq_of_forall_ge_iff fun k => by
    rw [ceilDiv_le_iff hb, ceilDiv_le_iff ha, ceilDiv_le_iff (Nat.mul_pos ha hb), Nat.mul_assoc]

theorem levelsFor_pos (blocks : Nat) : 0 < levelsFor blocks := Nat.le_max_left _ _

theorem levelsFor_lt {blocks : Nat} (h : blocks ≤ 2 ^ 63) : levelsFor blocks < 64 := by
  have hceil := (ceilLog2_le_iff blocks 63).2 h
  rw [levelsFor]
  omega

variable {w : Nat} {σ : Type}

theorem BucketTree.exists_create {levels : Nat} (hpos : 0 < levels) (hlt : levels < 64) :
    ∃ tree : BucketTree w, create levels = .ok tree := by
  rw [create, dif_pos ⟨hpos, hlt⟩]
  exact ⟨_, rfl⟩

theorem Stash.create_eq {network : SortNetwork} {levels overflowSize : Nat}
    (hroom : Bucket.capacity * levels + overflowSize < 2 ^ 64) :
    create (w := w) network levels overflowSize = .ok ⟨network,
      List.replicate levels Bucket.empty, List.replicate overflowSize Block.empty⟩ := by
  rw [create, Word.fits, if_pos hroom]
  rfl

theorem Layer.exists_assemble (config : Config) (tree : BucketTree w) (capacity depth : Nat)
    (hroom : Bucket.capacity * 63 + config.overflowSize < 2 ^ 64) (env : Env σ) :
    ∃ layer env', (assemble config tree capacity depth).run env = (.ok layer, env') := by
  have hlevels := tree.levels_lt
  have hslots : Bucket.capacity * tree.levels ≤ Bucket.capacity * 63 :=
    Nat.mul_le_mul_left _ (by omega)
  rw [assemble, Stash.create_eq (by omega), tree.between_root]
  exact ⟨_, _, rfl⟩

theorem ScanMap.exists_created [LeafSource σ] (size : Nat) {positions : Word}
    (hpositions : positions ≠ 0) (env : Env σ) :
    ∃ map env', Creation.run (create size positions) env = (.ok (.ok map), env') := by
  rw [create, if_neg hpositions,
    Creation.run_bind_ok (Creation.run_lift_ok (Engine.run_drawMany positions size env))]
  exact ⟨_, _, rfl⟩

namespace PositionMap

theorem depth_eq (m : PositionMap w) : m.depth = m.memories.length + 1 := by
  induction m with
  | scan => rfl
  | packed layer below first size ih => rw [depth, ih, memories, List.length_cons]

/-- Each memory that a sound map is packed into has just the blocks for the entries of the map above. -/
theorem Sound.getElem?_memories {m : PositionMap w} (h : m.Sound) {k : Nat} {o : Oram w}
    (ho : m.memories[k]? = some o) :
    o.layer.capacity = ceilDiv m.size (w ^ (k + 1)) ∧ o.layer.allocated = o.layer.capacity := by
  induction m generalizing k with
  | scan => cases ho
  | packed layer below first size ih =>
    obtain ⟨hw, -, hcapacity, hallocated, hsize, -, hbelow⟩ := h
    cases k with
    | zero =>
      cases ho
      rw [Nat.zero_add, Nat.pow_one]
      exact ⟨hcapacity, hallocated⟩
    | succ k =>
      obtain ⟨hblocks, hall⟩ := ih hbelow ho
      rw [hsize, hcapacity, ceilDiv_ceilDiv _ (by omega) (Nat.pow_pos (by omega)),
        ← Nat.pow_succ'] at hblocks
      exact ⟨hblocks, hall⟩

variable [LeafSource σ] {config : Config} {size : Nat} {positions : Word}

theorem create_refuses (h : positions = 0 ∨ w = 0 ∨
      config.scanThreshold < size ∧ (w = 1 ∨ config.scanThreshold = 0)) (env : Env σ) :
    ∃ env', Creation.run (create (w := w) config size positions) env =
      (.ok (.error .invalidConfiguration), env') := by
  rw [create]
  by_cases hzero : positions = 0 ∨ w = 0
  · rw [if_pos hzero]
    exact ⟨env, rfl⟩
  rw [← or_assoc, or_iff_right hzero] at h
  obtain ⟨hlarge, hnarrow⟩ := h
  rw [if_neg hzero, if_neg (Nat.not_le.2 hlarge)]
  by_cases hw : w < 2
  · rw [if_pos hw]
    exact ⟨env, rfl⟩
  · have hthreshold : config.scanThreshold = 0 := by omega
    rw [if_neg hw]
    simp only [if_pos hthreshold]
    exact ⟨_, rfl⟩

variable [LawfulLeafSource σ]

theorem sound_before_fill {tree : BucketTree w} {layer : Layer w} {below : PositionMap w}
    {env env₁ env₂ : Env σ} (hcreate : BucketTree.create (levelsFor (ceilDiv size w)) = .ok tree)
    (hbelow : Creation.run (create config (ceilDiv size w) tree.leaves) env = (.ok (.ok below), env₁))
    (hassemble : (Layer.assemble config tree (ceilDiv size w) below.depth).run env₁ =
      (.ok layer, env₂)) :
    (⟨{ layer with allocated := ceilDiv size w }, below⟩ : Oram w).Sound := by
  obtain ⟨hsound, hsize, -, bounds, slot, -, hdrawn, -⟩ := exists_of_create hbelow
  exact (sound_handed_out hcreate hassemble hsound hsize hdrawn).2

theorem exists_created (hpositions : positions ≠ 0) (hw : w ≠ 0)
    (hfit : size ≤ config.scanThreshold ∨ 2 ≤ w ∧ 0 < config.scanThreshold) (hsize : size < 2 ^ 64)
    (hroom : Bucket.capacity * 63 + config.overflowSize < 2 ^ 64) (env : Env σ) :
    ∃ m env', Creation.run (create (w := w) config size positions) env = (.ok (.ok m), env') := by
  induction size using Nat.strongRecOn generalizing positions env with
  | ind size ih =>
    rw [create, if_neg (not_or.2 ⟨hpositions, hw⟩)]
    by_cases hscan : size ≤ config.scanThreshold
    · obtain ⟨map, env₁, hmap⟩ := ScanMap.exists_created size hpositions
        ({ env with log := env.log.push (.scanMapCreated size) })
      rw [if_pos hscan, Creation.run_bind_ok (Creation.run_lift_ok (Engine.run_tell _ env)),
        Creation.run_bind_ok hmap]
      exact ⟨_, _, rfl⟩
    · obtain ⟨hwide, hthreshold⟩ := hfit.resolve_left hscan
      have hless : ceilDiv size w < size := ceilDiv_lt (by omega) hwide
      have hhalf : ceilDiv size w ≤ 2 ^ 63 := by
        rw [ceilDiv_le_iff (by omega)]
        have : 2 * 2 ^ 63 ≤ w * 2 ^ 63 := Nat.mul_le_mul_right _ hwide
        omega
      obtain ⟨tree, htree⟩ : ∃ tree : BucketTree w, _ :=
        BucketTree.exists_create (levelsFor_pos (ceilDiv size w)) (levelsFor_lt hhalf)
      obtain ⟨below, env₁, hbelow⟩ := ih _ hless
        (UInt64.ne_of_lt tree.leaves_pos).symm (.inr ⟨hwide, hthreshold⟩) (by omega)
        { env with log := env.log.push (.packedMapCreated size w) }
      obtain ⟨layer, env₂, hlayer⟩ := Layer.exists_assemble config tree (ceilDiv size w)
        below.depth hroom env₁
      obtain ⟨filled, log, hfill, -⟩ := exists_fill positions (ceilDiv size w) 0 _
        (sound_before_fill htree hbelow hlayer) (toNat_zero_add_le _) env₂
      rw [if_neg hscan, if_neg (by omega),
        Creation.run_bind_ok (Creation.run_lift_ok (Engine.run_tell _ env))]
      simp only [if_neg (Nat.ne_of_gt hthreshold)]
      rw [Creation.run_bind_ok (Creation.run_except_ok htree _), Creation.run_bind_ok hbelow,
        Creation.run_bind_ok (Creation.run_lift_ok hlayer),
        (Layer.fresh_of_assemble htree hlayer).1.allocate_all]
      dsimp only
      rw [Creation.run_bind_ok (x := ExceptT.mk _) hfill]
      exact ⟨_, _, rfl⟩

theorem isLeast_of_create {m : PositionMap w} {env env' : Env σ}
    (h : Creation.run (create config size positions) env = (.ok (.ok m), env')) :
    IsLeast {k | ceilDiv size (w ^ k) ≤ config.scanThreshold} m.memories.length := by
  induction size using Nat.strongRecOn generalizing positions m env env' with
  | ind size ih =>
    obtain ⟨-, ⟨hscan, rfl, -⟩ | ⟨hw, hlarge, hthreshold, tree, below, layer, filled, env₁, env₂,
      env₃, hcreate, -, hbelow, hassemble, hfill, rfl⟩⟩ := create_cases h
    · refine ⟨?_, fun k _ => Nat.zero_le k⟩
      have hone : ceilDiv size (w ^ 0) = size := ceilDiv_one size
      exact hone.le.trans hscan
    · obtain ⟨hmem, hleast⟩ := ih _ (ceilDiv_lt (by omega : 1 < size) hw) hbelow
      have hlength : filled.positions.memories.length = below.memories.length := by
        obtain ⟨-, hfilled⟩ := filled_of_fill (sound_before_fill hcreate hbelow hassemble)
          (toNat_zero_add_le _) hfill
        have hdepth := congrArg List.length hfilled.leafCounts
        rw [Oram.length_leafCounts, Oram.length_leafCounts, Oram.depth, Oram.depth, depth_eq,
          depth_eq] at hdepth
        exact Nat.succ.inj hdepth
      have hshift : ∀ k, ceilDiv (ceilDiv size w) (w ^ k) = ceilDiv size (w ^ (k + 1)) := by
        intro k
        rw [ceilDiv_ceilDiv _ (by omega) (Nat.pow_pos (by omega)), ← Nat.pow_succ']
      rw [memories, List.length_cons, hlength]
      refine ⟨?_, fun k hk => ?_⟩
      · exact (hshift _).ge.trans hmem
      · cases k with
        | zero =>
          have hone : ceilDiv size (w ^ 0) = size := ceilDiv_one size
          exact absurd hlarge (Nat.not_lt.2 (hone.ge.trans hk))
        | succ k => exact Nat.succ_le_succ (hleast ((hshift k).le.trans hk))

/-- The creation of a map ends, whatever is drawn, and it is turned down in three cases only. The
memories of the map are just as many as it takes until few enough entries are left to be scanned, and
each of them has as many blocks as it needs, all handed out. -/
theorem create_decides (config : Config) (size : Nat) (hsize : size < 2 ^ 64)
    (hroom : Bucket.capacity * 63 + config.overflowSize < 2 ^ 64) (positions : Word) (env : Env σ) :
    ∃ answer env', Creation.run (create (w := w) config size positions) env = (.ok answer, env') ∧
      (answer = .error .invalidConfiguration ↔ positions = 0 ∨ w = 0 ∨
        config.scanThreshold < size ∧ (w = 1 ∨ config.scanThreshold = 0)) ∧
      (answer ≠ .error .invalidConfiguration → ∃ m, answer = .ok m ∧ m.size = size ∧
        (∃ k, IsLeast {k | ceilDiv size (w ^ k) ≤ config.scanThreshold} k ∧ m.depth = 1 + k ∧
          m.memories.length = k) ∧
        ∀ k o, m.memories[k]? = some o → o.layer.capacity = ceilDiv size (w ^ (k + 1)) ∧
          o.layer.allocated = o.layer.capacity) := by
  by_cases hrefused : positions = 0 ∨ w = 0 ∨
      config.scanThreshold < size ∧ (w = 1 ∨ config.scanThreshold = 0)
  · obtain ⟨env', hrun⟩ := create_refuses hrefused env
    exact ⟨_, env', hrun, iff_of_true rfl hrefused, fun h => absurd rfl h⟩
  · have hfit : size ≤ config.scanThreshold ∨ 2 ≤ w ∧ 0 < config.scanThreshold := by omega
    rw [not_or, not_or] at hrefused
    obtain ⟨m, env', hrun⟩ := exists_created hrefused.1 hrefused.2.1 hfit hsize hroom env
    obtain ⟨hsound, hm, -⟩ := exists_of_create hrun
    refine ⟨.ok m, env', hrun, iff_of_false (by rintro ⟨⟩) ?_, fun _ => ⟨m, rfl, hm, ?_, ?_⟩⟩
    · exact not_or.2 ⟨hrefused.1, not_or.2 hrefused.2⟩
    · refine ⟨_, isLeast_of_create hrun, ?_, rfl⟩
      rw [depth_eq, Nat.add_comm]
    · intro k o ho
      rw [← hm]
      exact hsound.getElem?_memories ho

/-- Five entries are packed two to a block, and their places again, until one block is left. -/
theorem create_decides_five : ∃ (m : PositionMap 2) (env env' : Env WordStream),
    Creation.run (create ⟨0, 1, .bitonic⟩ 5 8) env = (.ok (.ok m), env') ∧ m.size = 5 ∧
      m.depth = 4 ∧ m.memories.map (fun o => o.layer.capacity) = [3, 2, 1] := by
  obtain ⟨answer, env', hrun, hrefused, hcreated⟩ := create_decides (w := 2)
    ⟨0, 1, .bitonic⟩ 5 (by decide) (by decide) 8 (⟨WordStream.ofSeed 0, #[]⟩)
  obtain ⟨m, rfl, hsize, ⟨k, hk, hdepth, hlength⟩, hmemories⟩ :=
    hcreated (mt hrefused.1 (by decide))
  have hleast : IsLeast {k | ceilDiv 5 (2 ^ k) ≤ 1} 3 := by
    refine ⟨by decide, fun k hk => ?_⟩
    by_contra hlt
    have hfew : k = 0 ∨ k = 1 ∨ k = 2 := by omega
    rcases hfew with rfl | rfl | rfl
    all_goals exact absurd hk (by decide)
  obtain rfl : k = 3 := hk.unique hleast
  obtain ⟨a, b, c, habc⟩ := List.length_eq_three.1 hlength
  rw [habc] at hmemories
  refine ⟨m, _, env', hrun, hsize, hdepth, ?_⟩
  rw [habc, List.map_cons, List.map_cons, List.map_singleton, (hmemories 0 a rfl).1,
    (hmemories 1 b rfl).1, (hmemories 2 c rfl).1]
  rfl

end PositionMap

end ObliviousRam
