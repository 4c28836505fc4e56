import ObliviousRam.Oram.Creation
import ObliviousRam.Proofs.PositionMap.Creation

namespace ObliviousRam

open LeafSource

variable {w : Nat} {σ : Type} [LeafSource σ]

namespace Oram

inductive Request where
  | words (count : Nat)
  | bytes (available : Nat) (loadFactor : Float)

def Request.create (config : Config) : Request → Creation σ (Oram w)
  | words count => Oram.create config count
  | bytes available loadFactor => Oram.createWithin config available loadFactor

/-- A memory that was just created with the given draws, which are all the draws that were made. -/
structure Created (σ : Type) [LeafSource σ] (o : Oram w) (bounds values : List Word)
    (slot : Nat → Nat) : Prop where
  sound : o.Sound
  fresh : o.layer.Fresh o.layer.tree.levels o.layer.capacity
  drawn : o.positions.Drawn o.layer.tree.leaves bounds values slot
  chronicled : ∀ pre, o.positions.Chronicled σ (pre ++ values) []
  counted : o.positions.Counted

theorem blocksFor_lt (loadFactor : Float) (levels : Nat) : blocksFor loadFactor levels < 2 ^ 64 :=
  UInt64.toNat_lt _

theorem build_cases {config : Config} {levels blocks : Nat} {o : Oram w} {env env' : Env σ}
    (h : Creation.run (build config levels blocks) env = (.ok (.ok o), env')) :
    ∃ (tree : BucketTree w) (env₁ : Env σ), BucketTree.create levels = .ok tree ∧
      Creation.run (PositionMap.create config blocks tree.leaves) env =
        (.ok (.ok o.positions), env₁) ∧
      (Layer.assemble config tree blocks o.positions.depth).run env₁ = (.ok o.layer, env') := by
  rw [build] at h
  split at h
  · cases h
  obtain ⟨tree, env₁, htree, h⟩ := Creation.exists_of_run_bind h
  obtain ⟨hcreate, rfl⟩ := Creation.exists_of_run_except htree
  obtain ⟨positions, env₂, hpositions, h⟩ := Creation.exists_of_run_bind h
  obtain ⟨layer, env₃, hlayer, h⟩ := Creation.exists_of_run_bind h
  cases h
  exact ⟨tree, env₂, hcreate, hpositions, Creation.exists_of_run_lift hlayer⟩

def tallest (w available : Nat) : Nat := (available / Footprint.bucket w + 1).log2

theorem run_createWithin (config : Config) (available : Nat) {loadFactor : Float}
    (haccepted : 1.0 ≤ loadFactor ∧ loadFactor ≤ 3.0 ∧ w ≠ 0) (env : Env σ) :
    Creation.run (createWithin (w := w) config available loadFactor) env =
      match fitting w config available loadFactor (tallest w available) with
      | .ok (some levels) => Creation.run (build config levels (blocksFor loadFactor levels)) env
      | .ok none => (.ok (.error .invalidConfiguration), env)
      | .error fault => (.error fault, env) := by
  rw [createWithin, if_pos haccepted]
  dsimp only
  by_cases hnone : available / Footprint.bucket w = 0
  · have hzero : tallest w available = 0 := by
      rw [tallest, hnone]
      rfl
    rw [if_pos hnone, hzero]
    rfl
  · rw [if_neg hnone, ← tallest]
    rcases fitting w config available loadFactor (tallest w available) with fault | _ | levels
    all_goals rfl

theorem createWithin_cases {config : Config} {available : Nat} {loadFactor : Float} {o : Oram w}
    {env env' : Env σ}
    (h : Creation.run (createWithin config available loadFactor) env = (.ok (.ok o), env')) :
    (1.0 ≤ loadFactor ∧ loadFactor ≤ 3.0 ∧ w ≠ 0) ∧
      ∃ levels, fitting w config available loadFactor (tallest w available) = .ok (some levels) ∧
        Creation.run (build config levels (blocksFor loadFactor levels)) env =
          (.ok (.ok o), env') := by
  by_cases haccepted : 1.0 ≤ loadFactor ∧ loadFactor ≤ 3.0 ∧ w ≠ 0
  · rw [run_createWithin config available haccepted] at h
    refine ⟨haccepted, ?_⟩
    split at h
    · exact ⟨_, ‹_›, h⟩
    · cases h
    · cases h
  · rw [createWithin, if_neg haccepted] at h
    cases h

theorem create_cases {config : Config} {words : Nat} {o : Oram w} {env env' : Env σ}
    (h : Creation.run (create config words) env = (.ok (.ok o), env')) :
    0 < w ∧ Creation.run (build config (levelsFor (ceilDiv words w)) (ceilDiv words w)) env =
      (.ok (.ok o), env') := by
  rw [create] at h
  by_cases hzero : words = 0 ∨ w = 0
  · rw [if_pos hzero] at h
    cases h
  · rw [if_neg hzero] at h
    exact ⟨by omega, h⟩

/-- However the size is given, a memory is built with a number of blocks that fits in a word. -/
theorem exists_build {config : Config} {request : Request} {o : Oram w} {env env' : Env σ}
    (h : Creation.run (request.create config) env = (.ok (.ok o), env')) :
    ∃ levels blocks, Creation.run (build config levels blocks) env = (.ok (.ok o), env') ∧
      ∀ tree : BucketTree w, BucketTree.create levels = .ok tree → blocks < 2 ^ 64 := by
  cases request with
  | words count =>
    obtain ⟨-, hbuild⟩ := create_cases h
    refine ⟨_, _, hbuild, fun tree htree => ?_⟩
    have := PositionMap.le_two_pow_levels htree
    have := tree.two_pow_levels_le
    omega
  | bytes available loadFactor =>
    obtain ⟨-, levels, -, hbuild⟩ := createWithin_cases h
    exact ⟨_, _, hbuild, fun _ _ => blocksFor_lt _ _⟩

variable [LawfulLeafSource σ]

theorem exists_of_build {config : Config} {levels blocks : Nat} {o : Oram w} {env env' : Env σ}
    (hblocks : ∀ tree : BucketTree w, BucketTree.create levels = .ok tree → blocks < 2 ^ 64)
    (h : Creation.run (build config levels blocks) env = (.ok (.ok o), env')) :
    ∃ bounds slot, env'.source = (drawAll bounds env.source).2 ∧
      o.Created σ bounds (drawAll bounds env.source).1 slot := by
  obtain ⟨tree, env₁, hcreate, hpositions, hlayer⟩ := build_cases h
  obtain ⟨hfresh, hsame⟩ := Layer.fresh_of_assemble hcreate hlayer
  obtain ⟨hsound, hsize, hcounted, bounds, slot, hsource, hdrawn, hchronicled⟩ :=
    PositionMap.exists_of_create hpositions
  obtain ⟨hleaves, hosound⟩ := PositionMap.sound_assembled hcreate hlayer (hblocks tree hcreate)
    hsound hsize hdrawn
  rw [← hleaves] at hdrawn
  refine ⟨bounds, slot, hsame.trans hsource, hosound, ?_, hdrawn, hchronicled, hcounted⟩
  exact ⟨rfl, hfresh.history, hfresh.stash_levels, hfresh.path_length, rfl, hfresh.allocated,
    hfresh.slots, hfresh.statistics⟩

theorem exists_of_create {config : Config} {request : Request} {o : Oram w} {env env' : Env σ}
    (h : Creation.run (request.create config) env = (.ok (.ok o), env')) :
    ∃ bounds slot, env'.source = (drawAll bounds env.source).2 ∧
      o.Created σ bounds (drawAll bounds env.source).1 slot := by
  obtain ⟨levels, blocks, hbuild, hblocks⟩ := exists_build h
  exact exists_of_build hblocks hbuild

end Oram

end ObliviousRam
