import ObliviousRam.Proofs.Footprint

namespace ObliviousRam.Oram

variable {w : Nat} {config : Config} {available : Nat} {loadFactor : Float}

theorem le_tallest_iff {levels : Nat} :
    levels ≤ tallest w available ↔ Footprint.tree w levels ≤ available := by
  have hpow := Nat.one_le_two_pow (n := levels)
  rw [tallest, Nat.le_log2 (Nat.succ_ne_zero _), Footprint.tree,
    ← Nat.le_div_iff_mul_le (Footprint.bucket_pos w)]
  omega

def sizeFor (w : Nat) (config : Config) (loadFactor : Float) (levels : Nat) : Nat :=
  Footprint.oram w config levels (blocksFor loadFactor levels)

inductive Search (size : Nat → Nat) (available top : Nat) : Except Fault (Option Nat) → Prop
  | found {levels : Nat} (pos : 0 < levels) (le : levels ≤ top) (lt : levels < 64)
    (fits : size levels < 2 ^ 64) (within : size levels ≤ available)
    (largest : ∀ taller, levels < taller → taller ≤ top → available < size taller) :
    Search size available top (.ok (some levels))
  | exhausted (large : ∀ levels, 0 < levels → levels ≤ top → available < size levels) :
    Search size available top (.ok none)
  | overflow {levels : Nat} (pos : 0 < levels) (le : levels ≤ top)
    (large : 64 ≤ levels ∨ 2 ^ 64 ≤ size levels) :
    Search size available top (.error .wordOverflow)

theorem Search.succ {size : Nat → Nat} {top : Nat} {answer : Except Fault (Option Nat)}
    (hlarge : available < size (top + 1)) (h : Search size available top answer) :
    Search size available (top + 1) answer := by
  have hstep : ∀ levels ≤ top + 1, levels ≤ top ∨ levels = top + 1 := by omega
  cases h with
  | found pos le lt fits within largest =>
    refine .found pos (Nat.le_succ_of_le le) lt fits within fun taller hlt hle => ?_
    obtain hle | rfl := hstep taller hle
    · exact largest taller hlt hle
    · exact hlarge
  | exhausted large =>
    refine .exhausted fun levels hpos hle => ?_
    obtain hle | rfl := hstep levels hle
    · exact large levels hpos hle
    · exact hlarge
  | overflow pos le large => exact .overflow pos (Nat.le_succ_of_le le) large

theorem search_fitting (w : Nat) (config : Config) (available : Nat) (loadFactor : Float)
    (top : Nat) : Search (sizeFor w config loadFactor) available top
      (fitting w config available loadFactor top) := by
  induction top with
  | zero => exact .exhausted fun levels hpos hle => absurd hle (Nat.not_le.2 hpos)
  | succ top ih =>
    rw [fitting, Footprint.oram?_eq, ← sizeFor]
    by_cases hfits : top + 1 < 64 ∧ sizeFor w config loadFactor (top + 1) < 2 ^ 64
    · rw [if_pos hfits]
      change Search _ _ _ (if sizeFor w config loadFactor (top + 1) ≤ available then
        .ok (some (top + 1)) else fitting w config available loadFactor top)
      by_cases hwithin : sizeFor w config loadFactor (top + 1) ≤ available
      · rw [if_pos hwithin]
        exact .found (Nat.succ_pos _) (Nat.le_refl _) hfits.1 hfits.2 hwithin (by omega)
      · rw [if_neg hwithin]
        exact ih.succ (Nat.not_le.1 hwithin)
    · rw [if_neg hfits]
      rw [not_and_or, Nat.not_lt, Nat.not_lt] at hfits
      exact .overflow (Nat.succ_pos _) (Nat.le_refl _) hfits

variable {σ : Type} [LeafSource σ] {o : Oram w} {env env' : Env σ}

theorem shape_of_build {levels blocks : Nat}
    (h : Creation.run (build config levels blocks) env = (.ok (.ok o), env')) :
    o.layer.tree.levels = levels ∧ o.layer.capacity = blocks := by
  obtain ⟨tree, env₁, hcreate, -, hlayer⟩ := build_cases h
  obtain ⟨hfresh, -⟩ := Layer.fresh_of_assemble hcreate hlayer
  exact ⟨hfresh.levels, hfresh.capacity⟩

/-- The memory has the blocks that are meant for its levels, and takes no more bytes than there are.
Any more levels are too many, by the tree alone or with all that goes with it. -/
theorem largest_of_createWithin
    (h : Creation.run (createWithin config available loadFactor) env = (.ok (.ok o), env')) :
    o.layer.capacity = blocksFor loadFactor o.layer.tree.levels ∧
      Footprint.oram w config o.layer.tree.levels (blocksFor loadFactor o.layer.tree.levels) ≤
        available ∧
      ∀ taller, o.layer.tree.levels < taller → taller ≤ 63 →
        available < (2 ^ taller - 1) * Footprint.bucket w ∨
          available < Footprint.oram w config taller (blocksFor loadFactor taller) := by
  obtain ⟨-, levels, hfitting, hbuild⟩ := createWithin_cases h
  obtain ⟨rfl, hcapacity⟩ := shape_of_build hbuild
  have hsearch := search_fitting w config available loadFactor (tallest w available)
  rw [hfitting] at hsearch
  cases hsearch with
  | found pos le lt fits within largest =>
    refine ⟨hcapacity, within, fun taller hlt _ => ?_⟩
    by_cases htall : taller ≤ tallest w available
    · exact .inr (largest taller hlt htall)
    · rw [le_tallest_iff, Nat.not_le] at htall
      exact .inl htall

theorem largest_of_createWithin_two : ∃ (o : Oram 2) (env env' : Env WordStream),
    Creation.run (createWithin ⟨0, 4, .bitonic⟩ 2399 1.5) env = (.ok (.ok o), env') ∧
      o.layer.tree.levels = 2 ∧ o.layer.capacity = 3 ∧
      Footprint.oram 2 ⟨0, 4, .bitonic⟩ 2 3 ≤ 2399 ∧
      (2399 < (2 ^ 3 - 1) * Footprint.bucket 2 ∨
        2399 < Footprint.oram 2 ⟨0, 4, .bitonic⟩ 3 (blocksFor 1.5 3)) ∧
      Footprint.oram 2 ⟨0, 4, .bitonic⟩ 3 (blocksFor 1.5 3) = 2400 := by
  have hreaches : Request.reaches (w := 2) (α := Unit) ⟨0, 4, .bitonic⟩ (.bytes 2399 1.5) []
      ⟨WordStream.ofSeed 0, #[]⟩ (fun o => o.layer.tree.levels == 2) = true := by decide +kernel
  obtain ⟨o, _, env', _, _, h, hrun, hwanted⟩ := exists_of_reaches hreaches
  cases hrun
  rw [Request.create] at h
  have hlevels : o.layer.tree.levels = 2 := beq_iff_eq.1 hwanted
  have hblocks : blocksFor 1.5 2 = 3 := by decide +kernel
  obtain ⟨hcapacity, hwithin, hlargest⟩ := largest_of_createWithin h
  rw [hlevels, hblocks] at hcapacity hwithin
  exact ⟨o, _, env', h, hlevels, hcapacity, hwithin, hlargest 3 (by omega) (by decide),
    by decide +kernel⟩

end ObliviousRam.Oram
