import ObliviousRam.Proofs.Oram.Room

namespace ObliviousRam

variable {w : Nat} {σ α : Type}

theorem PositionMap.Relocated.depth_eq {m m' : PositionMap w} {id position : Word}
    {draws : List Word} (h : m.Relocated id position draws m') : m'.depth = m.depth := by
  induction h with
  | scan => rfl
  | packed hblock hbelow hlayer ih => exact congrArg (· + 1) ih

def PositionMap.isScanOf (entries : Array Word) : PositionMap w → Bool
  | scan map => map.entries == entries
  | packed .. => false

theorem PositionMap.eq_of_isScanOf {entries : Array Word} {m : PositionMap w}
    (h : m.isScanOf entries = true) : m = scan ⟨entries⟩ := by
  cases m with
  | scan map => rw [← beq_iff_eq.1 h]
  | packed => cases h

theorem Layer.depth_of_assemble {config : Config} {tree : BucketTree w} {capacity depth : Nat}
    {layer : Layer w} {env env' : Env σ}
    (h : (assemble config tree capacity depth).run env = (.ok layer, env')) :
    layer.statistics.depth = depth := by
  obtain ⟨stash, env₁, -, h⟩ := Engine.exists_of_run_bind h
  obtain ⟨path, env₂, -, h⟩ := Engine.exists_of_run_bind h
  obtain ⟨_, env₃, -, h⟩ := Engine.exists_of_run_bind h
  cases h
  rfl

theorem BucketTree.alike_clear {t t' : BucketTree w} (hlevels : t'.levels = t.levels) :
    t.clear.Alike t.history t'.history t'.clear := by
  obtain ⟨levels, _, _, buckets, history⟩ := t
  obtain ⟨levels', _, _, buckets', history'⟩ := t'
  cases hlevels
  exact ⟨[], rfl, rfl⟩

theorem Stash.alike_clear {s s' : Stash w} (hnetwork : s'.network = s.network)
    (hlevels : s'.levels = s.levels) : s.clear.Alike s'.clear := by
  refine ⟨_, .replicate s.capacity s'.capacity, ?_⟩
  rw [clear, clear, hnetwork, hlevels]

namespace Oram

variable [LeafSource σ]

theorem depth_of_build {config : Config} {levels blocks : Nat} {o : Oram w} {env env' : Env σ}
    (h : Creation.run (build config levels blocks) env = (.ok (.ok o), env')) :
    o.layer.statistics.depth = o.depth := by
  obtain ⟨tree, env₁, -, -, hlayer⟩ := build_cases h
  exact Layer.depth_of_assemble hlayer

variable [LawfulLeafSource σ] {o o' : Oram w}

theorem Reachable.depth_eq (h : o.Reachable σ) : o.layer.statistics.depth = o.depth := by
  induction h with
  | created hcreate =>
    obtain ⟨levels, blocks, hbuild, -⟩ := exists_build hcreate
    exact depth_of_build hbuild
  | @step _ o o' command _ env env' hreachable hstep ih =>
    obtain ⟨-, hstepped⟩ := hreachable.sound.stepped hstep
    generalize command.target? o.layer.allocated = target at hstepped
    cases hstepped with
    | kept | allocated | cleared => exact ih
    | accessed hid hsource ha =>
      cases ha with
      | intro hpositions hlayer =>
        rw [hlayer.statistics, depth, hpositions.depth_eq]
        exact ih

theorem Reachable.alike_clear (h : o.Reachable σ) (h' : o'.Reachable σ)
    (hlevels : o'.layer.tree.levels = o.layer.tree.levels)
    (hnetwork : o'.layer.stash.network = o.layer.stash.network)
    (hpositions : o'.positions = o.positions) :
    Alike False o.layer.tree.history o'.layer.tree.history { o with layer := o.layer.clear }
      { o' with layer := o'.layer.clear } where
  layer :=
    { tree := BucketTree.alike_clear hlevels
      stash := Stash.alike_clear hnetwork (by
        rw [h.sound.layer.stash_levels, h'.sound.layer.stash_levels, hlevels])
      path := False.elim
      path_length :=
        h'.sound.layer.path_length.trans (hlevels.trans h.sound.layer.path_length.symm)
      capacity := h'.sound.size.symm.trans ((congrArg PositionMap.size hpositions).trans h.sound.size)
      allocated := rfl
      statistics := by
        have hdepth : o'.layer.statistics.depth = o.layer.statistics.depth := by
          rw [h.depth_eq, h'.depth_eq, depth, depth, hpositions]
        exact congrArg Statistics.start hdepth }
  positions := hpositions ▸ .refl _

/-- Nothing that was done with a memory before it is cleared shows in what comes after. Two memories
of one size answer the same to all calls from there on, if their maps were in the same state, which
are not touched as the memories are cleared. Of all that they hold, only the touches that were
recorded before and the room in the stashes may differ. -/
theorem cleared_of_reachable (h : o.Reachable σ) (h' : o'.Reachable σ)
    (hlevels : o'.layer.tree.levels = o.layer.tree.levels)
    (hnetwork : o'.layer.stash.network = o.layer.stash.network)
    (hpositions : o'.positions = o.positions) (env env' : Env σ) :
    ∃ c c' env₁ env₁', o.clear.run env = (.ok c, env₁) ∧ o'.clear.run env' = (.ok c', env₁') ∧
      c.positions = o.positions ∧ c'.positions = o'.positions ∧
      ∀ (commands : List (Command w α)) (env₂ env₂' : Env σ), env₂.source = env₂'.source →
        ∃ answers p p' env₃ env₃',
          (c.run commands).run env₂ = (.ok (answers, p), env₃) ∧
          (c'.run commands).run env₂' = (.ok (answers, p'), env₃') ∧
          Env.Alike env₂.story env₂'.story env₃ env₃' ∧
          (∃ since overflow, p.layer.tree.history = since ++ o.layer.tree.history ∧
            Slots.Padded p.layer.stash.overflow overflow ∧
            p'.layer =
              { p.layer with
                tree := { p.layer.tree with history := since ++ o'.layer.tree.history }
                stash := { p.layer.stash with overflow }
                path := p'.layer.path }) ∧
          p'.layer.stash.overflowCount = p.layer.stash.overflowCount ∧
          p'.report = p.report ∧
          List.Forall₂ Resized p.positions.memories p'.positions.memories := by
  refine ⟨_, _, _, _, rfl, rfl, rfl, rfl, fun commands env₂ env₂' hsource => ?_⟩
  obtain ⟨answers, p, p', env₃, env₃', hrun, hrun', hp, henv₃⟩ :=
    (h.alike_clear h' hlevels hnetwork hpositions).exists_run h.sound.clear commands hsource
  exact ⟨answers, p, p', env₃, env₃', hrun, hrun', henv₃, hp.layer.exists_eq,
    hp.layer.stash.overflowCount_eq, hp.report_eq, hp.positions.memories⟩

/-- One memory holds blocks, one of them in the overflow region, and the other was never used. -/
theorem cleared_crowded : ∃ (o o' : Oram 2) (env : Env WordStream), o.Reachable WordStream ∧
    o'.Reachable WordStream ∧ o'.positions = o.positions ∧
    o.layer.allocated = 4 ∧ o'.layer.allocated = 0 ∧
    o.layer.stash.overflowCount = 1 ∧ o'.layer.stash.overflowCount = 0 ∧
    ∃ (c c' : Oram 2) (env₁ env₁' : Env WordStream), o.clear.run env = (.ok c, env₁) ∧
      o'.clear.run env = (.ok c', env₁') ∧
      ∃ (answers : List (Answer 2 Unit)) (p p' : Oram 2) (env₂ env₂' : Env WordStream),
        (c.run [.allocate 1, .get 0]).run env = (.ok (answers, p), env₂) ∧
        (c'.run [.allocate 1, .get 0]).run env = (.ok (answers, p'), env₂') ∧
        p'.layer.stash.overflowCount = p.layer.stash.overflowCount ∧ p'.report = p.report := by
  have hreaches : Request.reaches (w := 2) (α := Unit) ⟨0, 16, .bitonic⟩ (.words 8)
      [.allocate 4, .put 0 #v[5, 6], .put 1 #v[7, 8], .put 2 #v[1, 2], .put 3 #v[3, 4]]
      ⟨WordStream.ofSeed 0, #[]⟩ (fun o => o.positions.isScanOf #[1, 1, 1, 1] &&
        o.layer.allocated == 4 && o.layer.stash.overflowCount == 1 && o.layer.tree.levels == 2 &&
          o.layer.stash.network == .bitonic) = true := by decide +kernel
  have hreaches' : Request.reaches (w := 2) (α := Unit) ⟨0, 16, .bitonic⟩ (.words 8) []
      ⟨WordStream.ofSeed 1, #[]⟩ (fun o => o.positions.isScanOf #[1, 1, 1, 1] &&
        o.layer.allocated == 0 && o.layer.stash.overflowCount == 0 && o.layer.tree.levels == 2 &&
          o.layer.stash.network == .bitonic) = true := by decide +kernel
  obtain ⟨_, o, _, env, _, hcreate, hrun, hwanted⟩ := exists_of_reaches hreaches
  obtain ⟨_, o', _, _, _, hcreate', hrun', hwanted'⟩ := exists_of_reaches hreaches'
  simp only [Bool.and_eq_true, beq_iff_eq] at hwanted hwanted'
  obtain ⟨⟨⟨⟨hscan, hallocated⟩, hcount⟩, hlevels⟩, hnetwork⟩ := hwanted
  obtain ⟨⟨⟨⟨hscan', hallocated'⟩, hcount'⟩, hlevels'⟩, hnetwork'⟩ := hwanted'
  have hreachable : o.Reachable WordStream := (Reachable.created hcreate).run hrun
  have hreachable' : o'.Reachable WordStream := (Reachable.created hcreate').run hrun'
  have hpositions : o'.positions = o.positions :=
    (PositionMap.eq_of_isScanOf hscan').trans (PositionMap.eq_of_isScanOf hscan).symm
  obtain ⟨c, c', env₁, env₁', hclear, hclear', -, -, hruns⟩ := cleared_of_reachable hreachable
    hreachable' (hlevels'.trans hlevels.symm) (hnetwork'.trans hnetwork.symm) hpositions env env
  obtain ⟨answers, p, p', env₂, env₂', hrun, hrun', -, -, hcounts, hreport, -⟩ :=
    hruns [.allocate 1, .get 0] env env rfl
  exact ⟨o, o', env, hreachable, hreachable', hpositions, hallocated, hallocated', hcount, hcount',
    c, c', env₁, env₁', hclear, hclear', answers, p, p', env₂, env₂', hrun, hrun', hcounts, hreport⟩

end Oram

end ObliviousRam
