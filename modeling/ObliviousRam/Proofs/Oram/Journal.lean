import ObliviousRam.Proofs.Oram.Clearing
import ObliviousRam.Proofs.PositionMap.Journal

namespace ObliviousRam

open LeafSource

variable {w : Nat} {σ α : Type}

/-- The numbers of blocks that accesses left in the overflow regions of a memory, since it was created
or cleared, and of the layer that its map is packed into, since that one was created. The latest comes
first. -/
structure Journal where
  own : List Nat
  positions : List Nat

/-- What is noted down after a call that led from one memory to the next. A call that is turned down
leaves no note. -/
def Journal.enter (journal : Journal) (o : Oram w) (command : Command w α) (o' : Oram w) : Journal :=
  match command with
  | .clear => { journal with own := [] }
  | command =>
    if (command.target? o.layer.allocated).isSome then
      ⟨o'.layer.stash.overflowCount :: journal.own, o'.positions.enter journal.positions⟩
    else journal

theorem Journal.enter_of_ne {command : Command w α} (hcommand : command ≠ .clear) (journal : Journal)
    (o o' : Oram w) : journal.enter o command o' =
      if (command.target? o.layer.allocated).isSome then
        ⟨o'.layer.stash.overflowCount :: journal.own, o'.positions.enter journal.positions⟩
      else journal := by
  cases command with
  | clear => exact absurd rfl hcommand
  | _ => rfl

namespace Oram

variable [LeafSource σ]

inductive Watched (σ : Type) [LeafSource σ] (o₀ : Oram w) (noted : List Nat) : Oram w → Journal → Prop
  | created : Watched σ o₀ noted o₀ ⟨[], noted⟩
  | called {α : Type} {o o' : Oram w} {journal : Journal} {command : Command w α}
      {answer : Answer w α} {env env' : Env σ} (watched : Watched σ o₀ noted o journal)
      (step : (o.step command).run env = (.ok (answer, o'), env')) :
      Watched σ o₀ noted o' (journal.enter o command o')

variable {o₀ o o' : Oram w} {noted : List Nat} {journal : Journal} {env env' : Env σ}

theorem Watched.reachable (h : o₀.Watched σ noted o journal) (h₀ : o₀.Reachable σ) :
    o.Reachable σ := by
  induction h with
  | created => exact h₀
  | called watched step ih => exact .step ih step

theorem Reachable.exists_watched (h : o.Reachable σ) :
    ∃ (config : Config) (request : Request) (o₀ : Oram w) (env env' : Env σ),
      Creation.run (request.create config) env = (.ok (.ok o₀), env') ∧
        ∀ noted, ∃ journal, o₀.Watched σ noted o journal := by
  induction h with
  | created create => exact ⟨_, _, _, _, _, create, fun noted => ⟨_, .created⟩⟩
  | step reachable step ih =>
    obtain ⟨config, request, o₀, env, env', hcreate, hwatched⟩ := ih
    refine ⟨config, request, o₀, env, env', hcreate, fun noted => ?_⟩
    obtain ⟨journal, hjournal⟩ := hwatched noted
    exact ⟨_, hjournal.called step⟩

theorem Watched.exists_run (h : o₀.Watched σ noted o journal) {commands : List (Command w α)}
    {answers : List (Answer w α)} (hrun : (o.run commands).run env = (.ok (answers, o'), env')) :
    ∃ journal', o₀.Watched σ noted o' journal' := by
  apply run_induction (P := fun _ o _ => ∃ journal, o₀.Watched σ noted o journal) _ ⟨journal, h⟩ hrun
  rintro command rest o answer o' env env' ⟨journal, h⟩ hstep
  exact ⟨_, h.called hstep⟩

theorem exists_allocated_of_step {command : Command w α} {answer : Answer w α}
    (hcommand : command ≠ .clear) (htarget : command.target? o.layer.allocated = none)
    (h : (o.step command).run env = (.ok (answer, o'), env')) :
    ∃ allocated, o' = { o with layer := { o.layer with allocated } } := by
  have hle : ∀ id : Word, (if id.toNat < o.layer.allocated then some id else none) = none →
      o.layer.allocated ≤ id.toNat := by
    intro id hid
    by_contra hlt
    rw [if_pos (Nat.not_le.1 hlt)] at hid
    cases hid
  cases command with
  | allocate n =>
    cases h
    by_cases hn : o.layer.allocated + n ≤ o.layer.capacity
    · rw [allocate, Layer.allocate, if_pos hn]
      exact ⟨_, rfl⟩
    · rw [allocate, Layer.allocate, if_neg hn]
      exact ⟨_, rfl⟩
  | get id =>
    rw [step, get, Engine.run_bind_ok (access_of_le o id _ env (hle id htarget))] at h
    cases h
    exact ⟨_, rfl⟩
  | put id data =>
    rw [step, put, Engine.run_bind_ok (access_of_le o id _ env (hle id htarget))] at h
    cases h
    exact ⟨_, rfl⟩
  | putPartial id start words buffer =>
    rw [Command.target?] at htarget
    rw [step, putPartial] at h
    cases hwindow : windowRefusal? w start words.length (buffer.map List.length) with
    | some refusal =>
      rw [hwindow] at h
      cases h
      exact ⟨_, rfl⟩
    | none =>
      rw [hwindow] at h htarget
      dsimp only at h htarget
      rw [Engine.run_bind_ok (access_of_le o id _ env (hle id htarget))] at h
      cases h
      exact ⟨_, rfl⟩
  | access id use =>
    rw [step, Engine.run_bind_ok (access_of_le o id _ env (hle id htarget))] at h
    cases h
    exact ⟨_, rfl⟩
  | clear => exact absurd rfl hcommand

structure Tells (o : Oram w) (journal : Journal) : Prop where
  layer : o.layer.Tells journal.own
  positions : o.positions.Tells journal.positions

variable [LawfulLeafSource σ]

theorem Tells.step (h : o.Tells journal) (ho : o.Sound) {command : Command w α}
    {answer : Answer w α} (hstep : (o.step command).run env = (.ok (answer, o'), env')) :
    o'.Tells (journal.enter o command o') := by
  -- That no block is accessed does not tell a call that is turned down from one that clears.
  by_cases hclear : command = .clear
  · subst hclear
    cases hstep
    exact ⟨o.layer.tells_clear, h.positions⟩
  · rw [Journal.enter_of_ne hclear]
    obtain ⟨-, hstepped⟩ := ho.stepped hstep
    cases htarget : command.target? o.layer.allocated with
    | none =>
      obtain ⟨allocated, rfl⟩ := exists_allocated_of_step hclear htarget hstep
      exact ⟨⟨h.layer.accesses, h.layer.stash⟩, h.positions⟩
    | some id =>
      rw [htarget] at hstepped
      cases hstepped with
      | accessed hid hsource ha =>
        cases ha with
        | intro hpositions hlayer => exact ⟨h.layer.visited hlayer, hpositions.tells h.positions⟩

theorem Watched.tells (h : o₀.Watched σ noted o journal) (h₀ : o₀.Reachable σ)
    (hnoted : o₀.Tells ⟨[], noted⟩) : o.Tells journal := by
  induction h with
  | created => exact hnoted
  | called watched step ih => exact ih.step (watched.reachable h₀).sound step

theorem exists_createNoted {config : Config} {request : Request}
    (h : Creation.run (request.create config) env = (.ok (.ok o₀), env')) :
    ∃ noted env₁, Creation.run
      (PositionMap.createNoted config o₀.positions.size o₀.layer.tree.leaves) env =
        (.ok (.ok (o₀.positions, noted)), env₁) := by
  obtain ⟨levels, blocks, hbuild, -⟩ := exists_build h
  obtain ⟨tree, env₁, htree, hpositions, hlayer⟩ := build_cases hbuild
  obtain ⟨hfresh, -⟩ := Layer.fresh_of_assemble htree hlayer
  obtain ⟨-, hsize, -⟩ := PositionMap.exists_of_create hpositions
  have hleaves : o₀.layer.tree.leaves = tree.leaves := by
    rw [BucketTree.leaves, BucketTree.leaves, hfresh.levels, (BucketTree.of_create htree).1]
  rw [← PositionMap.createNoted_erase, ← bind_pure_comp] at hpositions
  obtain ⟨⟨m, noted⟩, env₃, hnoted, hpure⟩ := Creation.exists_of_run_bind hpositions
  cases hpure
  rw [hsize, hleaves]
  exact ⟨noted, env₁, hnoted⟩

/-- At every moment, what a memory reports is what it went through. Its accesses are counted from the
time when it was created or cleared, whatever their accessors answered, and so are the greatest number
and the sum of the blocks that they left in the overflow region. What it reports of the layer that its
map is packed into is counted from the creation of that layer. -/
theorem report_of_watched {config : Config} {request : Request}
    (h : Creation.run (request.create config) env = (.ok (.ok o₀), env')) :
    ∃ noted env₁, Creation.run
        (PositionMap.createNoted config o₀.positions.size o₀.layer.tree.leaves) env =
          (.ok (.ok (o₀.positions, noted)), env₁) ∧
      ∀ o journal, o₀.Watched σ noted o journal →
        o.report.layer.accesses = journal.own.length ∧
        o.report.layer.stash.Tells o.layer.stash.overflowCount journal.own ∧
        o.report.layer.depth = o.positions.depth ∧
        match o.positions with
        | .scan _ => o.report.positions = .zero ∧ journal.positions = []
        | .packed layer _ _ _ =>
          o.report.positions.Tells layer.stash.overflowCount journal.positions ∧
          layer.statistics.accesses = journal.positions.length ∧
          layer.tree.reads = layer.tree.levels * journal.positions.length := by
  obtain ⟨noted, env₁, hnoted⟩ := exists_createNoted h
  refine ⟨noted, env₁, hnoted, fun o journal hwatched => ?_⟩
  have hreachable := Reachable.created h
  have hempty : o₀.Tells ⟨[], noted⟩ := by
    obtain ⟨bounds, slot, -, hcreated⟩ := exists_of_create h
    exact ⟨hcreated.fresh.tells _, PositionMap.tells_of_createNoted hnoted⟩
  have htells := hwatched.tells hreachable hempty
  refine ⟨htells.layer.accesses, htells.layer.stash, (hwatched.reachable hreachable).depth_eq, ?_⟩
  have hpositions := htells.positions
  revert hpositions
  rw [report]
  cases o.positions with
  | scan map => exact fun hp => ⟨rfl, hp⟩
  | packed layer below first size => exact fun hp => ⟨hp.1.stash, hp.1.accesses, hp.2⟩

/-- Seven accesses since a call to clear the memory, one of them refused by its accessor, and two before
it. The call for block 12 does not count. The map was filled with four blocks when it was created. -/
theorem report_packed : ∃ (o₀ o : Oram 2) (noted : List Nat) (journal : Journal)
    (env env₀ : Env WordStream),
    Creation.run (Request.create ⟨0, 4, .bitonic⟩ (.words 16)) env = (.ok (.ok o₀), env₀) ∧
    o₀.Watched WordStream noted o journal ∧
    o.report.layer.accesses = 7 ∧ journal.own.length = 7 ∧
    o.report.layer.stash.current = 1 ∧ o.layer.stash.overflowCount = 1 ∧
    o.report.layer.stash.peak = 1 ∧ journal.own.foldr max 0 = 1 ∧
    o.report.layer.stash.total = 3 ∧ journal.own.sum = 3 ∧
    o.report.layer.depth = 2 ∧ o.positions.depth = 2 ∧
    o.report.positions.current = 0 ∧ o.report.positions.peak = 1 ∧ o.report.positions.total = 1 ∧
    journal.positions.length = 13 ∧ journal.positions.foldr max 0 = 1 ∧ journal.positions.sum = 1 := by
  have hreaches : Request.reaches (w := 2) (α := Unit) ⟨0, 4, .bitonic⟩ (.words 16)
      [.allocate 3, .put 1 #v[5, 6], .access 1 fun data => (.error .integerConversion, data), .clear,
        .allocate 8, .get 0, .get 1, .get 2, .get 12, .get 3, .get 4,
        .access 5 fun data => (.error .integerConversion, data), .get 6]
      ⟨WordStream.ofSeed 564, #[]⟩ (fun o => o.report.layer.accesses == 7 &&
        o.report.layer.stash.current == 1 && o.report.layer.stash.peak == 1 &&
        o.report.layer.stash.total == 3 && o.report.layer.depth == 2 &&
        o.report.positions.current == 0 && o.report.positions.peak == 1 &&
        o.report.positions.total == 1 &&
        o.positions.report?.map (fun r => r.layer.accesses) == some 13) = true := by decide +kernel
  obtain ⟨o₀, o, env₀, env₁, answers, hcreate, hrun, hwanted⟩ := exists_of_reaches hreaches
  simp only [Bool.and_eq_true, beq_iff_eq] at hwanted
  obtain ⟨⟨⟨⟨⟨⟨⟨⟨haccesses, hcurrent⟩, hpeak⟩, htotal⟩, hdepth⟩, hcurrent'⟩, hpeak'⟩, htotal'⟩, hmap⟩ :=
    hwanted
  obtain ⟨noted, env₂, -, htells⟩ := report_of_watched hcreate
  have hcreated : o₀.Watched WordStream noted o₀ ⟨[], noted⟩ := .created
  obtain ⟨journal, hwatched⟩ := hcreated.exists_run hrun
  obtain ⟨hlength, hown, hlayers, hpositions⟩ := htells o journal hwatched
  refine ⟨o₀, o, noted, journal, _, env₀, hcreate, hwatched, haccesses, hlength.symm.trans haccesses,
    hcurrent, hown.current.symm.trans hcurrent, hpeak, hown.peak.symm.trans hpeak, htotal,
    hown.total.symm.trans htotal, hdepth, hlayers.symm.trans hdepth, hcurrent', hpeak', htotal', ?_⟩
  revert hpositions hmap
  cases o.positions with
  | scan map => exact fun hmap => nomatch hmap
  | packed layer below first size =>
    rintro hmap ⟨hstash, hcount, -⟩
    exact ⟨hcount.symm.trans (Option.some.inj hmap), hstash.peak.symm.trans hpeak',
      hstash.total.symm.trans htotal'⟩

end Oram

end ObliviousRam
