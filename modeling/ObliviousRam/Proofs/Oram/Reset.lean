import ObliviousRam.Proofs.Oram.Clearing

namespace ObliviousRam

variable {w : Nat} {σ : Type}

structure Occupancy.Unused (o : Occupancy) : Prop where
  current : o.current = 0
  peak : o.peak = 0
  total : o.total = 0

theorem Occupancy.unused_zero : zero.Unused := ⟨rfl, rfl, rfl⟩

/-- But for averages, a report is that of a new memory of the given depth. -/
structure Statistics.Report.Blank (r : Statistics.Report) (depth : Nat) : Prop where
  accesses : r.layer.accesses = 0
  stash : r.layer.stash.Unused
  depth : r.layer.depth = depth
  positions : r.positions.Unused

namespace Oram

variable {o : Oram w}

theorem report_clear (o : Oram w) : ({ o with layer := o.layer.clear } : Oram w).report =
    ⟨.start o.report.layer.depth, o.report.positions⟩ := rfl

variable [LeafSource σ] [LawfulLeafSource σ]

/-- Once a memory is cleared, its own numbers start from zero. The layer that its map is packed into is
left alone, with the blocks in its overflow region and all that it has counted. So the whole report is
that of a new memory if the map is scanned. -/
theorem report_of_clear (h : o.Reachable σ) (env : Env σ) :
    ∃ c env', o.clear.run env = (.ok c, env') ∧
      c.report.layer.accesses = 0 ∧ c.report.layer.stash.Unused ∧
      c.report.layer.depth = o.report.layer.depth ∧ c.depth = o.depth ∧ c.report.layer.depth = c.depth ∧
      c.positions = o.positions ∧ c.report.positions = o.report.positions ∧
      match o.positions with
      | .scan _ => c.report.Blank o.depth
      | .packed layer _ _ _ => c.report.positions = layer.statistics.stash ∧
        c.report.positions.current = layer.stash.overflowCount := by
  refine ⟨_, _, rfl, rfl, Occupancy.unused_zero, rfl, rfl, h.depth_eq, rfl, rfl, ?_⟩
  have hcurrent := h.current
  rw [report_clear]
  cases hpositions : o.positions with
  | scan map =>
    have hzero : o.report.positions = .zero := by rw [report, hpositions]; rfl
    rw [hzero]
    exact ⟨rfl, Occupancy.unused_zero, h.depth_eq, Occupancy.unused_zero⟩
  | packed layer below first size =>
    have hstash : o.report.positions = layer.statistics.stash := by rw [report, hpositions]; rfl
    have hmap : (⟨layer, below⟩ : Oram w) ∈ o :: o.positions.memories := by
      rw [hpositions]
      exact List.mem_cons_of_mem _ List.mem_cons_self
    exact ⟨hstash, (congrArg Occupancy.current hstash).trans (hcurrent _ hmap)⟩

/-- A map that is packed into four blocks, one of which is in the overflow region. -/
theorem exists_crowded_map : ∃ o : Oram 2, o.Reachable WordStream ∧ o.report.layer.accesses = 1 ∧
    o.report.positions.current = 1 ∧ o.report.positions.peak = 1 ∧ o.report.positions.total = 1 := by
  have hreaches : Request.reaches (w := 2) (α := Unit) ⟨0, 4, .bitonic⟩ (.words 16)
      [.allocate 8, .put 3 #v[5, 6]] ⟨WordStream.ofSeed 0, #[]⟩ (fun o =>
        o.report.layer.accesses == 1 && o.report.positions.current == 1 &&
        o.report.positions.peak == 1 && o.report.positions.total == 1) = true := by decide +kernel
  obtain ⟨_, o, _, _, _, hcreate, hrun, hwanted⟩ := exists_of_reaches hreaches
  simp only [Bool.and_eq_true, beq_iff_eq] at hwanted
  obtain ⟨⟨⟨haccesses, hcurrent⟩, hpeak⟩, htotal⟩ := hwanted
  exact ⟨o, (Reachable.created hcreate).run hrun, haccesses, hcurrent, hpeak, htotal⟩

/-- What was counted for a packed map outlives a call to clear the memory. -/
theorem report_not_blank : ¬∀ (o c : Oram 2) (env env' : Env WordStream), o.Reachable WordStream →
    o.clear.run env = (.ok c, env') → c.report.Blank o.depth := by
  intro hblank
  obtain ⟨o, ho, -, hcurrent, -⟩ := exists_crowded_map
  have hzero := (hblank o _ ⟨WordStream.ofSeed 0, #[]⟩ _ ho rfl).positions.current
  rw [report_clear, hcurrent] at hzero
  cases hzero

theorem report_of_crowded : ∃ (o c : Oram 2) (env env' : Env WordStream), o.Reachable WordStream ∧
    o.report.layer.accesses = 1 ∧ o.report.positions.current = 1 ∧
    o.clear.run env = (.ok c, env') ∧ c.report.layer.accesses = 0 ∧ c.report.layer.stash.Unused ∧
    c.report.layer.depth = o.report.layer.depth ∧ c.report.positions.current = 1 ∧
    c.report.positions.peak = 1 ∧ c.report.positions.total = 1 := by
  obtain ⟨o, ho, haccesses, hcurrent, hpeak, htotal⟩ := exists_crowded_map
  obtain ⟨c, env', hrun, haccesses', hstash, hdepth, -, -, -, hpositions, -⟩ :=
    report_of_clear ho ⟨WordStream.ofSeed 0, #[]⟩
  rw [← hpositions] at hpeak htotal
  exact ⟨o, c, _, env', ho, haccesses, hcurrent, hrun, haccesses', hstash, hdepth,
    hpositions ▸ hcurrent, hpeak, htotal⟩

end Oram

end ObliviousRam
