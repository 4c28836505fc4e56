import ObliviousRam.Proofs.Oram.Life
import ObliviousRam.Proofs.Oram.Reachable

namespace ObliviousRam

open LeafSource Visit

variable {w : Nat} {σ α : Type}

/-- A layer was accessed once. Its path was read and written, and nothing beside it was touched. -/
structure Layer.Toured (layer layer' : Layer w) : Prop where
  levels : layer'.tree.levels = layer.tree.levels
  path : ∃ n : Word, n < layer.tree.leaves ∧ layer'.path = layer.tree.pathTo n
  history : layer'.tree.history = layer'.path.touches.reverse ++ layer.tree.history
  reads : layer'.tree.reads = layer.tree.reads + layer.tree.levels
  writes : layer'.tree.writes = layer.tree.writes + layer.tree.levels
  accesses : layer'.statistics.accesses = layer.statistics.accesses + 1
  frame : ∀ x ∉ layer'.path.nodes, layer'.tree.bucket x = layer.tree.bucket x

structure Layer.Tallied (layer : Layer w) (accesses : Nat) : Prop where
  reads : layer.tree.reads = layer.tree.levels * accesses
  writes : layer.tree.writes = layer.tree.levels * accesses

/-- How often the layers of a map were accessed, if there were so many accesses above them. Each
block of a layer was written once when the map was created. -/
def PositionMap.accessCounts : PositionMap w → Nat → List Nat
  | scan _, _ => []
  | packed layer below _ _, above =>
    (layer.capacity + above) :: below.accessCounts (layer.capacity + above)

theorem Layer.Visited.toured {layer layer' : Layer w} {previous : Word} {block : Block w}
    (hv : layer.Visited previous block layer') (hprevious : previous < layer.tree.leaves) :
    layer.Toured layer' where
  levels := hv.levels
  path := ⟨previous, hprevious, hv.path⟩
  history := by rw [hv.history, hv.path]
  reads := hv.reads_eq
  writes := hv.writes_eq
  accesses := hv.accesses_eq
  frame := by
    rw [hv.path]
    exact hv.frame

namespace Visit

variable (levels : Nat) (hlevels : 0 < levels) (draws : List Word) (birth : Nat → Nat)
  (visits : List Visit)
include hlevels

theorem countP_trail {kind : Touch → Bool} (hkind : ∀ n, kind (.write n) = !kind (.read n)) :
    (trail levels draws birth visits).countP kind = levels * visits.length := by
  induction visits with
  | nil => rfl
  | cons v earlier ih =>
    rw [trail, List.countP_append, List.countP_reverse, Path.countP_touches _ hkind,
      Path.length_ofLeaf _ _ hlevels, ih, List.length_cons, Nat.mul_succ, Nat.add_comm]

omit hlevels in
theorem length_written (stride count id start : Nat) :
    (written w stride count id start).length = count := by
  induction count generalizing id start with
  | zero => rfl
  | succ count ih => rw [written, List.length_append, ih, List.length_singleton]

end Visit

namespace Oram

variable {o o' : Oram w} {draws : List Word} {birth : Nat → Nat} {visits : List Visit}

theorem Chronicle.tallied (h : o.Chronicle draws birth visits) : o.layer.Tallied visits.length where
  reads := by
    rw [BucketTree.reads, h.history]
    exact countP_trail _ o.layer.tree.levels_pos _ _ _ fun _ => rfl
  writes := by
    rw [BucketTree.writes, h.history]
    exact countP_trail _ o.layer.tree.levels_pos _ _ _ fun _ => rfl

end Oram

theorem PositionMap.Chronicled.tallied [LeafSource σ] {m : PositionMap w} {draws : List Word}
    {asked : List Visit} (h : m.Chronicled σ draws asked) :
    List.Forall₂ (fun p n => p.layer.Tallied n) m.memories (m.accessCounts asked.length) := by
  induction m generalizing asked with
  | scan => exact .nil
  | packed layer below first size ih =>
    obtain ⟨birth, start, -, hlayer, hbelow⟩ := h
    have htallied := hlayer.tallied
    have hrest := ih hbelow
    rw [List.length_append, length_written, List.length_map, Nat.add_comm] at htallied hrest
    exact .cons htallied hrest

theorem Layer.Counted.accesses_eq {layer : Layer w} (h : layer.Counted) {n : Nat}
    (hn : layer.Tallied n) : layer.statistics.accesses = n :=
  Nat.eq_of_mul_eq_mul_left layer.tree.levels_pos (h.reads.symm.trans hn.reads)

theorem PositionMap.Counted.accesses_eq {m : PositionMap w} (h : m.Counted) {ns : List Nat}
    (hn : List.Forall₂ (fun p n => p.layer.Tallied n) m.memories ns) :
    m.memories.map (fun p => p.layer.statistics.accesses) = ns := by
  induction m generalizing ns with
  | scan =>
    cases hn
    rfl
  | packed layer below first size ih =>
    rw [counted_packed] at h
    rw [memories, List.forall₂_cons_left_iff] at hn
    obtain ⟨n, ns, htallied, hrest, rfl⟩ := hn
    rw [memories, List.map_cons, ih h.2 hrest, h.1.accesses_eq htallied]

namespace Oram

theorem leafCounts_eq (o : Oram w) :
    o.leafCounts = (o :: o.positions.memories).map fun p => p.layer.tree.leaves := by
  rw [leafCounts, List.map_cons]
  congr 1
  induction o.positions with
  | scan => rfl
  | packed layer below first size ih =>
    rw [PositionMap.leafCounts, ih, PositionMap.memories, List.map_cons]

theorem length_leafCounts (o : Oram w) : o.leafCounts.length = o.depth := by
  rw [leafCounts, List.length_cons, depth]
  induction o.positions with
  | scan => rfl
  | packed layer below first size ih =>
    rw [PositionMap.leafCounts, List.length_cons, ih, PositionMap.depth]

section

variable {o o' : Oram w} {id : Word} {draws : List Word} {data : Vector Word w}

theorem Accessed.toured (h : o.Accessed id draws data o') (ho : o.Sound)
    (hid : id.toNat < o.layer.allocated) : o.layer.Toured o'.layer := by
  cases h with
  | intro hpositions hlayer =>
    apply hlayer.toured
    apply ho.layer.entry_lt
    exact Nat.lt_of_lt_of_le hid ho.layer.allocated_le

end

variable [LeafSource σ] [LawfulLeafSource σ] {o o₀ : Oram w}

omit [LawfulLeafSource σ] in
theorem Life.reachable {env₀ env : Env (Recorded σ)} {visits : List Visit}
    (h : Life o₀ env₀ o env visits) (h₀ : o₀.Reachable (Recorded σ)) : o.Reachable (Recorded σ) := by
  induction h with
  | created => exact h₀
  | called _ hstep ih => exact ih.step hstep
  | waited _ _ ih => exact ih

omit [LawfulLeafSource σ] in
theorem Created.lived {bounds : List Word} {slot : Nat → Nat} (s : Recorded σ)
    (h : o.Created (Recorded σ) bounds (drawAll bounds s).1 slot) :
    o.Lived (drawAll bounds s).2 (fun i => s.values.length + slot i) [] := by
  refine ⟨h.sound, ?_, ?_, fun _ hv => absurd hv List.not_mem_nil⟩
  · rw [Recorded.values_drawAll]
    exact Chronicle.born o _ h.fresh.history h.drawn.injective h.drawn.value
  · rw [Recorded.values_drawAll]
    exact h.chronicled _

/-- Each access makes one access in every memory of the map, one draw below the number of leaves of
each layer, and nothing else that could be seen. So each layer has read and written as many paths as
there were accesses to it, of which those above it come on top of one for each of its blocks. -/
theorem toured_of_create {config : Config} {request : Request} {env env₀ env₁ : Env (Recorded σ)}
    (h : Creation.run (request.create config) env = (.ok (.ok o₀), env₀)) {visits : List Visit}
    (hlife : Life o₀ env₀ o env₁ visits) :
    List.Forall₂ (fun p n => p.layer.Tallied n) (o :: o.positions.memories)
        (visits.length :: o.positions.accessCounts visits.length) ∧
      o.positions.memories.map (fun p => p.layer.statistics.accesses) =
        o.positions.accessCounts visits.length ∧
      ∀ (command : Command w α) (id : Word), command.target? o.layer.allocated = some id →
        ∃ answer o' env₂ draws, (o.step command).run env₁ = (.ok (answer, o'), env₂) ∧
          List.Forall₂ (fun p p' => p.layer.Toured p'.layer) (o :: o.positions.memories)
            (o' :: o'.positions.memories) ∧
          env₂.source.draws = env₁.source.draws ++ draws ∧
          draws.map Draw.bound = (o :: o.positions.memories).map (fun p => p.layer.tree.leaves) ∧
          draws.length = o.depth := by
  have hreachable := hlife.reachable (.created h)
  obtain ⟨bounds, slot, hsource, hcreated⟩ := exists_of_create h
  have hlived := hlife.lived (hsource ▸ hcreated.lived env.source)
  have hmap := hlived.chronicled.tallied
  refine ⟨.cons hlived.chronicle.tallied hmap, hreachable.counted.accesses_eq hmap, ?_⟩
  intro command id hid
  obtain ⟨answer, o', env₂, data, hrun, hlt, hsource₂, ha⟩ :=
    hlived.sound.exists_accessed hid env₁
  have hlength := length_drawAll o.leafCounts env₁.source
  refine ⟨answer, o', env₂, List.zipWith Draw.mk o.leafCounts (drawAll o.leafCounts env₁.source).1,
    hrun, ?_, ?_, ?_, ?_⟩
  · exact ha.memories (fun p p' _ _ _ hp hi ha => ha.toured hp hi) hlived.sound hlt
  · rw [hsource₂, Recorded.draws_drawAll]
  · rw [← leafCounts_eq, ← List.map_uncurry_zip_eq_zipWith, List.map_map]
    exact List.map_fst_zip hlength.ge
  · rw [List.length_zipWith, hlength, Nat.min_self, length_leafCounts]

theorem toured_packed : ∃ (o₀ o : Oram 2) (env env₀ env₁ : Env (Recorded WordStream))
    (visits : List Visit),
    Creation.run (Request.create ⟨0, 1, .bitonic⟩ (.words 8)) env = (.ok (.ok o₀), env₀) ∧
    Life o₀ env₀ o env₁ visits ∧ o.depth = 3 ∧
    Command.target? (α := Unit) o.layer.allocated (.put 1 #v[5, 6]) = some 1 ∧
    List.Forall₂ (fun p n => p.layer.Tallied n) (o :: o.positions.memories)
        (visits.length :: o.positions.accessCounts visits.length) ∧
      o.positions.memories.map (fun p => p.layer.statistics.accesses) =
        o.positions.accessCounts visits.length ∧
      ∃ answer o' env₂ draws,
        (o.step (α := Unit) (.put 1 #v[5, 6])).run env₁ = (.ok (answer, o'), env₂) ∧
          List.Forall₂ (fun p p' => p.layer.Toured p'.layer) (o :: o.positions.memories)
            (o' :: o'.positions.memories) ∧
          env₂.source.draws = env₁.source.draws ++ draws ∧
          draws.map Draw.bound = (o :: o.positions.memories).map (fun p => p.layer.tree.leaves) ∧
          draws.length = o.depth := by
  have hreaches : Request.reaches (w := 2) (α := Unit) ⟨0, 1, .bitonic⟩ (.words 8)
      [.allocate 3, .get 2, .clear, .allocate 2]
      ⟨(⟨WordStream.ofSeed 1, []⟩ : Recorded WordStream), #[]⟩
      (fun o => o.depth == 3 && o.layer.allocated == 2) = true := by decide +kernel
  obtain ⟨o₀, o, env₀, env₁, answers, hcreate, hrun, hwanted⟩ := exists_of_reaches hreaches
  rw [Bool.and_eq_true, beq_iff_eq, beq_iff_eq] at hwanted
  have hlife := Life.created.run hrun
  have htarget : Command.target? (α := Unit) o.layer.allocated (.put 1 #v[5, 6]) = some 1 := by
    rw [hwanted.2]
    rfl
  obtain ⟨htallied, haccesses, hstep⟩ := toured_of_create hcreate hlife
  exact ⟨o₀, o, _, env₀, env₁, _, hcreate, hlife, hwanted.1, htarget, htallied, haccesses,
    hstep _ _ htarget⟩

end Oram

end ObliviousRam
