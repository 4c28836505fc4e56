import ObliviousRam.Proofs.Oram.Reachable

namespace ObliviousRam

open Slots

variable {w : Nat} {σ α : Type}

theorem BucketTree.mem_slots {t : BucketTree w} {b : Block w} :
    b ∈ t.slots ↔ ∃ x ∈ t.nodes, b ∈ (t.bucket x).toList := by
  rw [t.slots_eq, List.mem_flatMap]

namespace Layer

/-- What an access to block `id` along a path does to all other blocks. -/
structure Settled (layer : Layer w) (id : Word) (path : Path) (layer' : Layer w) : Prop where
  accessed : layer'.path = path
  tree : ∀ x ∈ layer.tree.nodes, ∀ b ∈ (layer.tree.bucket x).toList, b.isEmpty = false →
    b.id ≠ id → ∃ y ∈ layer'.tree.nodes, Node.Below x y ∧ b ∈ (layer'.tree.bucket y).toList
  overflow : ∀ b ∈ stored layer.stash.overflow, b.id ≠ id → b ∈ stored layer'.stash.overflow ∨
    ∃ y ∈ path.nodes, b ∈ (layer'.tree.bucket y).toList
  ids : ids layer'.stash.overflow ⊆ id :: ids layer.stash.overflow
  count : layer'.stash.overflowCount ≤ layer.stash.overflowCount + 1

theorem overflowCount_eq (s : Stash w) : s.overflowCount = (ids s.overflow).length := by
  rw [ids, List.length_map, stored, ← List.countP_eq_length_filter, Stash.overflowCount]

theorem notMem_overflow {layer : Layer w} (h : (Slots.ids layer.slots).Nodup) {x : Word}
    (hx : x ∈ layer.tree.nodes) {b : Block w} (hb : b ∈ (layer.tree.bucket x).toList)
    (hreal : b.isEmpty = false) : b ∉ stored layer.stash.overflow := by
  rw [Slots.ids, slots, stored_append, List.map_append] at h
  intro hover
  have htree : b ∈ stored layer.tree.slots :=
    mem_stored.2 ⟨BucketTree.mem_slots.2 ⟨x, hx, hb⟩, hreal⟩
  exact h.disjoint (List.mem_map_of_mem htree) (List.mem_map_of_mem hover)

variable {layer layer' : Layer w} {previous : Word} {block : Block w}

namespace Visited

variable (hv : layer.Visited previous block layer') (h : (Slots.ids layer.slots).Nodup)
  (hprevious : previous.toNat < 2 ^ (layer.tree.levels - 1))
include hv

theorem nodes_eq : layer'.tree.nodes = layer.tree.nodes := by
  rw [BucketTree.nodes, hv.levels, BucketTree.nodes]

include hprevious

theorem exists_below {x : Word} (hx : x ∈ layer.tree.nodes) {b : Block w}
    (hb : b ∈ (layer.tree.bucket x).toList) (hreal : b.isEmpty = false) (hid : b.id ≠ block.id) :
    ∃ y ∈ layer'.tree.nodes, Node.Below x y ∧ b ∈ (layer'.tree.bucket y).toList := by
  rw [hv.nodes_eq]
  by_cases hpath : x ∈ (layer.tree.pathTo previous).nodes
  · obtain ⟨y, hy, hbelow, hmem⟩ := hv.sinks x hpath b hb hreal hid
    exact ⟨y, layer.tree.mem_nodes_of_mem_pathTo hprevious hy, hbelow, hmem⟩
  · exact ⟨x, hx, .refl, by rwa [hv.frame x hpath]⟩

omit hprevious in
include h in
theorem mem_overflow_or_mem_path {b : Block w} (hb : b ∈ Slots.stored layer.stash.overflow)
    (hid : b.id ≠ block.id) : b ∈ Slots.stored layer'.stash.overflow ∨
      ∃ y ∈ (layer.tree.pathTo previous).nodes, b ∈ (layer'.tree.bucket y).toList := by
  have hstored : b ∈ Slots.stored layer'.slots := by
    apply hv.stored.mem_iff.2
    apply List.mem_cons_of_mem
    rw [List.mem_filter, slots, stored_append]
    exact ⟨List.mem_append_right _ hb, by simpa using hid⟩
  rw [slots, stored_append, List.mem_append] at hstored
  obtain htree | hover := hstored
  · obtain ⟨hmem, hreal⟩ := mem_stored.1 htree
    obtain ⟨y, hy, hmem⟩ := BucketTree.mem_slots.1 hmem
    rw [hv.nodes_eq] at hy
    by_cases hpath : y ∈ (layer.tree.pathTo previous).nodes
    · exact .inr ⟨y, hpath, hmem⟩
    · -- Beside the path nothing has changed, so that the block would have had two copies.
      rw [hv.frame y hpath] at hmem
      exact absurd hb (notMem_overflow h hy hmem hreal)
  · exact .inl hover

include h

theorem ids_overflow_subset :
    Slots.ids layer'.stash.overflow ⊆ block.id :: Slots.ids layer.stash.overflow := by
  intro i hi
  obtain ⟨b, hb, rfl⟩ := List.mem_map.1 hi
  have hstored : b ∈ Slots.stored layer'.slots := by
    rw [slots, stored_append]
    exact List.mem_append_right _ hb
  obtain rfl | hold := List.mem_cons.1 (hv.stored.mem_iff.1 hstored)
  · exact List.mem_cons_self
  · apply List.mem_cons_of_mem
    rw [List.mem_filter, decide_eq_true_iff, slots, stored_append, List.mem_append] at hold
    obtain ⟨htree | hover, hid⟩ := hold
    · obtain ⟨hmem, hreal⟩ := mem_stored.1 htree
      obtain ⟨x, hx, hmem⟩ := BucketTree.mem_slots.1 hmem
      obtain ⟨y, hy, -, hmem⟩ := hv.exists_below hprevious hx hmem hreal hid
      exact absurd hb (notMem_overflow (hv.nodup_ids h) hy hmem hreal)
    · exact List.mem_map_of_mem hover

theorem overflowCount_le : layer'.stash.overflowCount ≤ layer.stash.overflowCount + 1 := by
  have hnodup := hv.nodup_ids h
  rw [Slots.ids, slots, stored_append, List.map_append] at hnodup
  have hsub := hv.ids_overflow_subset h hprevious
  rw [overflowCount_eq, overflowCount_eq, ← List.length_cons]
  exact (hnodup.of_append_right.subperm hsub).length_le

theorem settled : layer.Settled block.id (layer.tree.pathTo previous) layer' where
  accessed := hv.path
  tree := fun _ hx _ hb hreal hid => hv.exists_below hprevious hx hb hreal hid
  overflow := fun _ hb hid => hv.mem_overflow_or_mem_path h hb hid
  ids := hv.ids_overflow_subset h hprevious
  count := hv.overflowCount_le h hprevious

end Visited

end Layer

namespace Oram

variable {o o' : Oram w} {id : Word} {draws : List Word} {data : Vector Word w}

theorem Accessed.settled (h : o.Accessed id draws data o') (ho : o.Sound)
    (hid : id.toNat < o.layer.allocated) :
    o.layer.Settled id (o.layer.tree.pathTo (o.positions.entry id.toNat)) o'.layer := by
  cases h with
  | intro hpositions hlayer =>
    exact hlayer.settled ho.layer.ids_nodup (ho.layer.toNat_entry_lt hid)

variable [LeafSource σ] [LawfulLeafSource σ]

/-- An access leaves each other block where it was or nearer to its leaf, and adds at most its own
block to the overflow region. So does the access that it makes in each memory of the map. -/
theorem settled_of_reachable (h : o.Reachable σ) {command : Command w α}
    (hid : command.target? o.layer.allocated = some id) (env : Env σ) :
    ∃ answer o' env', (o.step command).run env = (.ok (answer, o'), env') ∧
      o.layer.Settled id (o.layer.tree.pathTo (o.positions.entry id.toNat)) o'.layer ∧
      List.Forall₂ (fun p p' => ∃ i, i.toNat < p.layer.allocated ∧
          p.layer.Settled i (p.layer.tree.pathTo (p.positions.entry i.toNat)) p'.layer)
        o.positions.memories o'.positions.memories := by
  obtain ⟨answer, o', env', data, hrun, hlt, -, haccessed⟩ := h.sound.exists_accessed hid env
  have hmemories := haccessed.memories (R := fun p p' => ∃ i, i.toNat < p.layer.allocated ∧
      p.layer.Settled i (p.layer.tree.pathTo (p.positions.entry i.toNat)) p'.layer)
    (fun p p' i _ _ hp hi ha => ⟨i, hi, ha.settled hp hi⟩) h.sound hlt
  exact ⟨answer, o', env', hrun, haccessed.settled h.sound hlt, (List.forall₂_cons.1 hmemories).2⟩

theorem settled_overflowing : ∃ o : Oram 1, o.Reachable WordStream ∧
    o.layer.stash.overflowCount = 1 ∧
    Command.target? (α := Unit) o.layer.allocated (.put 0 #v[7]) = some 0 ∧
    ∀ env : Env WordStream, ∃ answer o' env',
      (o.step (α := Unit) (.put 0 #v[7])).run env = (.ok (answer, o'), env') ∧
      o.layer.Settled 0 (o.layer.tree.pathTo (o.positions.entry 0)) o'.layer ∧
      List.Forall₂ (fun p p' => ∃ i : Word, i.toNat < p.layer.allocated ∧
          p.layer.Settled i (p.layer.tree.pathTo (p.positions.entry i.toNat)) p'.layer)
        o.positions.memories o'.positions.memories := by
  have hreaches : Request.reaches (w := 1) (α := Unit) ⟨1, 4, .bitonic⟩ (.words 4)
      [.allocate 4, .get 0, .get 1, .get 2, .get 3]
      ⟨(⟨0, #[0, 0, 0, 0, 2 ^ 63, 2 ^ 63, 2 ^ 63, 2 ^ 63], false, 0⟩ : WordStream), #[]⟩
      (fun o => o.layer.stash.overflowCount == 1 && o.layer.allocated == 4) = true := by
    decide +kernel
  obtain ⟨o₀, o, env₀, env₁, answers, hcreate, hrun, hwanted⟩ := exists_of_reaches hreaches
  rw [Bool.and_eq_true, beq_iff_eq, beq_iff_eq] at hwanted
  have htarget : Command.target? (α := Unit) o.layer.allocated (.put 0 #v[7]) = some 0 := by
    rw [hwanted.2]
    rfl
  have hreachable := (Reachable.created hcreate).run hrun
  exact ⟨o, hreachable, hwanted.1, htarget, settled_of_reachable hreachable htarget⟩

end Oram

end ObliviousRam
