import ObliviousRam.Proofs.Lockstep.Stash

namespace ObliviousRam

variable {w : Nat} {σ α μ : Type} {excuse same : Prop} {before before' : List Touch}

def BucketTree.Alike (before before' : List Touch) (t t' : BucketTree w) : Prop :=
  ∃ since, t.history = since ++ before ∧ t' = { t with history := since ++ before' }

namespace BucketTree.Alike

theorem refl (t : BucketTree w) : t.Alike [] [] t :=
  ⟨t.history, (List.append_nil _).symm, by rw [List.append_nil]⟩

variable {t t' : BucketTree w} (h : t.Alike before before' t')
include h

theorem leaves_eq : t'.leaves = t.leaves := by
  obtain ⟨since, -, rfl⟩ := h
  rfl

theorem read (node : Word) :
    Agree (fun x y => x.1 = y.1 ∧ x.2.Alike before before' y.2) (t.read node) (t'.read node) := by
  obtain ⟨since, hhistory, rfl⟩ := h
  rw [BucketTree.read, BucketTree.read]
  by_cases hnode : node.toNat < 2 ^ t.levels - 1
  · rw [dif_pos hnode, dif_pos hnode]
    exact .ok ⟨rfl, .read node :: since, by rw [hhistory, List.cons_append], rfl⟩
  · rw [dif_neg hnode, dif_neg hnode]
    exact .error _

theorem write (node : Word) (bucket : Bucket w) :
    Agree (BucketTree.Alike before before') (t.write node bucket) (t'.write node bucket) := by
  obtain ⟨since, hhistory, rfl⟩ := h
  rw [BucketTree.write, BucketTree.write]
  by_cases hnode : node.toNat < 2 ^ t.levels - 1
  · rw [dif_pos hnode, dif_pos hnode]
    exact .ok ⟨.write node :: since, by rw [hhistory, List.cons_append], rfl⟩
  · rw [dif_neg hnode, dif_neg hnode]
    exact .error _

end BucketTree.Alike

namespace Layer

/-- Layers that differ in no more than the room in their stashes, in their histories up to some point
and, unless they are the `same`, in the paths of their last accesses. -/
structure Alike (same : Prop) (before before' : List Touch) (layer layer' : Layer w) : Prop where
  tree : layer.tree.Alike before before' layer'.tree
  stash : layer.stash.Alike layer'.stash
  path : same → layer'.path = layer.path
  path_length : layer'.path.length = layer.path.length
  capacity : layer'.capacity = layer.capacity
  allocated : layer'.allocated = layer.allocated
  statistics : layer'.statistics = layer.statistics

namespace Alike

theorem refl (layer : Layer w) : layer.Alike same [] [] layer where
  tree := .refl _
  stash := .refl _
  path := fun _ => rfl
  path_length := rfl
  capacity := rfl
  allocated := rfl
  statistics := rfl

variable {layer layer' : Layer w}

theorem exists_eq (h : layer.Alike same before before' layer') : ∃ since overflow,
    layer.tree.history = since ++ before ∧ Slots.Padded layer.stash.overflow overflow ∧
      layer' =
        { layer with
          tree := { layer.tree with history := since ++ before' }
          stash := { layer.stash with overflow }
          path := layer'.path } := by
  obtain ⟨tree, stash, path, capacity, allocated, statistics⟩ := layer
  obtain ⟨tree', stash', path', capacity', allocated', statistics'⟩ := layer'
  obtain ⟨⟨since, hhistory, htree⟩, ⟨overflow, hpadded, hstash⟩, -, -, hcapacity, hallocated,
    hstatistics⟩ := h
  dsimp only at htree hstash hcapacity hallocated hstatistics
  subst htree hstash hcapacity hallocated hstatistics
  exact ⟨since, overflow, hhistory, hpadded, rfl⟩

theorem nodes_eq (h : layer.Alike True before before' layer') : layer'.path.nodes = layer.path.nodes :=
  congrArg Path.nodes (h.path trivial)

def Fetching (before before' : List Touch) (x y : BucketTree w × Stash w × Block w) : Prop :=
  x.1.Alike before before' y.1 ∧ x.2.1.Alike y.2.1 ∧ x.2.2 = y.2.2

theorem fetchBucket (id : Word) (x y : BucketTree w × Stash w × Block w) (e : Word × Nat)
    (h : Fetching before before' x y) :
    Agree (Fetching before before') (Layer.fetchBucket id x e) (Layer.fetchBucket id y e) := by
  obtain ⟨tree, stash, target⟩ := x
  obtain ⟨tree', stash', target'⟩ := y
  obtain ⟨node, level⟩ := e
  obtain ⟨htree, hstash, rfl⟩ := h
  apply (htree.read node).bind
  rintro ⟨bucket, tree⟩ ⟨_, tree'⟩ ⟨rfl, htree⟩
  apply (hstash.load level bucket id target).bind
  rintro ⟨stash, target⟩ ⟨stash', _⟩ ⟨hstash, rfl⟩
  exact .ok ⟨htree, hstash, rfl⟩

theorem fetch (h : layer.Alike True before before' layer') (id : Word) :
    Agree (fun x y => x.1.Alike True before before' y.1 ∧ x.2 = y.2) (layer.fetch id)
      (layer'.fetch id) := by
  have hstart : Fetching before before' (layer.tree, layer.stash, Block.empty)
      (layer'.tree, layer'.stash, Block.empty) := ⟨h.tree, h.stash, rfl⟩
  rw [Layer.fetch, Layer.fetch, h.nodes_eq]
  apply (Agree.foldlM (fetchBucket id) _ hstart).bind
  rintro ⟨tree, stash, target⟩ ⟨tree', stash', _⟩ ⟨htree, hstash, rfl⟩
  apply (hstash.takeOverflow id target).bind
  rintro ⟨stash, target⟩ ⟨stash', _⟩ ⟨hstash, rfl⟩
  exact .ok ⟨⟨htree, hstash, h.path, h.path_length, h.capacity, h.allocated, h.statistics⟩, rfl⟩

theorem gather (h : layer.Alike same before before' layer') (id previous next : Word)
    (use : Accessor w α) :
    Engine.Follows (σ := σ) excuse (fun x y => x.1 = y.1 ∧ x.2.Alike True before before' y.2)
      (layer.gather id previous next use) (layer'.gather id previous next use) := by
  -- Nothing of the old path but its length goes into the new one.
  have hpath : ∀ leaf, layer'.path.retarget leaf = layer.path.retarget leaf := by
    intro leaf
    have hlength : layer'.path.ancestors.length = layer.path.ancestors.length :=
      Nat.succ.inj h.path_length
    rw [Path.retarget, hlength, Path.retarget]
  apply (Engine.Follows.lift (.refl _)).bind
  rintro leaf _ rfl
  rw [hpath leaf]
  apply (Engine.Follows.lift (.refl _)).bind
  rintro path _ rfl
  have hlayer : Alike True before before' { layer with path } { layer' with path } :=
    ⟨h.tree, h.stash, fun _ => rfl, rfl, h.capacity, h.allocated, h.statistics⟩
  apply (Engine.Follows.lift (hlayer.fetch id)).bind
  rintro ⟨layer, target⟩ ⟨layer', _⟩ ⟨h, rfl⟩
  apply (Engine.Follows.lift (.refl _)).bind
  rintro position _ rfl
  apply (h.stash.keep _).bind
  intro stash stash' hstash
  exact .pure ⟨rfl, h.tree, hstash, h.path, h.path_length, h.capacity, h.allocated, h.statistics⟩

theorem writeBucket {stash stash' : Stash w} (hstash : stash.Alike stash') (t t' : BucketTree w)
    (e : Word × Nat) (h : t.Alike before before' t') :
    Agree (BucketTree.Alike before before') (Layer.writeBucket stash t e)
      (Layer.writeBucket stash' t' e) := by
  obtain ⟨node, level⟩ := e
  obtain ⟨overflow, -, rfl⟩ := hstash
  apply (Agree.refl (stash.bucketAt level)).bind
  rintro bucket _ rfl
  exact h.write node bucket

theorem writeBack (h : layer.Alike True before before' layer') :
    Agree (Alike True before before') layer.writeBack layer'.writeBack := by
  rw [Layer.writeBack, Layer.writeBack, h.nodes_eq]
  apply (Agree.foldlM (writeBucket h.stash) _ h.tree).bind
  intro tree tree' htree
  exact .ok ⟨htree, h.stash, h.path, h.path_length, h.capacity, h.allocated, h.statistics⟩

theorem flush (h : layer.Alike True before before' layer') :
    Agree (Alike True before before') layer.flush layer'.flush := by
  apply (h.stash.evict (h.path trivial)).bind
  intro stash stash' hstash
  have hlayer : Alike True before before' { layer with stash } { layer' with stash := stash' } :=
    ⟨h.tree, hstash, h.path, h.path_length, h.capacity, h.allocated, h.statistics⟩
  apply hlayer.writeBack.bind
  intro layer layer' h
  refine .ok ⟨h.tree, h.stash, h.path, h.path_length, h.capacity, h.allocated, ?_⟩
  rw [h.statistics, hstash.overflowCount_eq]

theorem visit (h : layer.Alike same before before' layer') (id previous next : Word)
    (use : Accessor w α) :
    Engine.Follows (σ := σ) excuse (fun x y => x.1 = y.1 ∧ x.2.Alike True before before' y.2)
      (layer.visit id previous next use) (layer'.visit id previous next use) := by
  apply (h.gather id previous next use).bind
  rintro ⟨answer, layer⟩ ⟨_, layer'⟩ ⟨rfl, h⟩
  apply (Engine.Follows.lift h.flush).bind
  intro layer layer' h
  exact .pure ⟨rfl, h⟩

/-- An access does the same to both if the states `positions` and `positions'` tell the same positions
to it. -/
theorem access [LeafSource σ] (h : layer.Alike same before before' layer') {Q : μ → μ → Prop}
    {positions positions' : μ} (hpositions : Q positions positions')
    {relocate relocate' : Word → Word → Engine σ (Except Refusal Word × μ)}
    (hrelocate : ∀ id next, Engine.Follows excuse (fun x y => x.1 = y.1 ∧ Q x.2 y.2)
      (relocate id next) (relocate' id next)) (id : Word) (use : Accessor w α) :
    Engine.Follows excuse
      (fun x y => x.1 = y.1 ∧ x.2.1.Alike same before before' y.2.1 ∧ Q x.2.2 y.2.2)
      (layer.access positions relocate id use) (layer'.access positions' relocate' id use) := by
  rw [Layer.access, Layer.access, h.allocated, h.tree.leaves_eq]
  split
  · apply (Engine.Follows.draw _).bind
    rintro next _ rfl
    apply (hrelocate id next).bind
    rintro ⟨_ | previous, positions⟩ ⟨_, positions'⟩ ⟨rfl, hpositions⟩
    · exact .pure ⟨rfl, h, hpositions⟩
    · apply (h.visit id previous next use).bind
      rintro ⟨answer, layer⟩ ⟨_, layer'⟩ ⟨rfl, h⟩
      -- The paths are the same now, whatever they were before.
      exact .pure ⟨rfl, { h with path := fun _ => h.path trivial }, hpositions⟩
  · exact .pure ⟨rfl, h, hpositions⟩

theorem allocate (h : layer.Alike same before before' layer') (n : Nat) :
    (layer'.allocate n).1 = (layer.allocate n).1 ∧
      (layer.allocate n).2.Alike same before before' (layer'.allocate n).2 := by
  rw [Layer.allocate, Layer.allocate, h.allocated, h.capacity]
  split
  · exact ⟨rfl, h.tree, h.stash, h.path, h.path_length, rfl, rfl, h.statistics⟩
  · exact ⟨rfl, h⟩

theorem clear (h : layer.Alike same before before' layer') :
    layer.clear.Alike same before before' layer'.clear := by
  obtain ⟨overflow, -, hstash⟩ := h.stash
  obtain ⟨since, hhistory, htree⟩ := h.tree
  refine ⟨⟨since, hhistory, ?_⟩, ⟨_, .replicate _ layer'.stash.capacity, ?_⟩, h.path, h.path_length,
    h.capacity, rfl, ?_⟩
  · rw [Layer.clear, htree]
    rfl
  · rw [Layer.clear, hstash]
    rfl
  · exact congrArg Statistics.reset h.statistics

end Alike

end Layer

end ObliviousRam
