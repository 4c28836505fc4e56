import ObliviousRam.Proofs.Oram.Evictions
import ObliviousRam.Proofs.Relabelling.Stash

namespace ObliviousRam

variable {w v : Nat} {σ α β γ μ ν : Type}

theorem Engine.lift_map {γ δ : Type} (f : γ → δ) (x : Except Fault γ) :
    (liftM (f <$> x) : Engine σ δ) = f <$> liftM x := by
  cases x <;> rfl

namespace Relabelling

variable (r : Relabelling w v)

def tree (t : BucketTree w) : BucketTree v :=
  ⟨t.levels, t.levels_pos, t.levels_lt, t.buckets.map r.bucket, t.history⟩

def layer (layer : Layer w) : Layer v :=
  ⟨r.tree layer.tree, r.stash layer.stash, layer.path, layer.capacity, layer.allocated,
    layer.statistics⟩

@[simp] theorem layer_stash (layer : Layer w) : (r.layer layer).stash = r.stash layer.stash := rfl

theorem read_tree (t : BucketTree w) (node : Word) :
    (r.tree t).read node = Prod.map r.bucket r.tree <$> t.read node := by
  by_cases h : node.toNat < 2 ^ t.levels - 1
  · simp only [BucketTree.read, tree, h, ↓reduceDIte, Vector.getElem_map]
    rfl
  · simp only [BucketTree.read, tree, h, ↓reduceDIte]
    rfl

theorem write_tree (t : BucketTree w) (node : Word) (b : Bucket w) :
    (r.tree t).write node (r.bucket b) = r.tree <$> t.write node b := by
  by_cases h : node.toNat < 2 ^ t.levels - 1
  · simp only [BucketTree.write, tree, h, ↓reduceDIte, Functor.map, Except.map, Vector.map_set]
  · simp only [BucketTree.write, tree, h, ↓reduceDIte]
    rfl

def fetching (x : BucketTree w × Stash w × Block w) : BucketTree v × Stash v × Block v :=
  (r.tree x.1, r.stash x.2.1, r.block x.2.2)

theorem fetchBucket_fetching (id : Word) (x : BucketTree w × Stash w × Block w) (e : Word × Nat) :
    Layer.fetchBucket (r.id id) (r.fetching x) e = r.fetching <$> Layer.fetchBucket id x e := by
  obtain ⟨tree, stash, target⟩ := x
  obtain ⟨node, level⟩ := e
  apply bind_map_congr (r.read_tree tree node)
  rintro ⟨bucket, tree⟩
  apply bind_map_congr (r.load_stash stash level bucket id target)
  rintro ⟨stash, target⟩
  rfl

theorem fetch_layer (layer : Layer w) (id : Word) :
    (r.layer layer).fetch (r.id id) = Prod.map r.layer r.block <$> layer.fetch id := by
  have hstart : ((r.layer layer).tree, (r.layer layer).stash, Block.empty) =
      r.fetching (layer.tree, layer.stash, Block.empty) := by
    rw [fetching, r.block_empty]
    rfl
  rw [Layer.fetch, Layer.fetch, hstart]
  apply bind_map_congr (foldlM_map_congr (r.fetchBucket_fetching id) _ _)
  rintro ⟨tree, stash, target⟩
  apply bind_map_congr (r.takeOverflow_stash stash id target)
  rintro ⟨stash, target⟩
  rfl

theorem keep_stash (s : Stash w) (block : Block w) :
    (r.stash s).keep (σ := σ) (r.block block) = r.stash <$> s.keep block := by
  rw [Stash.keep, Stash.keep, r.isFull_stash, r.capacity_stash, r.insert_stash]
  split
  · rw [map_bind]
    rfl
  · rfl

theorem writeBucket_tree (stash : Stash w) (tree : BucketTree w) (e : Word × Nat) :
    Layer.writeBucket (r.stash stash) (r.tree tree) e = r.tree <$> Layer.writeBucket stash tree e := by
  obtain ⟨node, level⟩ := e
  apply bind_map_congr (r.bucketAt_stash stash level)
  intro bucket
  exact r.write_tree tree node bucket

theorem writeBack_layer (layer : Layer w) :
    (r.layer layer).writeBack = r.layer <$> layer.writeBack := by
  apply bind_map_congr (foldlM_map_congr (r.writeBucket_tree layer.stash) _ layer.tree)
  intro tree
  rfl

theorem flush_layer (layer : Layer w) : (r.layer layer).flush = r.layer <$> layer.flush := by
  apply bind_map_congr (r.evict_stash layer.stash layer.path)
  intro stash
  rw [r.overflowCount_stash]
  apply bind_map_congr (r.writeBack_layer { layer with stash })
  intro layer
  rfl

theorem allocate_layer (layer : Layer w) (n : Nat) :
    (r.layer layer).allocate n = Prod.map (fun first => first) r.layer (layer.allocate n) := by
  have hallocated : (r.layer layer).allocated = layer.allocated := rfl
  have hcapacity : (r.layer layer).capacity = layer.capacity := rfl
  rw [Layer.allocate, Layer.allocate, hallocated, hcapacity]
  split <;> rfl

theorem clear_layer (layer : Layer w) : (r.layer layer).clear = r.layer layer.clear := by
  have htree : (r.tree layer.tree).clear = r.tree layer.tree.clear := by
    rw [tree, tree, BucketTree.clear, BucketTree.clear, Vector.map_replicate, r.bucket_empty]
  have hstash : (r.stash layer.stash).clear = r.stash layer.stash.clear := by
    rw [Stash.clear, Stash.clear, r.levels_stash, r.capacity_stash, stash, stash, List.map_replicate,
      List.map_replicate, r.bucket_empty, r.block_empty]
  rw [Layer.clear, Layer.clear, layer_stash, hstash]
  exact congrArg (fun tree => Layer.mk tree _ _ _ _ _) htree

section Access

/-- Two accessors that store the same data, seen as it is relabelled, and answer the same, as far as
`f` and `f'` show of it. -/
structure Matches (f : Except Refusal α → γ) (f' : Except Refusal β → γ) (use : Accessor w α)
    (use' : Accessor v β) : Prop where
  answer : ∀ data, f' (use' (r.data data)).1 = f (use data).1
  data : ∀ data, (use' (r.data data)).2 = r.data (use data).2
  refusal : ∀ refusal, f' (.error refusal) = f (.error refusal)

variable {r} {f : Except Refusal α → γ} {f' : Except Refusal β → γ} {use : Accessor w α}
  {use' : Accessor v β} (h : r.Matches f f' use use')
include h

theorem Matches.gather (layer : Layer w) (id previous next : Word) :
    (fun x => (f' x.1, x.2)) <$> (r.layer layer).gather (σ := σ) (r.id id) previous next use' =
      (fun x => (f x.1, r.layer x.2)) <$> layer.gather id previous next use := by
  rw [Layer.gather, Layer.gather, map_bind]
  apply bind_map_congr (id_map _).symm
  intro leaf
  rw [map_bind]
  apply bind_map_congr (id_map _).symm
  intro path
  rw [map_bind]
  have hfetch := congrArg (liftM (n := Engine σ)) (r.fetch_layer { layer with path } id)
  rw [Engine.lift_map] at hfetch
  apply bind_map_congr hfetch
  rintro ⟨layer, target⟩
  rw [map_bind]
  apply bind_map_congr (id_map _).symm
  intro position
  have hkept : (fun x => (f' x.1, x.2)) <$> (do
        let stash ← (r.stash layer.stash).keep (r.block ⟨id, position, (use target.data).2⟩)
        return ((use' (r.data target.data)).1, { r.layer layer with stash }) : Engine σ _) =
      (fun x => (f x.1, r.layer x.2)) <$> (do
        let stash ← layer.stash.keep ⟨id, position, (use target.data).2⟩
        return ((use target.data).1, { layer with stash }) : Engine σ _) := by
    rw [map_bind]
    apply bind_map_congr (r.keep_stash layer.stash ⟨id, position, (use target.data).2⟩)
    intro stash
    rw [map_pure, h.answer]
    rfl
  rw [block, ← h.data target.data] at hkept
  exact hkept

theorem Matches.visitSized (layer : Layer w) (id previous next : Word) :
    (fun x => (f' x.1, x.2)) <$> (r.layer layer).visitSized (σ := σ) (r.id id) previous next use' =
      (fun x => (f x.1, r.layer x.2.1, x.2.2)) <$> layer.visitSized id previous next use := by
  have hflush : ∀ layer : Layer w, (do
        return (← (r.layer layer).flush, (r.layer layer).stash.candidates.length) : Engine σ _) =
      (fun x => (r.layer x.1, x.2)) <$> (do
        return (← layer.flush, layer.stash.candidates.length) : Engine σ _) := by
    intro layer
    have hlift := congrArg (liftM (n := Engine σ)) (r.flush_layer layer)
    rw [Engine.lift_map] at hlift
    apply bind_map_congr hlift
    intro flushed
    rw [layer_stash, r.candidates_stash, List.length_map, map_pure]
  calc (fun x => (f' x.1, x.2)) <$> (r.layer layer).visitSized (σ := σ) (r.id id) previous next use'
    _ = (fun x => (f' x.1, x.2)) <$> (r.layer layer).gather (r.id id) previous next use' >>=
        fun x => Prod.mk x.1 <$> (do
          return (← x.2.flush, x.2.stash.candidates.length) : Engine σ _) := by
      simp only [Layer.visitSized, map_bind, map_pure, bind_map_left]
    _ = layer.gather id previous next use >>= fun x =>
        (fun y => (f x.1, r.layer y.1, y.2)) <$> (do
          return (← x.2.flush, x.2.stash.candidates.length) : Engine σ _) := by
      rw [h.gather, bind_map_left]
      apply bind_congr
      intro x
      rw [hflush x.2, Functor.map_map]
    _ = (fun x => (f x.1, r.layer x.2.1, x.2.2)) <$> layer.visitSized id previous next use := by
      simp only [Layer.visitSized, map_bind, map_pure]

theorem Matches.accessSized [LeafSource σ] (layer : Layer w) {id : Word}
    (hid : (r.id id).toNat < layer.allocated ↔ id.toNat < layer.allocated) (positions : μ) (k : μ → ν)
    {relocate : Word → Word → Engine σ (Except Refusal Word × μ × List Nat)}
    {relocate' : Word → Word → Engine σ (Except Refusal Word × ν × List Nat)}
    (hrelocate : ∀ next, relocate' (r.id id) next =
      (fun x => (x.1, k x.2.1, x.2.2)) <$> relocate id next) :
    (fun x => (f' x.1, x.2)) <$>
        (r.layer layer).accessSized (k positions) relocate' (r.id id) use' =
      (fun x => (f x.1, r.layer x.2.1, k x.2.2.1, x.2.2.2)) <$>
        layer.accessSized positions relocate id use := by
  have hallocated : (r.layer layer).allocated = layer.allocated := rfl
  have hleaves : (r.layer layer).tree.leaves = layer.tree.leaves := rfl
  rw [Layer.accessSized, Layer.accessSized, hallocated, hleaves]
  by_cases hlt : id.toNat < layer.allocated
  · rw [if_pos hlt, if_pos (hid.2 hlt), map_bind]
    apply bind_map_congr (id_map _).symm
    intro next
    rw [map_bind]
    apply bind_map_congr (hrelocate next)
    rintro ⟨_ | previous, positions, sizes⟩
    · rw [map_pure, map_pure, h.refusal]
    · have hvisit := congrArg
        (· >>= fun x => (pure (x.1, x.2.1, k positions, x.2.2 :: sizes) : Engine σ _))
        (h.visitSized (σ := σ) layer id previous next)
      simp only [bind_map_left] at hvisit
      simp only [map_bind, map_pure]
      exact hvisit
  · rw [if_neg hlt, if_neg (hid.not.2 hlt), map_pure, map_pure, h.refusal]

end Access

end Relabelling

end ObliviousRam
