import ObliviousRam.Proofs.Engine
import ObliviousRam.Proofs.Layer.Contents

namespace ObliviousRam

open Slots

variable {w : Nat} {σ : Type}

namespace Layer

theorem sound_of_empty {layer : Layer w} {entry : Nat → Word} {n : Nat}
    (hslots : layer.slots = List.replicate n Block.empty)
    (hstash : layer.stash.levels = layer.tree.levels) (hpath : layer.path.length = layer.tree.levels)
    (hallocated : layer.allocated ≤ layer.capacity) (hcapacity : layer.capacity < 2 ^ 64)
    (hentry : ∀ i < layer.capacity, entry i < layer.tree.leaves) : layer.Sound entry := by
  have hempty : ∀ b ∈ layer.slots, b = Block.empty := by
    rw [hslots]
    exact fun b hb => List.eq_of_mem_replicate hb
  have hstored : stored layer.slots = [] := by rw [hslots, stored_replicate]
  refine ⟨hstash, hpath, hallocated, hcapacity, ?_, ?_, ?_, ?_, hentry, fun b hb _ => hempty b hb, ?_⟩
  · rw [ids, hstored]
    exact List.nodup_nil
  · rw [hstored]
    exact fun b hb => absurd hb List.not_mem_nil
  · intro x hx b hb hreal
    have hslot : b ∈ layer.tree.slots := by
      rw [BucketTree.slots_eq]
      exact List.mem_flatMap.2 ⟨x, hx, hb⟩
    rw [hempty b (List.mem_append_left _ hslot), Block.isEmpty_empty] at hreal
    cases hreal
  · rw [hstored]
    exact fun b hb => absurd hb List.not_mem_nil
  · apply List.pairwise_of_forall_mem_list
    intro a _ b hb _
    rw [hempty b (List.mem_append_right _ hb), Block.isEmpty_empty]

theorem contents_of_empty {layer : Layer w} {n : Nat}
    (hslots : layer.slots = List.replicate n Block.empty) (id : Word) :
    layer.contents id = Vector.replicate w Word.allOnes := by
  rw [contents, hslots, pick, List.find?_replicate]
  split
  · rfl
  · split <;> rfl

theorem exists_slots_clear (layer : Layer w) :
    ∃ n, layer.clear.slots = List.replicate n Block.empty := by
  have htree := layer.tree.clear.slots_of_empty rfl
  refine ⟨(2 ^ layer.tree.clear.levels - 1) * Bucket.capacity + layer.stash.capacity, ?_⟩
  rw [slots, clear, htree, Stash.clear, List.replicate_append_replicate]

namespace Sound

variable {layer : Layer w} {entry : Nat → Word} (h : layer.Sound entry)
include h

theorem clear : layer.clear.Sound entry := by
  obtain ⟨n, hslots⟩ := layer.exists_slots_clear
  refine sound_of_empty hslots ?_ h.path_length (Nat.zero_le _) h.capacity_lt h.entry_lt
  rw [Layer.clear, Stash.clear, Stash.levels, List.length_replicate]
  exact h.stash_levels

theorem allocate (n : Nat) (hn : layer.allocated + n ≤ layer.capacity) :
    ({ layer with allocated := layer.allocated + n } : Layer w).Sound entry where
  stash_levels := h.stash_levels
  path_length := h.path_length
  allocated_le := hn
  capacity_lt := h.capacity_lt
  ids_nodup := h.ids_nodup
  ids_lt := fun b hb => Nat.lt_of_lt_of_le (h.ids_lt b hb) (Nat.le_add_right _ _)
  routed := h.routed
  position := h.position
  entry_lt := h.entry_lt
  clean := h.clean
  compact := h.compact

end Sound

end Layer

structure Layer.Fresh (layer : Layer w) (levels capacity : Nat) : Prop where
  levels : layer.tree.levels = levels
  history : layer.tree.history = []
  stash_levels : layer.stash.levels = layer.tree.levels
  path_length : layer.path.length = layer.tree.levels
  capacity : layer.capacity = capacity
  allocated : layer.allocated = 0
  slots : ∃ n, layer.slots = List.replicate n Block.empty
  statistics : ∃ depth, layer.statistics = .start depth

theorem BucketTree.of_create {levels : Nat} {t : BucketTree w} (h : create levels = .ok t) :
    t.levels = levels ∧ t.history = [] ∧
      t.buckets = Vector.replicate (2 ^ t.levels - 1) Bucket.empty := by
  rw [create] at h
  split at h
  · cases h
    exact ⟨rfl, rfl, rfl⟩
  · cases h

theorem BucketTree.between_root (t : BucketTree w) :
    Path.between 0 t.root = .ok (Path.ofLeaf t.levels 0) := by
  have hle := t.two_pow_levels_le
  rw [two_pow_levels] at hle
  apply Path.between_eq t.levels 0 t.levels_pos t.levels_lt rfl (Nat.two_pow_pos _)
  rw [root, UInt64.toNat_ofNat', Nat.mod_eq_of_lt (by omega)]

theorem Stash.of_create {network : SortNetwork} {levels overflowSize : Nat} {stash : Stash w}
    (h : create network levels overflowSize = .ok stash) : stash = ⟨network,
      List.replicate levels Bucket.empty, List.replicate overflowSize Block.empty⟩ := by
  rw [create] at h
  cases hfits : Word.fits (Bucket.capacity * levels + overflowSize) with
  | error e =>
    rw [hfits] at h
    cases h
  | ok n =>
    rw [hfits] at h
    cases h
    rfl

theorem Layer.fresh_of_assemble {config : Config} {tree : BucketTree w} {levels capacity depth : Nat}
    (htree : BucketTree.create levels = .ok tree) {layer : Layer w} {env env' : Env σ}
    (h : (assemble config tree capacity depth).run env = (.ok layer, env')) :
    layer.Fresh levels capacity ∧ env'.source = env.source := by
  obtain ⟨hlevels, hhistory, hbuckets⟩ := BucketTree.of_create htree
  rw [assemble] at h
  obtain ⟨stash, env₁, hstash, h⟩ := Engine.exists_of_run_bind h
  obtain ⟨path, env₂, hpath, h⟩ := Engine.exists_of_run_bind h
  obtain ⟨_, env₃, htell, h⟩ := Engine.exists_of_run_bind h
  rw [Engine.run_lift, Prod.mk.injEq] at hstash hpath
  obtain ⟨hstash, rfl⟩ := hstash
  obtain ⟨hpath, rfl⟩ := hpath
  rw [tree.between_root, Except.ok.injEq] at hpath
  cases htell
  cases h
  rw [Stash.of_create hstash, ← hpath]
  refine ⟨⟨hlevels, hhistory, List.length_replicate, Path.length_ofLeaf _ _ tree.levels_pos, rfl, rfl,
    ⟨(2 ^ tree.levels - 1) * Bucket.capacity + config.overflowSize, ?_⟩, ⟨depth, rfl⟩⟩, rfl⟩
  rw [slots, tree.slots_of_empty hbuckets, List.replicate_append_replicate]

theorem Layer.Fresh.sound {layer : Layer w} {levels capacity : Nat} (h : layer.Fresh levels capacity)
    (hcapacity : capacity < 2 ^ 64) {entry : Nat → Word}
    (hentry : ∀ i < capacity, entry i < layer.tree.leaves) : layer.Sound entry := by
  obtain ⟨n, hslots⟩ := h.slots
  have hcap := h.capacity
  subst hcap
  exact sound_of_empty hslots h.stash_levels h.path_length (h.allocated ▸ Nat.zero_le _) hcapacity
    hentry

theorem Layer.Fresh.allocate_all {layer : Layer w} {levels capacity : Nat}
    (h : layer.Fresh levels capacity) :
    layer.allocate capacity = (some 0, { layer with allocated := capacity }) := by
  rw [allocate, if_pos (by rw [h.allocated, h.capacity, Nat.zero_add]),
    h.allocated, Nat.zero_add]
  rfl

end ObliviousRam
