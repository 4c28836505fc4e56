import ObliviousRam.Proofs.Engine
import ObliviousRam.Proofs.Layer.Contents
import ObliviousRam.Proofs.Stash.Sinking

namespace ObliviousRam.Layer

open Slots

variable {w : Nat} {σ α : Type}

/-- An access went along the path of leaf number `previous`, and left `block` in place of the
block that had its id. -/
structure Visited (layer : Layer w) (previous : Word) (block : Block w) (layer' : Layer w) :
    Prop where
  levels : layer'.tree.levels = layer.tree.levels
  stash_levels : layer'.stash.levels = layer.tree.levels
  network : layer'.stash.network = layer.stash.network
  path : layer'.path = layer.tree.pathTo previous
  capacity : layer'.capacity = layer.capacity
  allocated : layer'.allocated = layer.allocated
  statistics : layer'.statistics = layer.statistics.record layer'.stash.overflowCount
  history : layer'.tree.history =
    (layer.tree.pathTo previous).touches.reverse ++ layer.tree.history
  stored : (stored layer'.slots).Perm (block :: (stored layer.slots).filter fun b => b.id ≠ block.id)
  routed : layer'.tree.Routed
  clean : Clean layer'.slots
  compact : Compact layer'.stash.overflow
  frame : ∀ x ∉ (layer.tree.pathTo previous).nodes, layer'.tree.bucket x = layer.tree.bucket x
  sinks : ∀ x ∈ (layer.tree.pathTo previous).nodes, ∀ b ∈ (layer.tree.bucket x).toList,
    b.isEmpty = false → b.id ≠ block.id →
      ∃ y ∈ (layer.tree.pathTo previous).nodes, Node.Below x y ∧ b ∈ (layer'.tree.bucket y).toList

theorem foldlM_writeBucket (stash : Stash w) (nodes : List Word) (k : Nat) (tree : BucketTree w)
    (hnodes : ∀ x ∈ nodes, x ∈ tree.nodes) (hroom : k + nodes.length ≤ stash.path.length) :
    (nodes.zipIdx k).foldlM (writeBucket stash) tree =
      .ok (tree.store nodes (stash.path.drop k)) := by
  induction nodes generalizing k tree with
  | nil => rfl
  | cons x nodes ih =>
    rw [List.length_cons] at hroom
    have hk : k < stash.path.length := by omega
    have hbucket : stash.bucketAt k = .ok stash.path[k] := by
      rw [Stash.bucketAt, List.getElem?_eq_getElem hk]
    rw [List.zipIdx_cons, List.foldlM_cons, writeBucket, hbucket, ← List.getElem_cons_drop hk]
    simp only [bind, Except.bind, tree.write_eq (hnodes x (by simp))]
    exact ih (k + 1) (tree.put x stash.path[k]) (fun y hy => hnodes y (by simp [hy])) (by omega)

theorem routed_store {t : BucketTree w} {n : Word} (hn : n.toNat < 2 ^ (t.levels - 1))
    (path : List (Bucket w)) (hlen : (t.pathTo n).nodes.length = path.length) (ht : t.Routed)
    (hpath : Stash.RoutedOn path (t.pathTo n)) : (t.store (t.pathTo n).nodes path).Routed := by
  have hmem := fun x => t.mem_nodes_of_mem_pathTo hn (x := x)
  intro x hx b hb hreal
  rw [BucketTree.nodes_store] at hx
  by_cases hxp : x ∈ (t.pathTo n).nodes
  · obtain ⟨l, hl, rfl⟩ := List.getElem_of_mem hxp
    rw [t.bucket_store_of_getElem? (t.nodup_pathTo hn) hmem hlen (List.getElem?_eq_getElem hl)
      (List.getElem?_eq_getElem (hlen ▸ hl))] at hb
    exact hpath l hl (hlen ▸ hl) b hb hreal
  · rw [BucketTree.bucket_store_of_notMem _ _ _ _ hmem hxp] at hb
    exact ht x hx b hb hreal

def told (s : Stash w) (log : Array Event) : Array Event :=
  if s.isFull then log.push (.overflowGrown (s.capacity + Stash.growth)) else log

theorem run_keep (s : Stash w) (block : Block w) (env : Env σ) :
    (s.keep block).run env = (.ok (s.insert block), { env with log := told s env.log }) := by
  rw [Stash.keep, told]
  by_cases hfull : s.isFull
  · simp only [hfull, ↓reduceIte, Engine.run_bind, Engine.run_tell, Engine.run_pure]
  · simp only [hfull, Bool.false_eq_true, ↓reduceIte, Engine.run_pure]

theorem flatMap_vacate (tree : BucketTree w) (nodes : List Word) (id : Word) :
    ((nodes.map tree.bucket).map (Bucket.vacate id)).flatMap Bucket.toList =
      (slotsAt tree nodes).map (vacate id) := by
  rw [List.map_map, List.flatMap_map, slotsAt, List.map_flatMap]
  exact List.flatMap_congr fun x _ => Bucket.toList_vacate id (tree.bucket x)

def loaded (layer : Layer w) (path : Path) (id : Word) : Stash w :=
  { layer.stash with
    path := (path.nodes.map layer.tree.bucket).map (Bucket.vacate id)
    overflow := layer.stash.overflow.map (vacate id) }

def gathered (layer : Layer w) (path : Path) (block : Block w) : Layer w :=
  { layer with
    path
    tree := seen layer.tree path.nodes
    stash := (layer.loaded path block.id).insert block }

def flushed (layer : Layer w) (path : Path) (buckets : List (Bucket w))
    (overflow : List (Block w)) : Layer w :=
  { layer with
    path
    tree := (seen layer.tree path.nodes).store path.nodes buckets
    stash := { layer.stash with path := buckets, overflow }
    statistics := layer.statistics.record (overflow.countP fun b => !b.isEmpty) }

theorem flush_gathered {layer : Layer w} {path : Path} {block : Block w} {buckets : List (Bucket w)}
    {overflow : List (Block w)} (hnodes : ∀ x ∈ path.nodes, x ∈ layer.tree.nodes)
    (hlength : path.nodes.length = buckets.length)
    (hevict : (layer.gathered path block).stash.evict path =
      .ok { layer.stash with path := buckets, overflow }) :
    (layer.gathered path block).flush = .ok (layer.flushed path buckets overflow) := by
  have hwrite := foldlM_writeBucket { layer.stash with path := buckets, overflow } path.nodes 0
    (seen layer.tree path.nodes) hnodes (by rw [Nat.zero_add, hlength])
  have hpath : (layer.gathered path block).path = path := rfl
  rw [flush, hpath, hevict]
  simp only [bind, Except.bind, writeBack, gathered, hwrite]
  rfl

theorem slots_flushed {layer : Layer w} {path : Path} {buckets : List (Bucket w)}
    (overflow : List (Block w)) (hnodup : path.nodes.Nodup)
    (hnodes : ∀ x ∈ path.nodes, x ∈ layer.tree.nodes) (hlength : path.nodes.length = buckets.length) :
    (layer.flushed path buckets overflow).slots.Perm
      ((buckets.flatMap Bucket.toList ++ overflow) ++ layer.tree.beside path.nodes) :=
  (((seen layer.tree path.nodes).slots_store _ buckets hnodup hnodes hlength).append_right
    overflow).trans (append_right_comm _ _ _)

section

variable {layer : Layer w} {entry : Nat → Word} (h : layer.Sound entry) {id : Word}
  (hid : id.toNat < layer.allocated)

theorem slots_split {n : Word} (hn : n.toNat < 2 ^ (layer.tree.levels - 1)) :
    layer.slots.Perm ((slotsAt layer.tree (layer.tree.pathTo n).nodes ++ layer.stash.overflow) ++
      layer.tree.beside (layer.tree.pathTo n).nodes) := by
  have hpath := layer.tree.slots_perm _ (layer.tree.nodup_pathTo hn)
    fun x => layer.tree.mem_nodes_of_mem_pathTo hn
  rw [slots]
  exact (hpath.append_right _).trans (append_right_comm _ _ _)

include h hid

theorem id_ne_of_mem_beside {b : Block w}
    (hb : b ∈ layer.tree.beside (layer.tree.pathTo (entry id.toNat)).nodes) : b.id ≠ id := by
  rintro rfl
  have hn := h.toNat_entry_lt hid
  obtain ⟨x, hx, hbx⟩ := List.mem_flatMap.1 hb
  rw [List.mem_filter, decide_eq_true_iff] at hx
  have hreal : b.isEmpty = false := by simpa [Block.isEmpty] using h.ne_allOnes hid
  have hslot : b ∈ stored layer.slots := mem_stored.2 ⟨(slots_split hn).mem_iff.2
    (List.mem_append_right _ hb), hreal⟩
  have hencloses := h.routed x hx.1 b hbx hreal
  have hposition : b.position = 2 * entry b.id.toNat := by
    rw [← UInt64.toNat_inj, h.position b hslot, layer.tree.toNat_leaf hn]
  rw [hposition] at hencloses
  exact hx.2 (layer.tree.mem_pathTo_of_encloses hn hx.1 hencloses)

theorem run_gather (next : Word) (hnext : next.toNat < 2 ^ (layer.tree.levels - 1))
    (use : Accessor w α) (env : Env σ) :
    (layer.gather id (entry id.toNat) next use).run env =
      (.ok ((use (layer.contents id)).1, layer.gathered (layer.tree.pathTo (entry id.toNat))
        ⟨id, 2 * next, (use (layer.contents id)).2⟩),
      { env with log := told (layer.loaded (layer.tree.pathTo (entry id.toNat)) id) env.log }) := by
  have hn := h.toNat_entry_lt hid
  have hne := h.ne_allOnes hid
  have hbeside := fun b => id_ne_of_mem_beside h hid (b := b)
  have hsplit := slots_split hn
  have hcount : (slotsAt layer.tree (layer.tree.pathTo (entry id.toNat)).nodes ++
      layer.stash.overflow).countP (fun b => b.id == id) ≤ 1 := by
    have := h.countP_le_one hne
    rw [hsplit.countP_eq, List.countP_append] at this
    omega
  have hpick : pick id (slotsAt layer.tree (layer.tree.pathTo (entry id.toNat)).nodes ++
      layer.stash.overflow) = pick id layer.slots := by
    rw [← pick_append_left _ _ hbeside]
    exact pick_perm hsplit.symm (h.countP_le_one hne)
  have hfetch := layer.fetch_eq (layer.tree.pathTo (entry id.toNat)) id hne
    (fun x => layer.tree.mem_nodes_of_mem_pathTo hn)
    (by rw [layer.tree.length_pathTo, h.stash_levels]) hcount
  rw [hpick] at hfetch
  have hkeep := run_keep (layer.loaded (layer.tree.pathTo (entry id.toNat)) id)
    ⟨id, 2 * next, (use (layer.contents id)).2⟩ env
  rw [loaded, contents] at hkeep
  simp only [gather, Engine.run_bind, Engine.run_lift, layer.tree.double_leaf hn,
    layer.tree.retarget_leaf hn _ h.path_length, hfetch, layer.tree.double_leaf hnext,
    Engine.run_pure, hkeep]
  rfl

end

section

variable {layer : Layer w} {entry : Nat → Word} (h : layer.Sound entry) {block : Block w}
  (hid : block.id.toNat < layer.allocated)
include h hid

/-- What an eviction finds in the stash, and what is beside the path, make up the layer with the
new block in place of the old one. -/
theorem stored_gathered :
    (stored ((layer.gathered (layer.tree.pathTo (entry block.id.toNat)) block).stash.slots ++
      layer.tree.beside (layer.tree.pathTo (entry block.id.toNat)).nodes)).Perm
      (block :: (stored layer.slots).filter fun b => b.id ≠ block.id) := by
  have hreal : block.isEmpty = false := by simpa [Block.isEmpty] using h.ne_allOnes hid
  have hsplit := (stored_perm (slots_split (h.toNat_entry_lt hid))).filter fun b => b.id ≠ block.id
  have hbeside : (stored (layer.tree.beside (layer.tree.pathTo (entry block.id.toNat)).nodes)).filter
      (fun b => b.id ≠ block.id) =
        stored (layer.tree.beside (layer.tree.pathTo (entry block.id.toNat)).nodes) := by
    rw [List.filter_eq_self]
    exact fun b hb => decide_eq_true (id_ne_of_mem_beside h hid (mem_stored.1 hb).1)
  have hplace := Stash.stored_place block hreal (layer.stash.overflow.map (vacate block.id))
  rw [stored_map_vacate] at hplace
  rw [stored_append, stored_append, List.filter_append, List.filter_append, hbeside] at hsplit
  rw [Stash.slots, gathered, Stash.insert, loaded, flatMap_vacate, stored_append, stored_append,
    stored_map_vacate]
  refine List.Perm.trans ?_ (hsplit.symm.cons block)
  rw [← List.cons_append]
  exact ((hplace.append_left _).trans List.perm_middle).append_right _

theorem clean_gathered :
    Clean ((layer.gathered (layer.tree.pathTo (entry block.id.toNat)) block).stash.slots ++
      layer.tree.beside (layer.tree.pathTo (entry block.id.toNat)).nodes) := by
  have hreal : block.isEmpty = false := by simpa [Block.isEmpty] using h.ne_allOnes hid
  have hsplit := h.clean.mono (slots_split (h.toNat_entry_lt hid)).symm.subset
  rw [clean_append, clean_append] at hsplit
  obtain ⟨⟨hpath, hoverflow⟩, hbeside⟩ := hsplit
  rw [Stash.slots, gathered, Stash.insert, loaded, flatMap_vacate, clean_append, clean_append]
  exact ⟨⟨clean_map_vacate _ hpath, Stash.clean_place block hreal (clean_map_vacate _ hoverflow)⟩,
    hbeside⟩

theorem routedOn_loaded :
    Stash.RoutedOn (layer.loaded (layer.tree.pathTo (entry block.id.toNat)) block.id).path
      (layer.tree.pathTo (entry block.id.toNat)) := by
  intro l hp hs b hb hreal
  simp only [loaded, List.getElem_map, Bucket.toList_vacate, List.mem_map] at hb
  obtain ⟨a, ha, rfl⟩ := hb
  by_cases hida : a.id = block.id
  · rw [vacate, if_pos hida, Block.isEmpty_empty] at hreal
    cases hreal
  · rw [vacate_of_ne hida] at hreal ⊢
    exact h.routed _ (layer.tree.mem_nodes_of_mem_pathTo (h.toNat_entry_lt hid)
      (List.getElem_mem hp)) a ha hreal

theorem sinks_flushed {buckets : List (Bucket w)} (overflow : List (Block w))
    (hlength : (layer.tree.pathTo (entry block.id.toNat)).nodes.length = buckets.length)
    (hsunk : Stash.Sunk (layer.loaded (layer.tree.pathTo (entry block.id.toNat)) block.id).path
      buckets) :
    ∀ x ∈ (layer.tree.pathTo (entry block.id.toNat)).nodes, ∀ b ∈ (layer.tree.bucket x).toList,
      b.isEmpty = false → b.id ≠ block.id → ∃ y ∈ (layer.tree.pathTo (entry block.id.toNat)).nodes,
        Node.Below x y ∧ b ∈ ((layer.flushed (layer.tree.pathTo (entry block.id.toNat)) buckets
          overflow).tree.bucket y).toList := by
  have hn := h.toNat_entry_lt hid
  intro x hx b hb hreal hne
  obtain ⟨l, hl⟩ := List.mem_iff_getElem?.1 hx
  have hbucket : (layer.loaded (layer.tree.pathTo (entry block.id.toNat)) block.id).path[l]? =
      some ((layer.tree.bucket x).vacate block.id) := by
    rw [loaded, List.getElem?_map, List.getElem?_map, hl, Option.map_some, Option.map_some]
  have hslot : b ∈ ((layer.tree.bucket x).vacate block.id).toList := by
    rw [Bucket.toList_vacate, ← vacate_of_ne hne]
    exact List.mem_map_of_mem hb
  obtain ⟨l', hle, bucket', hbucket', hb'⟩ := hsunk l _ hbucket b hslot hreal
  obtain ⟨hl', -⟩ := List.getElem?_eq_some_iff.1 hbucket'
  have hy := List.getElem?_eq_getElem (hlength ▸ hl')
  have hstored := BucketTree.bucket_store_of_getElem?
    (seen layer.tree (layer.tree.pathTo (entry block.id.toNat)).nodes) (layer.tree.nodup_pathTo hn)
    (fun z => layer.tree.mem_nodes_of_mem_pathTo hn) hlength hy hbucket'
  refine ⟨_, List.mem_of_getElem? hy, ?_, ?_⟩
  · exact Path.below_of_getElem? layer.tree.levels _ layer.tree.levels_pos layer.tree.levels_lt
      (layer.tree.leaf_even hn) hle hy hl
  · rw [flushed, hstored]
    exact hb'

theorem position_ne_gathered (hposition : block.position.toNat < 2 ^ layer.tree.levels) :
    ∀ b ∈ stored (layer.gathered (layer.tree.pathTo (entry block.id.toNat)) block).stash.slots,
      b.position ≠ Word.allOnes := by
  have hle := layer.tree.two_pow_levels_le
  intro b hb
  have hb' := (stored_gathered h hid).mem_iff.1 (by rw [stored_append]; exact List.mem_append_left _ hb)
  obtain rfl | hb' := List.mem_cons.1 hb'
  · rw [ne_eq, ← UInt64.toNat_inj, Word.toNat_allOnes]
    omega
  · exact h.position_ne (List.mem_of_mem_filter hb')

theorem exists_flush (hposition : block.position.toNat < 2 ^ layer.tree.levels) :
    ∃ layer', (layer.gathered (layer.tree.pathTo (entry block.id.toNat)) block).flush = .ok layer' ∧
      layer.Visited (entry block.id.toNat) block layer' := by
  have hn := h.toNat_entry_lt hid
  have hclean := clean_gathered h hid
  have hmem := fun x => layer.tree.mem_nodes_of_mem_pathTo hn (x := x)
  have hlevels : (layer.gathered (layer.tree.pathTo (entry block.id.toNat)) block).stash.levels =
      (layer.tree.pathTo (entry block.id.toNat)).nodes.length := by
    simp only [gathered, Stash.insert, loaded, Stash.levels, List.length_map]
  have hlen := (layer.tree.pathTo (entry block.id.toNat)).length_nodes.symm.trans hlevels.symm
  have hsmall : ∀ x ∈ (layer.tree.pathTo (entry block.id.toNat)).nodes, x.toNat < 2 ^ 63 :=
    fun x hx => Nat.lt_of_lt_of_le (Nat.lt_of_lt_of_le ((layer.tree.mem_nodes x).1 (hmem x hx))
      (Nat.sub_le _ _)) layer.tree.two_pow_levels_le
  obtain ⟨buckets, overflow, hevict, hlength, hrouted, hperm, hcompact⟩ := Stash.exists_evict
    (layer.gathered (layer.tree.pathTo (entry block.id.toNat)) block).stash
    (layer.tree.pathTo (entry block.id.toNat)) hlen hsmall
    (routedOn_loaded h hid) (clean_append.1 hclean).1 (position_ne_gathered h hid hposition)
  have hsunk := Stash.sunk_of_evict hlen hsmall (routedOn_loaded h hid) hevict
  have hlength := (hlength.trans hlevels).symm
  have hall := (slots_flushed overflow (layer.tree.nodup_pathTo hn) hmem hlength).trans
    (hperm.append_right _)
  refine ⟨_, flush_gathered hmem hlength hevict, ?_⟩
  constructor
  case levels => exact BucketTree.levels_store _ _ _
  case stash_levels => rw [← layer.tree.length_pathTo]; exact hlength.symm
  case network => rfl
  case path => rfl
  case capacity => rfl
  case allocated => rfl
  case statistics => rfl
  case history =>
    rw [flushed, BucketTree.history_store _ _ _ hlength, Path.touches, List.reverse_append,
      List.append_assoc]
    rfl
  case stored => exact (stored_perm hall).trans (stored_gathered h hid)
  case routed =>
    exact routed_store (t := seen layer.tree (layer.tree.pathTo (entry block.id.toNat)).nodes)
      hn buckets hlength h.routed hrouted
  case clean => exact hclean.mono hall.subset
  case compact => exact hcompact
  case frame => exact fun x hx => BucketTree.bucket_store_of_notMem _ _ _ _ hmem hx
  case sinks => exact sinks_flushed h hid overflow hlength hsunk

end

/-- An access to an allocated block succeeds, whatever leaf the block is sent to. -/
theorem exists_visit {layer : Layer w} {entry : Nat → Word} (h : layer.Sound entry) {id : Word}
    (hid : id.toNat < layer.allocated) {next : Word}
    (hnext : next.toNat < 2 ^ (layer.tree.levels - 1)) (use : Accessor w α) (env : Env σ) :
    ∃ layer' log, (layer.visit id (entry id.toNat) next use).run env =
        (.ok ((use (layer.contents id)).1, layer'), { env with log }) ∧
      layer.Visited (entry id.toNat) ⟨id, 2 * next, (use (layer.contents id)).2⟩ layer' := by
  have hblock : (⟨id, 2 * next, (use (layer.contents id)).2⟩ : Block w).id.toNat <
      layer.allocated := hid
  obtain ⟨layer', hflush, hvisited⟩ := exists_flush h hblock (layer.tree.leaf_lt hnext)
  refine ⟨layer', told (layer.loaded (layer.tree.pathTo (entry id.toNat)) id) env.log, ?_, hvisited⟩
  simp only [visit, Engine.run_bind, run_gather h hid next hnext use env, Engine.run_lift, hflush,
    Engine.run_pure]

namespace Visited

variable {layer layer' : Layer w} {entry entry' : Nat → Word} {id next : Word} {data : Vector Word w}

theorem ids_perm {previous : Word} {block : Block w} (hv : layer.Visited previous block layer') :
    (ids layer'.slots).Perm (block.id :: (ids layer.slots).filter fun i => i ≠ block.id) := by
  rw [ids, ids, List.filter_map]
  exact hv.stored.map Block.id

theorem nodup_ids {previous : Word} {block : Block w} (hv : layer.Visited previous block layer')
    (h : (ids layer.slots).Nodup) : (ids layer'.slots).Nodup := by
  rw [hv.ids_perm.nodup_iff, List.nodup_cons]
  exact ⟨fun hmem => by simpa using (List.mem_filter.1 hmem).2, h.filter _⟩

theorem contents_eq (h : (ids layer.slots).Nodup)
    (hv : layer.Visited (entry id.toNat) ⟨id, 2 * next, data⟩ layer') {i : Word}
    (hi : i ≠ Word.allOnes) : layer'.contents i = if i = id then data else layer.contents i := by
  have hcount : (Slots.stored layer'.slots).countP (fun b => b.id == i) ≤ 1 :=
    Nat.le_trans List.filter_sublist.countP_le (countP_id_le_one hi (hv.nodup_ids h))
  rw [contents, ← pick_stored hi, ← pick_perm hv.stored.symm hcount]
  rw [pick_cons]
  by_cases hid : i = id
  · rw [if_pos hid.symm, if_pos hid]
  · rw [if_neg (Ne.symm hid), if_neg hid, pick_filter_ne hid, pick_stored hi, contents]

theorem sound (h : layer.Sound entry) (hid : id.toNat < layer.allocated)
    (hnext : next.toNat < 2 ^ (layer.tree.levels - 1))
    (hv : layer.Visited (entry id.toNat) ⟨id, 2 * next, data⟩ layer')
    (hentry : ∀ i < layer.capacity, entry' i = if i = id.toNat then next else entry i) :
    layer'.Sound entry' where
  stash_levels := by rw [hv.stash_levels, hv.levels]
  path_length := by rw [hv.path, BucketTree.length_pathTo, hv.levels]
  allocated_le := by rw [hv.allocated, hv.capacity]; exact h.allocated_le
  capacity_lt := by rw [hv.capacity]; exact h.capacity_lt
  ids_nodup := hv.nodup_ids h.ids_nodup
  ids_lt := by
    intro b hb
    rw [hv.allocated]
    obtain rfl | hb := List.mem_cons.1 (hv.stored.mem_iff.1 hb)
    · exact hid
    · exact h.ids_lt b (List.mem_of_mem_filter hb)
  routed := hv.routed
  position := by
    intro b hb
    obtain rfl | hb := List.mem_cons.1 (hv.stored.mem_iff.1 hb)
    · rw [hentry _ (Nat.lt_of_lt_of_le hid h.allocated_le), if_pos rfl, layer.tree.toNat_leaf hnext]
    · rw [List.mem_filter, decide_eq_true_iff] at hb
      have hne : b.id.toNat ≠ id.toNat := fun heq => hb.2 (UInt64.toNat_inj.1 heq)
      rw [hentry _ (Nat.lt_of_lt_of_le (h.ids_lt b hb.1) h.allocated_le), if_neg hne,
        h.position b hb.1]
  entry_lt := by
    intro i hi
    rw [hv.capacity] at hi
    rw [hentry i hi, BucketTree.leaves, hv.levels]
    split
    · rw [UInt64.lt_iff_toNat_lt]
      exact Nat.lt_of_lt_of_eq hnext layer.tree.toNat_leaves.symm
    · exact h.entry_lt i hi
  clean := hv.clean
  compact := hv.compact

end Visited

end ObliviousRam.Layer
