import Mathlib.Data.List.Nodup
import ObliviousRam.Proofs.Tree.PathNodes
import ObliviousRam.Tree.Storage

namespace ObliviousRam

def Path.touches (p : Path) : List Touch := p.nodes.map .read ++ p.nodes.map .write

namespace BucketTree

variable {w : Nat} (t : BucketTree w)

def pathTo (n : Word) : Path := Path.ofLeaf t.levels (2 * n)

def bucket (x : Word) : Bucket w := t.buckets[x.toNat]?.getD Bucket.empty

def nodes : List Word := (List.range (2 ^ t.levels - 1)).map UInt64.ofNat

def slots : List (Block w) := t.buckets.toList.flatMap Bucket.toList

/-- The slots of the nodes that are not listed. -/
def beside (path : List Word) : List (Block w) :=
  (t.nodes.filter (· ∉ path)).flatMap fun x => (t.bucket x).toList

def Routed : Prop :=
  ∀ x ∈ t.nodes, ∀ b ∈ (t.bucket x).toList, b.isEmpty = false → Node.Encloses x b.position

def put (x : Word) (b : Bucket w) : BucketTree w :=
  { t with buckets := t.buckets.setIfInBounds x.toNat b, history := .write x :: t.history }

def store (path : List Word) (bs : List (Bucket w)) : BucketTree w :=
  (path.zip bs).foldl (fun t e => t.put e.1 e.2) t

theorem two_pow_levels_le : 2 ^ t.levels ≤ 2 ^ 63 :=
  Nat.pow_le_pow_right (by decide) (Nat.le_of_lt_succ t.levels_lt)

theorem two_pow_levels : 2 ^ t.levels = 2 * 2 ^ (t.levels - 1) := by
  conv_lhs => rw [← Nat.sub_add_cancel t.levels_pos, Nat.pow_succ, Nat.mul_comm]

theorem mem_nodes (x : Word) : x ∈ t.nodes ↔ x.toNat < 2 ^ t.levels - 1 := by
  have hle := t.two_pow_levels_le
  constructor
  · intro h
    obtain ⟨i, hi, rfl⟩ := List.mem_map.1 h
    rw [List.mem_range] at hi
    rwa [UInt64.toNat_ofNat', Nat.mod_eq_of_lt (by omega)]
  · exact fun h => List.mem_map.2 ⟨x.toNat, List.mem_range.2 h, UInt64.ofNat_toNat⟩

theorem nodup_nodes : t.nodes.Nodup := by
  have hle := t.two_pow_levels_le
  apply List.nodup_range.map_on
  intro i hi j hj h
  rw [List.mem_range] at hi hj
  have := congrArg UInt64.toNat h
  rwa [UInt64.toNat_ofNat', UInt64.toNat_ofNat', Nat.mod_eq_of_lt (by omega),
    Nat.mod_eq_of_lt (by omega)] at this

theorem slots_eq : t.slots = t.nodes.flatMap fun x => (t.bucket x).toList := by
  have hle := t.two_pow_levels_le
  have hbuckets : t.buckets.toList = t.nodes.map t.bucket := by
    apply List.ext_getElem
    · simp [nodes]
    · intro i hi hi'
      have hi : i < 2 ^ t.levels - 1 := by simpa using hi
      have hnode : (UInt64.ofNat i).toNat = i := by
        rw [UInt64.toNat_ofNat', Nat.mod_eq_of_lt (by omega)]
      simp only [nodes, bucket, List.getElem_map, List.getElem_range, hnode, Vector.getElem_toList,
        Vector.getElem?_eq_getElem hi, Option.getD_some]
  rw [slots, hbuckets, List.flatMap_map]

theorem slots_perm (path : List Word) (hnodup : path.Nodup) (hmem : ∀ x ∈ path, x ∈ t.nodes) :
    t.slots.Perm (path.flatMap (fun x => (t.bucket x).toList) ++ t.beside path) := by
  have hpath : (t.nodes.filter (· ∈ path)).Perm path := by
    rw [List.perm_ext_iff_of_nodup (t.nodup_nodes.filter _) hnodup]
    intro x
    rw [List.mem_filter, decide_eq_true_iff]
    exact ⟨And.right, fun h => ⟨hmem x h, h⟩⟩
  have hsplit := List.filter_append_perm (fun x => decide (x ∈ path)) t.nodes
  rw [slots_eq, beside, ← List.flatMap_append]
  apply List.Perm.flatMap_right
  simpa using hsplit.symm.trans (hpath.append_right _)

theorem read_eq {x : Word} (h : x ∈ t.nodes) :
    t.read x = .ok (t.bucket x, { t with history := .read x :: t.history }) := by
  rw [mem_nodes] at h
  simp [read, bucket, h]

theorem write_eq {x : Word} (h : x ∈ t.nodes) (b : Bucket w) : t.write x b = .ok (t.put x b) := by
  rw [mem_nodes] at h
  simp [write, put, h, Vector.setIfInBounds, Array.setIfInBounds]

theorem bucket_put (x y : Word) (b : Bucket w) (h : x ∈ t.nodes) :
    (t.put x b).bucket y = if x = y then b else t.bucket y := by
  rw [mem_nodes] at h
  have hput : (t.put x b).bucket y =
      (t.buckets.setIfInBounds x.toNat b)[y.toNat]?.getD Bucket.empty := rfl
  by_cases hxy : x = y
  · rw [hput, hxy, Vector.getElem?_setIfInBounds_self_of_lt (hxy ▸ h), if_pos rfl, Option.getD_some]
  · have hne : x.toNat ≠ y.toNat := fun h => hxy (UInt64.toNat_inj.1 h)
    rw [hput, Vector.getElem?_setIfInBounds_ne hne, if_neg hxy, bucket]

theorem levels_store (path : List Word) (bs : List (Bucket w)) :
    (t.store path bs).levels = t.levels := by
  induction path generalizing t bs with
  | nil => rfl
  | cons x path ih =>
    cases bs with
    | nil => rfl
    | cons b bs => exact ih (t.put x b) bs

theorem nodes_store (path : List Word) (bs : List (Bucket w)) :
    (t.store path bs).nodes = t.nodes := by
  rw [nodes, levels_store, nodes]

theorem bucket_store_of_notMem (path : List Word) (bs : List (Bucket w)) (y : Word)
    (hmem : ∀ x ∈ path, x ∈ t.nodes) (hy : y ∉ path) : (t.store path bs).bucket y = t.bucket y := by
  induction path generalizing t bs with
  | nil => rfl
  | cons x path ih =>
    cases bs with
    | nil => rfl
    | cons b bs =>
      rw [List.mem_cons, not_or] at hy
      have hput := t.bucket_put x y b (hmem x (by simp))
      rw [if_neg (Ne.symm hy.1)] at hput
      rw [← hput]
      exact ih (t.put x b) bs (fun z hz => hmem z (by simp [hz])) hy.2

theorem map_bucket_store (path : List Word) (bs : List (Bucket w)) (hnodup : path.Nodup)
    (hmem : ∀ x ∈ path, x ∈ t.nodes) (hlen : path.length = bs.length) :
    path.map (t.store path bs).bucket = bs := by
  induction path generalizing t bs with
  | nil => exact (List.length_eq_zero_iff.1 hlen.symm).symm
  | cons x path ih =>
    cases bs with
    | nil => cases hlen
    | cons b bs =>
      have htail : ∀ y ∈ path, y ∈ (t.put x b).nodes := fun y hy => hmem y (by simp [hy])
      have hhead := (t.put x b).bucket_store_of_notMem path bs x htail (List.nodup_cons.1 hnodup).1
      rw [bucket_put _ _ _ _ (hmem x (by simp)), if_pos rfl] at hhead
      rw [List.map_cons, List.cons.injEq]
      exact ⟨hhead, ih (t.put x b) bs (List.nodup_cons.1 hnodup).2 htail
        (Nat.succ.inj hlen)⟩

theorem bucket_store_of_getElem? {path : List Word} {bs : List (Bucket w)} (hnodup : path.Nodup)
    (hmem : ∀ x ∈ path, x ∈ t.nodes) (hlen : path.length = bs.length) {l : Nat} {x : Word}
    {b : Bucket w} (hx : path[l]? = some x) (hb : bs[l]? = some b) :
    (t.store path bs).bucket x = b := by
  have h := congrArg (·[l]?) (t.map_bucket_store path bs hnodup hmem hlen)
  simpa only [List.getElem?_map, hx, hb, Option.map_some, Option.some.injEq] using h

theorem beside_store (path : List Word) (bs : List (Bucket w)) (hmem : ∀ x ∈ path, x ∈ t.nodes) :
    (t.store path bs).beside path = t.beside path := by
  rw [beside, beside, nodes_store]
  apply List.flatMap_congr
  intro x hx
  rw [bucket_store_of_notMem _ _ _ _ hmem (by simpa using (List.mem_filter.1 hx).2)]

theorem slots_store (path : List Word) (bs : List (Bucket w)) (hnodup : path.Nodup)
    (hmem : ∀ x ∈ path, x ∈ t.nodes) (hlen : path.length = bs.length) :
    (t.store path bs).slots.Perm (bs.flatMap Bucket.toList ++ t.beside path) := by
  have hsplit := (t.store path bs).slots_perm path hnodup fun x hx => by
    rw [nodes_store]
    exact hmem x hx
  have hbuckets := t.map_bucket_store path bs hnodup hmem hlen
  rw [beside_store _ _ _ hmem, ← List.flatMap_map, hbuckets] at hsplit
  exact hsplit

theorem history_store (path : List Word) (bs : List (Bucket w)) (hlen : path.length = bs.length) :
    (t.store path bs).history = (path.map Touch.write).reverse ++ t.history := by
  induction path generalizing t bs with
  | nil => rfl
  | cons x path ih =>
    cases bs with
    | nil => cases hlen
    | cons b bs =>
      rw [List.map_cons, List.reverse_cons, List.append_assoc]
      exact ih (t.put x b) bs (Nat.succ.inj hlen)

theorem slots_of_empty (h : t.buckets = Vector.replicate (2 ^ t.levels - 1) Bucket.empty) :
    t.slots = List.replicate ((2 ^ t.levels - 1) * Bucket.capacity) Block.empty := by
  rw [slots, h, Vector.toList_replicate, List.flatMap_replicate, Bucket.toList_empty,
    List.flatten_replicate_replicate]

section Path

variable {n : Word} (hn : n.toNat < 2 ^ (t.levels - 1))

theorem length_pathTo (n : Word) : (t.pathTo n).length = t.levels :=
  Path.length_ofLeaf t.levels _ t.levels_pos

include hn

theorem double_leaf : Word.double n = .ok (2 * n) := by
  have hle := t.two_pow_levels_le
  rw [two_pow_levels] at hle
  rw [Word.double, if_pos (by omega)]

theorem toNat_leaf : (2 * n : Word).toNat = 2 * n.toNat := Word.toNat_double (t.double_leaf hn)

theorem leaf_even : (2 * n : Word).toNat % 2 = 0 := by
  rw [t.toNat_leaf hn]
  omega

theorem leaf_lt : (2 * n : Word).toNat < 2 ^ t.levels := by
  rw [t.toNat_leaf hn, two_pow_levels]
  omega

theorem retarget_leaf (p : Path) (hp : p.length = t.levels) :
    p.retarget (2 * n) = .ok (t.pathTo n) :=
  Path.retarget_eq t.levels _ t.levels_pos t.levels_lt (t.leaf_even hn) (t.leaf_lt hn) p hp

theorem nodup_pathTo : (t.pathTo n).nodes.Nodup :=
  Path.nodup_nodes t.levels _ t.levels_pos t.levels_lt (t.leaf_even hn)

theorem mem_pathTo_iff (x : Word) :
    x ∈ (t.pathTo n).nodes ↔ ∃ l < t.levels, x.toNat = Node.ancestor l (2 * n : Word).toNat :=
  Path.mem_nodes_ofLeaf t.levels _ t.levels_pos t.levels_lt x (t.leaf_even hn)

theorem mem_nodes_of_mem_pathTo {x : Word} (hx : x ∈ (t.pathTo n).nodes) : x ∈ t.nodes := by
  obtain ⟨l, hl, hxl⟩ := (t.mem_pathTo_iff hn x).1 hx
  rw [mem_nodes, hxl]
  exact Node.ancestor_lt t.levels l _ hl (t.leaf_lt hn)

theorem mem_pathTo_of_encloses {x : Word} (hx : x ∈ t.nodes) (h : Node.Encloses x (2 * n)) :
    x ∈ (t.pathTo n).nodes := by
  obtain ⟨low, high, hlow, hhigh, hle, hge⟩ := h
  rw [mem_nodes] at hx
  exact (t.mem_pathTo_iff hn x).2
    (Node.eq_ancestor_of_mem_bounds t.levels x low high _ hx t.levels_lt hlow hhigh hle hge)

end Path

end BucketTree

end ObliviousRam
