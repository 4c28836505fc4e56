import ObliviousRam.Layer
import ObliviousRam.Proofs.Stash.Ingest
import ObliviousRam.Proofs.Tree.Contents

namespace ObliviousRam.Layer

open Slots

variable {w : Nat}

def slotsAt (tree : BucketTree w) (nodes : List Word) : List (Block w) :=
  nodes.flatMap fun x => (tree.bucket x).toList

def seen (tree : BucketTree w) (nodes : List Word) : BucketTree w :=
  { tree with history := (nodes.map Touch.read).reverse ++ tree.history }

theorem foldlM_fetchBucket (id : Word) (nodes : List Word) (k : Nat) (tree : BucketTree w)
    (stash : Stash w) (target : Block w) (hnodes : ∀ x ∈ nodes, x ∈ tree.nodes) :
    (nodes.zipIdx k).foldlM (fetchBucket id) (tree, stash, target) = do
      let (stash, target) ←
        ((nodes.map tree.bucket).zipIdx k).foldlM (Stash.loadBucket id) (stash, target)
      return (seen tree nodes, stash, target) := by
  induction nodes generalizing k tree stash target with
  | nil => rfl
  | cons x nodes ih =>
    rw [List.map_cons, List.zipIdx_cons, List.zipIdx_cons, List.foldlM_cons, List.foldlM_cons,
      fetchBucket, tree.read_eq (hnodes x (by simp)), Stash.loadBucket]
    simp only [bind, Except.bind]
    cases stash.load k (tree.bucket x) id target with
    | error e => rfl
    | ok y =>
      have hrest := ih (k + 1) { tree with history := .read x :: tree.history } y.1 y.2
        fun z hz => hnodes z (by simp [hz])
      have hseen : seen { tree with history := .read x :: tree.history } nodes =
          seen tree (x :: nodes) := by
        simp only [seen, List.map_cons, List.reverse_cons, List.append_assoc, List.cons_append,
          List.nil_append]
      rw [hseen] at hrest
      exact hrest

theorem fetch_eq_ingest (layer : Layer w) (path : Path) (id : Word)
    (hnodes : ∀ x ∈ path.nodes, x ∈ layer.tree.nodes) :
    { layer with path }.fetch id = do
      let (stash, target) ← layer.stash.ingest (path.nodes.map layer.tree.bucket) id
      return ({ layer with path, stash, tree := seen layer.tree path.nodes }, target) := by
  rw [fetch, Stash.ingest]
  simp only [foldlM_fetchBucket id path.nodes 0 layer.tree layer.stash Block.empty hnodes, bind_assoc,
    pure_bind]

/-- A fetch takes the one copy of a block out of the path or the overflow region. -/
theorem fetch_eq (layer : Layer w) (path : Path) (id : Word) (hid : id ≠ Word.allOnes)
    (hnodes : ∀ x ∈ path.nodes, x ∈ layer.tree.nodes) (hlen : path.length = layer.stash.levels)
    (hcount : (slotsAt layer.tree path.nodes ++ layer.stash.overflow).countP
      (fun b => b.id == id) ≤ 1) :
    { layer with path }.fetch id = .ok ({ layer with
      path
      tree := seen layer.tree path.nodes
      stash := { layer.stash with
        path := (path.nodes.map layer.tree.bucket).map (Bucket.vacate id)
        overflow := layer.stash.overflow.map (vacate id) } },
      pick id (slotsAt layer.tree path.nodes ++ layer.stash.overflow)) := by
  have hincoming : layer.stash.incoming (path.nodes.map layer.tree.bucket) =
      slotsAt layer.tree path.nodes ++ layer.stash.overflow := by
    rw [Stash.incoming, List.flatMap_map, slotsAt]
  have hlevels : (path.nodes.map layer.tree.bucket).length = layer.stash.levels := by
    rw [List.length_map, Path.length_nodes, hlen]
  rw [← hincoming] at hcount ⊢
  rw [fetch_eq_ingest layer path id hnodes, layer.stash.ingest_eq_ok hlevels hid hcount]
  rfl

end ObliviousRam.Layer
