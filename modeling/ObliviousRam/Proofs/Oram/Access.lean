import ObliviousRam.Proofs.Layer.Fresh
import ObliviousRam.Proofs.PositionMap.Relocation

namespace ObliviousRam

open LeafSource Slots

variable {w : Nat} {σ α : Type}

namespace Oram

def leafCounts (o : Oram w) : List Word := o.layer.tree.leaves :: o.positions.leafCounts

variable {o o' : Oram w} {id : Word} {draws : List Word} {data : Vector Word w}

namespace Accessed

theorem allocated_eq (h : o.Accessed id draws data o') :
    o'.layer.allocated = o.layer.allocated := by
  cases h with
  | intro hpositions hlayer => exact hlayer.allocated

theorem capacity_eq (h : o.Accessed id draws data o') : o'.layer.capacity = o.layer.capacity := by
  cases h with
  | intro hpositions hlayer => exact hlayer.capacity

theorem leafCounts_eq (h : o.Accessed id draws data o') : o'.leafCounts = o.leafCounts := by
  cases h with
  | intro hpositions hlayer =>
    rw [leafCounts, leafCounts, hpositions.leafCounts_eq, BucketTree.leaves, hlayer.levels,
      BucketTree.leaves]

theorem contents_eq (h : o.Accessed id draws data o') (ho : o.Sound) {i : Word}
    (hi : i ≠ Word.allOnes) :
    o'.layer.contents i = if i = id then data else o.layer.contents i := by
  cases h with
  | intro hpositions hlayer => exact hlayer.contents_eq ho.layer.ids_nodup hi

theorem sound (h : o.Accessed id draws data o') (ho : o.Sound)
    (hid : id.toNat < o.layer.allocated) (hdraws : List.Forall₂ (· < ·) draws o.leafCounts) :
    o'.Sound := by
  cases h with
  | intro hpositions hlayer =>
    rw [leafCounts, List.forall₂_cons, UInt64.lt_iff_toNat_lt, BucketTree.toNat_leaves] at hdraws
    have hid' : id.toNat < o.positions.size := by
      rw [ho.size]
      exact Nat.lt_of_lt_of_le hid ho.layer.allocated_le
    refine ⟨by rw [hpositions.size_eq, ho.size, hlayer.capacity], ?_,
      hpositions.sound ho.positions hid' hdraws.2⟩
    exact hlayer.sound ho.layer hid hdraws.1 fun i hi =>
      hpositions.entry_eq ho.positions hid' (ho.size ▸ hi)

end Accessed

theorem Sound.allocate (h : o.Sound) {n : Nat} (hn : o.layer.allocated + n ≤ o.layer.capacity) :
    ({ o with layer := { o.layer with allocated := o.layer.allocated + n } } : Oram w).Sound :=
  ⟨h.size, h.layer.allocate n hn, h.positions⟩

theorem Sound.clear (h : o.Sound) : ({ o with layer := o.layer.clear } : Oram w).Sound :=
  ⟨h.size, h.layer.clear, h.positions⟩

variable [LeafSource σ]

theorem access_of_le (o : Oram w) (id : Word) (use : Accessor w α) (env : Env σ)
    (hid : o.layer.allocated ≤ id.toNat) :
    (o.access id use).run env = (.ok (.error .unallocatedBlock, o), env) := by
  rw [access, Layer.access, if_neg (Nat.not_lt.2 hid)]
  rfl

theorem exists_access [LawfulLeafSource σ] (h : o.Sound) (hid : id.toNat < o.layer.allocated)
    (use : Accessor w α) (env : Env σ) : ∃ o' log,
      (o.access id use).run env = (.ok ((use (o.layer.contents id)).1, o'),
        ⟨(drawAll o.leafCounts env.source).2, log⟩) ∧
      o.Accessed id (drawAll o.leafCounts env.source).1 (use (o.layer.contents id)).2 o' := by
  obtain ⟨layer, positions, log, hrun, haccessed⟩ := Layer.exists_access h.layer h.size hid
    (PositionMap.exists_relocate h.positions) use env
  refine ⟨⟨layer, positions⟩, log, ?_, haccessed⟩
  rw [access, Engine.run_bind_ok hrun]
  rfl

theorem forall₂_leafCounts [LawfulLeafSource σ] (o : Oram w) (s : σ) :
    List.Forall₂ (· < ·) (drawAll o.leafCounts s).1 o.leafCounts := by
  apply forall₂_drawAll
  intro n hn
  obtain rfl | hn := List.mem_cons.1 hn
  · exact o.layer.tree.leaves_pos
  · exact o.positions.leafCounts_pos n hn

end Oram

end ObliviousRam
