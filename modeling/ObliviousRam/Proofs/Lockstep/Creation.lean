import ObliviousRam.Proofs.Lockstep.Oram

namespace ObliviousRam

variable {w : Nat} {σ : Type} {excuse : Prop} {config : Config} {overflowSize : Nat}
  (hroom : 2 ^ 64 ≤ Bucket.capacity * 63 + overflowSize → excuse)

section
include hroom

theorem Layer.Alike.assemble (tree : BucketTree w) (capacity depth : Nat) :
    Engine.Follows (σ := σ) excuse (Layer.Alike True [] []) (Layer.assemble config tree capacity depth)
      (Layer.assemble { config with overflowSize } tree capacity depth) := by
  have hlevels : 2 ^ 64 ≤ Bucket.capacity * tree.levels + overflowSize → excuse := fun h =>
    hroom (h.trans (Nat.add_le_add_right (Nat.mul_le_mul_left _ (Nat.le_of_lt_succ tree.levels_lt)) _))
  apply (Stash.Alike.create hlevels).bind
  intro stash stash' hstash
  apply (Engine.Follows.lift (.refl _)).bind
  rintro path _ rfl
  apply (Engine.Follows.tell _).bind
  rintro _ _ rfl
  exact .pure ⟨.refl tree, hstash, fun _ => rfl, rfl, rfl, rfl, rfl⟩

end

variable [LeafSource σ]

theorem ScanMap.create_follows (size : Nat) (positions : Word) :
    Creation.Follows (σ := σ) excuse Eq (ScanMap.create size positions)
      (ScanMap.create size positions) := by
  rw [ScanMap.create]
  split
  · exact .throw _
  · apply (Creation.Follows.lift (.drawMany positions size)).bind
    rintro entries _ rfl
    exact .pure rfl

namespace PositionMap.Alike

theorem fill (positions : Word) (count : Nat) (id : Word) {layer layer' : Layer w}
    {below below' : PositionMap w} (hlayer : layer.Alike True [] [] layer')
    (hbelow : below.Alike below') :
    Engine.Follows (σ := σ) excuse
      (Agree fun x y => x.1.Alike True [] [] y.1 ∧ x.2.Alike y.2)
      (PositionMap.fill positions count id layer below)
      (PositionMap.fill positions count id layer' below') := by
  induction count generalizing id layer layer' below below' with
  | zero => exact .pure (.ok ⟨hlayer, hbelow⟩)
  | succ count ih =>
    apply (Engine.Follows.drawMany positions w).bind
    rintro entries _ rfl
    apply (hlayer.access hbelow hbelow.relocate id _).bind
    rintro ⟨_ | _, layer, below⟩ ⟨_, layer', below'⟩ ⟨rfl, hlayer, hbelow⟩
    · exact .pure (.error _)
    · exact ih (id + 1) hlayer hbelow

include hroom

theorem create (size : Nat) (positions : Word) :
    Creation.Follows (σ := σ) excuse (Alike (w := w)) (PositionMap.create config size positions)
      (PositionMap.create { config with overflowSize } size positions) := by
  induction size using Nat.strong_induction_on generalizing positions with
  | _ size ih =>
  -- No check looks at the overflow size, so both sides go the same way at each of them.
  rw [PositionMap.create, PositionMap.create]
  by_cases hzero : positions = 0 ∨ w = 0
  · rw [if_pos hzero, if_pos hzero]
    exact .throw _
  rw [if_neg hzero, if_neg hzero]
  by_cases hscan : size ≤ config.scanThreshold
  · rw [if_pos hscan, if_pos hscan]
    apply (Creation.Follows.lift (.tell _)).bind
    rintro _ _ rfl
    apply (ScanMap.create_follows size positions).bind
    rintro map _ rfl
    exact .pure (.scan map)
  rw [if_neg hscan, if_neg hscan]
  by_cases hw : w < 2
  · rw [if_pos hw, if_pos hw]
    exact .throw _
  rw [if_neg hw, if_neg hw]
  apply (Creation.Follows.lift (Engine.Follows.tell _)).bind
  rintro _ _ rfl
  by_cases hthreshold : config.scanThreshold = 0
  · rw [if_pos hthreshold, if_pos hthreshold]
    exact .throw _
  rw [if_neg hthreshold, if_neg hthreshold]
  have hlt : ceilDiv size w < size := ceilDiv_lt (by omega) (by omega)
  apply (Creation.Follows.except (.refl _)).bind
  rintro tree _ rfl
  apply (ih _ hlt tree.leaves).bind
  intro below below' hbelow
  rw [hbelow.depth_eq]
  apply (Creation.Follows.lift (Layer.Alike.assemble hroom tree _ _)).bind
  intro layer layer' hlayer
  obtain ⟨hfirst, hlayer⟩ := hlayer.allocate (ceilDiv size w)
  generalize layer.allocate (ceilDiv size w) = allocated, layer'.allocate (ceilDiv size w) = allocated'
    at hfirst hlayer ⊢
  obtain ⟨_ | first, layer⟩ := allocated
  · obtain ⟨_, layer'⟩ := allocated'
    cases hfirst
    exact .throw _
  · obtain ⟨_, layer'⟩ := allocated'
    cases hfirst
    apply Creation.Follows.bind (fill positions _ first hlayer hbelow)
    rintro ⟨layer, below⟩ ⟨layer', below'⟩ ⟨hlayer, hbelow⟩
    exact .pure (.packed hlayer hbelow first size)

end PositionMap.Alike

namespace Oram.Alike

include hroom

theorem build (levels blocks : Nat) :
    Creation.Follows (σ := σ) excuse (Alike (w := w) True [] []) (Oram.build config levels blocks)
      (Oram.build { config with overflowSize } levels blocks) := by
  rw [Oram.build, Oram.build]
  split
  · exact .throw _
  · apply (Creation.Follows.except (.refl _)).bind
    rintro tree _ rfl
    apply (PositionMap.Alike.create hroom blocks tree.leaves).bind
    intro positions positions' hpositions
    rw [hpositions.depth_eq]
    apply (Creation.Follows.lift (Layer.Alike.assemble hroom tree _ _)).bind
    intro layer layer' hlayer
    exact .pure ⟨hlayer, hpositions⟩

theorem create (words : Nat) :
    Creation.Follows (σ := σ) excuse (Alike (w := w) True [] []) (Oram.create config words)
      (Oram.create { config with overflowSize } words) := by
  rw [Oram.create, Oram.create]
  split
  · exact .throw _
  · exact build hroom _ _

end Oram.Alike

end ObliviousRam
