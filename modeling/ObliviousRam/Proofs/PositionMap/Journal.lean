import ObliviousRam.Proofs.Layer.Journal
import ObliviousRam.Proofs.PositionMap.Creation

namespace ObliviousRam

open LeafSource

variable {w : Nat} {σ : Type}

namespace PositionMap

def enter : PositionMap w → List Nat → List Nat
  | scan _, noted => noted
  | packed layer _ _ _, noted => layer.stash.overflowCount :: noted

/-- What is published for a map is what the layer that it is packed into went through, each access of
which has read one path of its tree. -/
def Tells : PositionMap w → List Nat → Prop
  | scan _, noted => noted = []
  | packed layer _ _ _, noted =>
    layer.Tells noted ∧ layer.tree.reads = layer.tree.levels * noted.length

theorem Tells.visited {layer layer' : Layer w} {below below' : PositionMap w} {first previous : Word}
    {size : Nat} {block : Block w} {noted : List Nat} (h : (packed layer below first size).Tells noted)
    (hv : layer.Visited previous block layer') :
    (packed layer' below' first size).Tells (layer'.stash.overflowCount :: noted) := by
  refine ⟨h.1.visited hv, ?_⟩
  rw [hv.reads_eq, h.2, hv.levels, List.length_cons, Nat.mul_succ]

theorem Relocated.tells {m m' : PositionMap w} {id position : Word} {draws : List Word}
    (h : m.Relocated id position draws m') {noted : List Nat} (hm : m.Tells noted) :
    m'.Tells (m'.enter noted) := by
  cases h with
  | scan => exact hm
  | packed hblock hbelow hlayer => exact hm.visited hlayer

variable [LeafSource σ]

def fillNoted (positions : Word) : Nat → Word → Layer w → PositionMap w → List Nat →
    Engine σ (Except Refusal (Layer w × PositionMap w × List Nat))
  | 0, _, layer, below, noted => return .ok (layer, below, noted)
  | count + 1, id, layer, below, noted => do
    let entries ← Engine.drawMany positions w
    let data : Vector Word w := Vector.ofFn fun i => entries.getD i 0
    match ← layer.access below below.relocate id fun _ => (.ok (), data) with
    | (.ok (), layer, below) =>
      fillNoted positions count (id + 1) layer below (layer.stash.overflowCount :: noted)
    | (.error refusal, _, _) => return .error refusal

/-- Creates a map, and answers the journal of the layer that it is packed into. -/
def createNoted (config : Config) (size : Nat) (positions : Word) :
    Creation σ (PositionMap w × List Nat) :=
  if positions = 0 ∨ w = 0 then throw .invalidConfiguration
  else if size ≤ config.scanThreshold then do
    (Engine.tell (.scanMapCreated size) : Engine σ Unit)
    return (scan (← ScanMap.create size positions), [])
  else if w < 2 then throw .invalidConfiguration
  else do
    (Engine.tell (.packedMapCreated size w) : Engine σ Unit)
    if config.scanThreshold = 0 then throw .invalidConfiguration
    else
      let count := ceilDiv size w
      let tree ← BucketTree.create (levelsFor count)
      let below ← create config count tree.leaves
      let layer ← (Layer.assemble config tree count below.depth : Engine σ (Layer w))
      match layer.allocate count with
      | (some first, layer) =>
        let (layer, below, noted) ← ExceptT.mk (fillNoted positions count first layer below [])
        return (packed layer below first size, noted)
      | (none, _) => throw .invalidConfiguration

theorem fillNoted_erase (positions : Word) (count : Nat) (id : Word) (layer : Layer w)
    (below : PositionMap w) (noted : List Nat) :
    (Except.map fun x => (x.1, x.2.1)) <$> fillNoted (σ := σ) positions count id layer below noted =
      fill positions count id layer below := by
  induction count generalizing id layer below noted with
  | zero => rfl
  | succ count ih =>
    rw [fillNoted, fill, map_bind]
    apply bind_congr
    intro entries
    rw [map_bind]
    apply bind_congr
    rintro ⟨_ | _, layer, below⟩
    · rfl
    · exact ih _ _ _ _

theorem createNoted_erase (config : Config) (size : Nat) (positions : Word) :
    Prod.fst <$> createNoted (w := w) (σ := σ) config size positions =
      create config size positions := by
  have hfill : ∀ (count : Nat) (first : Word) (layer : Layer w) (below : PositionMap w),
      (fun x => (x.1, x.2.1)) <$>
          (ExceptT.mk (fillNoted positions count first layer below []) : Creation σ _) =
        ExceptT.mk (fill positions count first layer below) := by
    intro count first layer below
    apply ExceptT.ext
    rw [ExceptT.run_map]
    exact fillNoted_erase positions count first layer below []
  -- Both go through the same steps up to the fill.
  rw [createNoted, create]
  split
  · rfl
  split
  · simp only [map_bind, map_pure]
  split
  · rfl
  rw [map_bind]
  apply bind_congr
  intro
  split
  · rfl
  simp only [map_bind]
  apply bind_congr
  intro tree
  apply bind_congr
  intro below
  apply bind_congr
  intro layer
  rcases layer.allocate (ceilDiv size w) with ⟨_ | first, layer⟩
  · rfl
  · simp only [← hfill, bind_map_left, map_bind, map_pure]

variable [LawfulLeafSource σ]

theorem tells_of_fillNoted {positions : Word} {count : Nat} {id first : Word} {size : Nat} {o : Oram w}
    {noted noted' : List Nat} {layer : Layer w} {below : PositionMap w} {env env' : Env σ}
    (ho : o.Sound) (hid : id.toNat + count ≤ o.layer.allocated)
    (hnoted : (packed o.layer o.positions first size).Tells noted)
    (h : (fillNoted positions count id o.layer o.positions noted).run env =
      (.ok (.ok (layer, below, noted')), env')) :
    (packed layer below first size).Tells noted' := by
  induction count generalizing id o noted env with
  | zero =>
    cases h
    exact hnoted
  | succ count ih =>
    have hsucc : (id + 1).toNat = id.toNat + 1 := by
      have := ho.layer.allocated_le
      have := ho.layer.capacity_lt
      rw [UInt64.toNat_add, UInt64.toNat_one, Nat.mod_eq_of_lt (by omega)]
    have hidlt : id.toNat < o.layer.allocated := by omega
    obtain ⟨entries, env₁, -, h⟩ := Engine.exists_of_run_bind h
    obtain ⟨layer₁, below₁, log, hrun, haccessed⟩ := Layer.exists_access ho.layer ho.size hidlt
      (exists_relocate ho.positions)
      (fun _ => (.ok (), Vector.ofFn fun i : Fin w => entries.getD i 0)) env₁
    rw [Engine.run_bind_ok hrun] at h
    have hsound := haccessed.sound ho hidlt (o.forall₂_leafCounts env₁.source)
    have hallocated : layer₁.allocated = o.layer.allocated := haccessed.allocated_eq
    refine ih (o := ⟨layer₁, below₁⟩) hsound (by rw [hsucc, hallocated]; omega) ?_ h
    cases haccessed with
    | intro hrelocated hvisited => exact hnoted.visited hvisited

theorem tells_of_createNoted {config : Config} {size : Nat} {positions : Word} {m : PositionMap w}
    {noted : List Nat} {env env' : Env σ}
    (h : Creation.run (createNoted config size positions) env = (.ok (.ok (m, noted)), env')) :
    m.Tells noted := by
  rw [createNoted] at h
  split at h
  · cases h
  split at h
  · obtain ⟨_, _, -, h⟩ := Creation.exists_of_run_bind h
    obtain ⟨map, _, -, h⟩ := Creation.exists_of_run_bind h
    cases h
    rfl
  split at h
  · cases h
  obtain ⟨_, _, -, h⟩ := Creation.exists_of_run_bind h
  split at h
  · cases h
  obtain ⟨tree, _, hcreate, h⟩ := Creation.exists_of_run_bind h
  obtain ⟨htree, rfl⟩ := Creation.exists_of_run_except hcreate
  obtain ⟨below, _, hbelow, h⟩ := Creation.exists_of_run_bind h
  obtain ⟨layer, _, hlayer, h⟩ := Creation.exists_of_run_bind h
  have hassemble := Creation.exists_of_run_lift hlayer
  obtain ⟨hfresh, -⟩ := Layer.fresh_of_assemble htree hassemble
  rw [hfresh.allocate_all] at h
  obtain ⟨⟨layer', below', noted'⟩, _, hfill, h⟩ := Creation.exists_of_run_bind h
  cases h
  obtain ⟨hsound, hsize, -, bounds, slot, -, hdrawn, -⟩ := exists_of_create hbelow
  obtain ⟨-, hosound⟩ := sound_handed_out htree hassemble hsound hsize hdrawn
  have hempty := hfresh.tells (ceilDiv size w)
  have hreads := (hfresh.counted (ceilDiv size w)).reads
  rw [hempty.accesses] at hreads
  exact tells_of_fillNoted hosound (toNat_zero_add_le _) ⟨hempty, hreads⟩ hfill

end PositionMap

end ObliviousRam
