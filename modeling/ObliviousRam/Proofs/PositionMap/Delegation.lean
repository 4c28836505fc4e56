import ObliviousRam.Oram

namespace ObliviousRam

variable {w : Nat} {σ α β : Type}

section

variable {f : α → β} {use : Accessor w α} {use' : Accessor w β}
  (h : ∀ data, use' data = ((use data).1.map f, (use data).2))
include h

theorem Layer.gather_map (layer : Layer w) (id previous next : Word) :
    layer.gather (σ := σ) id previous next use' =
      (fun x => (x.1.map f, x.2)) <$> layer.gather id previous next use := by
  simp only [gather, h, map_bind, map_pure]

theorem Oram.access_map [LeafSource σ] (o : Oram w) (id : Word) :
    o.access (σ := σ) id use' = (fun x => (x.1.map f, x.2)) <$> o.access id use := by
  rw [access, access, Layer.access, Layer.access]
  split
  · simp only [map_bind, bind_assoc]
    apply bind_congr
    intro next
    apply bind_congr
    rintro ⟨_ | previous, positions⟩
    · simp only [pure_bind, map_pure]
      rfl
    · simp only [Layer.visit, Layer.gather_map h, bind_assoc, bind_map_left, pure_bind, map_pure]
  · simp only [pure_bind, map_pure]
    rfl

end

namespace PositionMap

variable [LeafSource σ] (layer : Layer w) (below : PositionMap w) (first id position : Word)
  (size : Nat) (hid : id.toNat < size)
include hid

/-- A relocation is a partial write to the memory below, which finds nothing wrong with the window. -/
theorem relocate_eq_putPartial (hw : 0 < w) :
    (packed layer below first size).relocate (σ := σ) id position = do
      let (answer, memory) ← Oram.putPartial ⟨layer, below⟩ (blockOf w first id) (id.toNat % w)
        [position] (some [0])
      return (answer.map fun buffer => (buffer.getD []).headD 0,
        packed memory.layer memory.positions first size) := by
  have hwindow : Oram.windowRefusal? w (id.toNat % w) 1 (some 1) = none := by
    have hlt := Nat.mod_lt id.toNat hw
    rw [Oram.windowRefusal?, if_neg (by omega), if_pos rfl]
  let use : Accessor w (Option (List Word)) := fun data =>
    (.ok (some (Window.read (id.toNat % w) 1 data [0])), Window.write (id.toNat % w) [position] data)
  have hputPartial : Oram.putPartial (σ := σ) ⟨layer, below⟩ (blockOf w first id) (id.toNat % w)
      [position] (some [0]) = Oram.access ⟨layer, below⟩ (blockOf w first id) use := by
    rw [Oram.putPartial, List.length_singleton, Option.map_some, List.length_singleton, hwindow]
    rfl
  have hexchange : ∀ data, exchangeWord (id.toNat % w) position data =
      ((use data).1.map fun buffer => (buffer.getD []).headD 0, (use data).2) := fun _ => rfl
  calc (packed layer below first size).relocate (σ := σ) id position
    _ = do
      let (answer, memory) ← Oram.access ⟨layer, below⟩ (blockOf w first id)
        (exchangeWord (id.toNat % w) position)
      return (answer, packed memory.layer memory.positions first size) := by
      simp only [relocate, if_pos hid, Oram.access, bind_assoc, pure_bind]
    _ = _ := by rw [hputPartial, Oram.access_map hexchange, bind_map_left]

/-- A look-up reads a block of the memory below, and then picks one of its words. -/
theorem get_eq_get : (packed layer below first size).get (σ := σ) id = do
      let (answer, memory) ← Oram.get ⟨layer, below⟩ (blockOf w first id)
      return (answer.map fun data => Scan.pick (id.toNat % w) data.toList,
        packed memory.layer memory.positions first size) := by
  let use : Accessor w (Vector Word w) := fun data => (.ok data, data)
  have hget : Oram.get (σ := σ) ⟨layer, below⟩ (blockOf w first id) =
      Oram.access ⟨layer, below⟩ (blockOf w first id) use := rfl
  have hread : ∀ data, readWord (id.toNat % w) data =
      ((use data).1.map fun data => Scan.pick (id.toNat % w) data.toList, (use data).2) := fun _ => rfl
  calc (packed layer below first size).get (σ := σ) id
    _ = do
      let (answer, memory) ← Oram.access ⟨layer, below⟩ (blockOf w first id) (readWord (id.toNat % w))
      return (answer, packed memory.layer memory.positions first size) := by
      simp only [get, if_pos hid, Oram.access, bind_assoc, pure_bind]
    _ = _ := by rw [hget, Oram.access_map hread, bind_map_left]

end PositionMap

end ObliviousRam
