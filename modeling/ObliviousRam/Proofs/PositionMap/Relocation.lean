import ObliviousRam.Oram
import ObliviousRam.Proofs.PositionMap.Entries

namespace ObliviousRam

open LeafSource

variable {w : Nat} {σ α : Type} [LeafSource σ]

theorem LeafSource.forall₂_drawAll [LawfulLeafSource σ] (ns : List Word) (hns : ∀ n ∈ ns, 0 < n)
    (s : σ) : List.Forall₂ (· < ·) (drawAll ns s).1 ns := by
  induction ns generalizing s with
  | nil => exact .nil
  | cons n ns ih =>
    exact .cons (LawfulLeafSource.draw_lt n s (hns n (by simp))) (ih (fun m hm => hns m (by simp [hm])) _)

theorem BucketTree.leaves_pos (t : BucketTree w) : 0 < t.leaves := by
  rw [UInt64.lt_iff_toNat_lt, toNat_leaves]
  exact Nat.two_pow_pos _

theorem PositionMap.leafCounts_pos (m : PositionMap w) : ∀ n ∈ m.leafCounts, 0 < n := by
  induction m with
  | scan => exact fun _ h => nomatch h
  | packed layer below first size ih =>
    intro n hn
    obtain rfl | hn := List.mem_cons.1 hn
    · exact layer.tree.leaves_pos
    · exact ih n hn

namespace PositionMap

theorem entry_packed (layer : Layer w) (below : PositionMap w) (first id : Word) (size : Nat) :
    (packed layer below first size).entry id.toNat =
      (layer.contents (blockOf w first id)).toList.getD (id.toNat % w) 0 := rfl

theorem exchangeWord_eq (i : Nat) (x : Word) (data : Vector Word w) (hi : i < w) :
    exchangeWord i x data = (.ok (data.toList.getD i 0), Window.write i [x] data) := by
  rw [exchangeWord, Window.read_eq i 1 data [0] rfl hi, getD_toList data i hi,
    List.drop_eq_getElem_cons (by simpa using hi)]
  simp

theorem readWord_eq (i : Nat) (data : Vector Word w) :
    readWord i data = (.ok (data.toList.getD i 0), data) := by
  rw [readWord, Scan.pick_eq_getD]

theorem write_getD (i : Nat) (data : Vector Word w) (hi : i < w) :
    Window.write i [data.toList.getD i 0] data = data := by
  apply Vector.ext
  intro j hj
  rw [Window.getElem_write, List.length_singleton, getD_toList data i hi]
  by_cases h : i ≤ j ∧ j < i + 1
  · obtain rfl : j = i := by omega
    rw [if_pos h, Nat.sub_self]
    rfl
  · rw [if_neg h]

theorem relocate_of_le (m : PositionMap w) (id position : Word) (env : Env σ)
    (hid : m.size ≤ id.toNat) :
    (m.relocate id position).run env = (.ok (.error .addressOutOfBounds, m), env) := by
  cases m with
  | scan map =>
    rw [relocate, ScanMap.relocate_of_le hid]
    rfl
  | packed layer below first size =>
    have hid : ¬id.toNat < size := Nat.not_lt.2 hid
    rw [relocate, if_neg hid]
    rfl

theorem get_of_le (m : PositionMap w) (id : Word) (env : Env σ) (hid : m.size ≤ id.toNat) :
    (m.get id).run env = (.ok (.error .addressOutOfBounds, m), env) := by
  cases m with
  | scan map =>
    rw [get, ScanMap.get_of_le hid]
    rfl
  | packed layer below first size =>
    have hid : ¬id.toNat < size := Nat.not_lt.2 hid
    rw [get, if_neg hid]
    rfl

end PositionMap

/-- Block `id` was accessed and left with `data`. The first of the draws is the leaf it is sent
to, the others are spent on the map. -/
inductive Oram.Accessed : Oram w → Word → List Word → Vector Word w → Oram w → Prop
  | intro {o o' : Oram w} {id next : Word} {rest : List Word} {data : Vector Word w}
    (hpositions : o.positions.Relocated id next rest o'.positions)
    (hlayer : o.layer.Visited (o.positions.entry id.toNat) ⟨id, 2 * next, data⟩ o'.layer) :
    Accessed o id (next :: rest) data o'

structure Oram.Sound (o : Oram w) : Prop where
  size : o.positions.size = o.layer.capacity
  layer : o.layer.Sound o.positions.entry
  positions : o.positions.Sound

def PositionMap.Relocates (σ : Type) [LeafSource σ] (m : PositionMap w) : Prop :=
  ∀ (id position : Word) (env : Env σ), id.toNat < m.size → ∃ m' log,
    (m.relocate id position).run env =
      (.ok (.ok (m.entry id.toNat), m'), ⟨(drawAll m.leafCounts env.source).2, log⟩) ∧
    m.Relocated id position (drawAll m.leafCounts env.source).1 m'

variable [LawfulLeafSource σ]

theorem Layer.exists_access {layer : Layer w} {below : PositionMap w}
    (hlayer : layer.Sound below.entry) (hsize : below.size = layer.capacity) {id : Word}
    (hid : id.toNat < layer.allocated) (hbelow : below.Relocates σ) (use : Accessor w α)
    (env : Env σ) : ∃ layer' below' log,
      (layer.access below below.relocate id use).run env =
        (.ok ((use (layer.contents id)).1, layer', below'),
          ⟨(drawAll (layer.tree.leaves :: below.leafCounts) env.source).2, log⟩) ∧
      Oram.Accessed ⟨layer, below⟩ id
        (drawAll (layer.tree.leaves :: below.leafCounts) env.source).1
        (use (layer.contents id)).2 ⟨layer', below'⟩ := by
  have hnext := LawfulLeafSource.draw_lt layer.tree.leaves env.source layer.tree.leaves_pos
  rw [UInt64.lt_iff_toNat_lt, layer.tree.toNat_leaves] at hnext
  obtain ⟨below', log₁, hrelocate, hrelocated⟩ := hbelow id
    (draw layer.tree.leaves env.source).1 { env with source := (draw layer.tree.leaves env.source).2 }
    (Nat.lt_of_lt_of_le hid (hsize ▸ hlayer.allocated_le))
  obtain ⟨layer', log₂, hvisit, hvisited⟩ := Layer.exists_visit hlayer hid hnext use
    ⟨(drawAll below.leafCounts (draw layer.tree.leaves env.source).2).2, log₁⟩
  refine ⟨layer', below', log₂, ?_, .intro hrelocated hvisited⟩
  rw [access, if_pos hid]
  simp only [Engine.run_bind, Engine.run_draw, hrelocate, hvisit, Engine.run_pure, drawAll]

theorem Oram.Accessed.relocated {layer layer' : Layer w} {below below' : PositionMap w}
    {first id position : Word} {draws : List Word} {size : Nat}
    (h : Accessed ⟨layer, below⟩ (PositionMap.blockOf w first id) draws
      (Window.write (id.toNat % w) [position] (layer.contents (PositionMap.blockOf w first id)))
      ⟨layer', below'⟩) :
    (PositionMap.packed layer below first size).Relocated id position draws
      (.packed layer' below' first size) := by
  cases h with
  | intro hpositions hlayer => exact .packed rfl hpositions hlayer

namespace PositionMap

theorem blockOf_lt {layer : Layer w} {below : PositionMap w} {first id : Word} {size : Nat}
    (h : (packed layer below first size).Sound) (hid : id.toNat < size) :
    (blockOf w first id).toNat < layer.allocated := by
  obtain ⟨hw, rfl, hcapacity, hallocated, -⟩ := h
  rw [toNat_blockOf, hallocated, hcapacity]
  exact div_lt_ceilDiv (by omega) hid

/-- Whatever the map is packed into, a look-up succeeds and answers the entry. -/
theorem exists_relocate {m : PositionMap w} (hm : m.Sound) : m.Relocates σ := by
  induction m with
  | scan map =>
    intro id position env hid
    refine ⟨_, env.log, ?_, .scan map id position⟩
    rw [relocate, ScanMap.relocate_of_lt hid]
    rfl
  | packed layer below first size ih =>
    intro id position env (hid : id.toNat < size)
    have hblock := blockOf_lt hm hid
    obtain ⟨hw, hfirst, hcapacity, hallocated, hsize, hlayer, hbelow⟩ := hm
    obtain ⟨layer', below', log, hrun, haccessed⟩ := Layer.exists_access hlayer hsize hblock
      (ih hbelow) (exchangeWord (id.toNat % w) position) env
    rw [exchangeWord_eq _ _ _ (Nat.mod_lt _ (by omega))] at hrun haccessed
    refine ⟨packed layer' below' first size, log, ?_, haccessed.relocated⟩
    rw [relocate, if_pos hid, Engine.run_bind_ok hrun]
    rfl

theorem exists_get {m : PositionMap w} (hm : m.Sound) (id : Word) (env : Env σ)
    (hid : id.toNat < m.size) : ∃ m' log,
      (m.get id).run env =
        (.ok (.ok (m.entry id.toNat), m'), ⟨(drawAll m.leafCounts env.source).2, log⟩) ∧
      m.Relocated id (m.entry id.toNat) (drawAll m.leafCounts env.source).1 m' := by
  cases m with
  | scan map =>
    have hlt : id.toNat < map.entries.size := hid
    have hsame : map.entries.setIfInBounds id.toNat (map.entries.getD id.toNat 0) = map.entries := by
      simp [Array.setIfInBounds, hlt, Array.getD]
    have hrelocated := Relocated.scan (w := w) map id (map.entries.getD id.toNat 0)
    rw [hsame] at hrelocated
    refine ⟨scan map, env.log, ?_, hrelocated⟩
    rw [get, ScanMap.get_of_lt hid]
    rfl
  | packed layer below first size =>
    have hid : id.toNat < size := hid
    have hblock := blockOf_lt hm hid
    obtain ⟨hw, hfirst, hcapacity, hallocated, hsize, hlayer, hbelow⟩ := hm
    have hlt := Nat.mod_lt id.toNat (show 0 < w by omega)
    obtain ⟨layer', below', log, hrun, haccessed⟩ := Layer.exists_access hlayer hsize hblock
      (exists_relocate hbelow) (readWord (id.toNat % w)) env
    rw [readWord_eq] at hrun haccessed
    refine ⟨packed layer' below' first size, log, ?_, ?_⟩
    · rw [get, if_pos hid, Engine.run_bind_ok hrun]
      rfl
    · apply Oram.Accessed.relocated
      rw [entry_packed, write_getD _ _ hlt]
      exact haccessed

end PositionMap

end ObliviousRam
