import Mathlib.Data.List.Nodup
import ObliviousRam.Proofs.Tree.Geometry

namespace ObliviousRam.Path

def ofLeaf (levels : Nat) (leaf : Word) : Path := ⟨leaf, above (levels - 1) 0 leaf⟩

theorem getLast?_nodes (p : Path) : p.nodes.getLast? = some p.root := by
  rw [nodes, List.getLast?_cons, root, List.getLastD_eq_getLast?]

theorem heightOf_eq {levels : Nat} {root : Word} (hlt : levels < 64)
    (hroot : root.toNat = 2 ^ (levels - 1) - 1) : heightOf root = .ok (levels - 1) := by
  have hpow : 2 ^ (levels - 1) ≤ 2 ^ 62 := Nat.pow_le_pow_right (by decide) (by omega)
  have hone := Nat.two_pow_pos (levels - 1)
  have hsize : root.toNat + 1 = 2 ^ (levels - 1) := by omega
  rw [heightOf, hsize, Word.fits, if_pos (by omega)]
  simp [bind, Except.bind, Nat.log2_two_pow, pure, Except.pure]

theorem toNat_above (count l leaf : Nat) (x : Word) (hcount : l + count < 64)
    (hx : x.toNat = Node.ancestor l leaf) :
    (above count l x).map UInt64.toNat =
      (List.range' (l + 1) count).map fun l => Node.ancestor l leaf := by
  induction count generalizing l x with
  | zero => rfl
  | succ count ih =>
    have hparent := Node.toNat_parent l leaf x (by omega) hx
    rw [above, List.map_cons, ih (l + 1) _ (by omega) hparent, List.range'_succ, List.map_cons,
      hparent]

section

variable (levels : Nat) (leaf : Word) (hpos : 0 < levels) (hlt : levels < 64)
include hpos

theorem length_ofLeaf : (ofLeaf levels leaf).length = levels := by
  rw [length, ofLeaf, length_above]
  omega

include hlt

theorem toNat_nodes (heven : leaf.toNat % 2 = 0) :
    (ofLeaf levels leaf).nodes.map UInt64.toNat =
      (List.range levels).map fun l => Node.ancestor l leaf.toNat := by
  have hleaf := (Node.ancestor_zero leaf.toNat heven).symm
  obtain ⟨height, rfl⟩ := Nat.exists_eq_add_of_le hpos
  rw [nodes, ofLeaf, List.map_cons, Nat.succ_eq_add_one, Nat.zero_add, Nat.add_sub_cancel_left,
    toNat_above height 0 _ leaf (by omega) hleaf, List.range_eq_range', Nat.add_comm 1 height,
    List.range'_succ, List.map_cons, Nat.zero_add, ← hleaf]

theorem nodup_nodes (heven : leaf.toNat % 2 = 0) : (ofLeaf levels leaf).nodes.Nodup := by
  apply List.Nodup.of_map UInt64.toNat
  rw [toNat_nodes levels leaf hpos hlt heven]
  exact List.nodup_range.map fun l l' => Node.ancestor_injective l l' leaf.toNat

theorem toNat_root_add (heven : leaf.toNat % 2 = 0) : (ofLeaf levels leaf).root.toNat =
    leaf.toNat / 2 ^ levels * 2 ^ levels + (2 ^ (levels - 1) - 1) := by
  have h := congrArg List.getLast? (toNat_nodes levels leaf hpos hlt heven)
  rw [List.getLast?_map, getLast?_nodes, List.getLast?_map, List.getLast?_range, if_neg (by omega),
    Option.map_some, Option.map_some, Option.some.injEq] at h
  rw [h, Node.ancestor, Node.base, Nat.sub_add_cancel hpos]

theorem toNat_root (heven : leaf.toNat % 2 = 0) (hleaf : leaf.toNat < 2 ^ levels) :
    (ofLeaf levels leaf).root.toNat = 2 ^ (levels - 1) - 1 := by
  rw [toNat_root_add levels leaf hpos hlt heven, Nat.div_eq_of_lt hleaf, Nat.zero_mul, Nat.zero_add]

theorem mem_nodes_ofLeaf (x : Word) (heven : leaf.toNat % 2 = 0) :
    x ∈ (ofLeaf levels leaf).nodes ↔ ∃ l < levels, x.toNat = Node.ancestor l leaf.toNat := by
  have hnodes := toNat_nodes levels leaf hpos hlt heven
  constructor
  · intro h
    have hmem := List.mem_map_of_mem (f := UInt64.toNat) h
    rw [hnodes, List.mem_map] at hmem
    obtain ⟨l, hl, hx⟩ := hmem
    exact ⟨l, List.mem_range.1 hl, hx.symm⟩
  · rintro ⟨l, hl, hx⟩
    have hmem : x.toNat ∈ (ofLeaf levels leaf).nodes.map UInt64.toNat := by
      rw [hnodes, hx]
      exact List.mem_map_of_mem (List.mem_range.2 hl)
    obtain ⟨y, hy, hxy⟩ := List.mem_map.1 hmem
    rwa [← UInt64.toNat_inj.1 hxy]

theorem toNat_root_lt_iff (heven : leaf.toNat % 2 = 0) :
    (ofLeaf levels leaf).root.toNat < 2 ^ 63 ↔ leaf.toNat < 2 ^ 63 := by
  have hpow : 2 ^ 63 = 2 ^ (63 - levels) * 2 ^ levels := by
    rw [← Nat.pow_add, Nat.sub_add_cancel (by omega)]
  have hdiv : leaf.toNat < 2 ^ 63 ↔ leaf.toNat / 2 ^ levels < 2 ^ (63 - levels) := by
    rw [Nat.div_lt_iff_lt_mul (Nat.two_pow_pos _), ← hpow]
  have hblock : 2 ^ (levels - 1) ≤ 2 ^ levels := Nat.pow_le_pow_right (by decide) (by omega)
  have hone := Nat.two_pow_pos (levels - 1)
  rw [hdiv, toNat_root_add levels leaf hpos hlt heven, hpow]
  constructor
  · intro h
    apply Nat.lt_of_mul_lt_mul_right (a := 2 ^ levels)
    omega
  · intro h
    have hnext := Nat.mul_le_mul_right (2 ^ levels) (Nat.succ_le_of_lt h)
    rw [Nat.succ_mul] at hnext
    omega

theorem toNat_le_two_mul_root (heven : leaf.toNat % 2 = 0) :
    leaf.toNat ≤ 2 * (ofLeaf levels leaf).root.toNat := by
  have hsize : 2 ^ levels = 2 * 2 ^ (levels - 1) := by
    conv_lhs => rw [← Nat.sub_add_cancel hpos, Nat.pow_succ, Nat.mul_comm]
  have hsplit := Nat.div_add_mod' leaf.toNat (2 ^ levels)
  have hmod := Nat.mod_lt leaf.toNat (Nat.two_pow_pos levels)
  have hparity : leaf.toNat % 2 ^ levels % 2 = 0 := by
    rw [Nat.mod_mod_of_dvd _ (hsize ▸ Nat.dvd_mul_right 2 _), heven]
  rw [toNat_root_add levels leaf hpos hlt heven]
  omega

/-- The way up from a leaf is only given up if twice the last node does not fit in a word. -/
theorem climb_even (heven : leaf.toNat % 2 = 0) : climb (levels - 1) leaf =
    if leaf.toNat < 2 ^ 63 then .ok (ofLeaf levels leaf) else .error .wordOverflow := by
  have hleaf := Node.isLeaf_iff.2 heven
  have hroot := toNat_root_lt_iff levels leaf hpos hlt heven
  have hle := toNat_le_two_mul_root levels leaf hpos hlt heven
  have hheight : levels - 1 < 63 := by omega
  by_cases hsmall : leaf.toNat < 2 ^ 63
  · have hdouble : Word.double (ofLeaf levels leaf).root = .ok (2 * (ofLeaf levels leaf).root) := by
      rw [Word.double, if_pos (hroot.2 hsmall)]
    have hbound : leaf ≤ 2 * (ofLeaf levels leaf).root := by
      rwa [UInt64.le_iff_toNat_le, Word.toNat_double hdouble]
    rw [ofLeaf] at hdouble hbound
    simp only [climb, hleaf, ↓reduceIte, hheight, hbound, hdouble, hsmall, bind, Except.bind]
    rfl
  · have hdouble : Word.double (ofLeaf levels leaf).root = .error .wordOverflow := by
      rw [Word.double, if_neg (mt hroot.1 hsmall)]
    rw [ofLeaf] at hdouble
    simp only [climb, hleaf, ↓reduceIte, hheight, hdouble, hsmall, bind, Except.bind]

theorem climb_eq (heven : leaf.toNat % 2 = 0) (hleaf : leaf.toNat < 2 ^ levels) :
    climb (levels - 1) leaf = .ok (ofLeaf levels leaf) := by
  have hle : 2 ^ levels ≤ 2 ^ 63 := Nat.pow_le_pow_right (by decide) (by omega)
  rw [climb_even levels leaf hpos hlt heven, if_pos (Nat.lt_of_lt_of_le hleaf hle)]

theorem retarget_eq (heven : leaf.toNat % 2 = 0) (hleaf : leaf.toNat < 2 ^ levels) (p : Path)
    (hp : p.length = levels) : p.retarget leaf = .ok (ofLeaf levels leaf) := by
  have hheight : p.ancestors.length = levels - 1 := by
    rw [← hp, length]
    omega
  rw [retarget, hheight, climb_eq levels leaf hpos hlt heven hleaf]

theorem between_eq (heven : leaf.toNat % 2 = 0) (hleaf : leaf.toNat < 2 ^ levels) (root : Word)
    (hroot : root.toNat = 2 ^ (levels - 1) - 1) : between leaf root = .ok (ofLeaf levels leaf) := by
  have hsame : (ofLeaf levels leaf).root = root := by
    rw [← UInt64.toNat_inj, hroot]
    exact toNat_root levels leaf hpos hlt heven hleaf
  rw [between, heightOf_eq hlt hroot]
  simp [bind, Except.bind, climb_eq levels leaf hpos hlt heven hleaf, hsame, pure, Except.pure]

theorem ancestor_of_getElem? (heven : leaf.toNat % 2 = 0) {l : Nat} {x : Word}
    (hx : (ofLeaf levels leaf).nodes[l]? = some x) :
    l < levels ∧ x.toNat = Node.ancestor l leaf.toNat := by
  have hnodes := congrArg (·[l]?) (toNat_nodes levels leaf hpos hlt heven)
  simp only [List.getElem?_map, hx, Option.map_some] at hnodes
  obtain ⟨k, hk, heq⟩ := Option.map_eq_some_iff.1 hnodes.symm
  obtain ⟨hl, rfl⟩ := List.getElem?_eq_some_iff.1 hk
  rw [List.getElem_range] at heq
  exact ⟨by simpa using hl, heq.symm⟩

theorem below_of_getElem? (heven : leaf.toNat % 2 = 0) {i j : Nat} {x y : Word} (hij : i ≤ j)
    (hy : (ofLeaf levels leaf).nodes[i]? = some y) (hx : (ofLeaf levels leaf).nodes[j]? = some x) :
    Node.Below x y := by
  obtain ⟨hj, hx⟩ := ancestor_of_getElem? levels leaf hpos hlt heven hx
  obtain ⟨-, hy⟩ := ancestor_of_getElem? levels leaf hpos hlt heven hy
  obtain ⟨rise, rfl⟩ := Nat.exists_eq_add_of_le hij
  exact Node.below_of_ancestor rise i leaf.toNat x y (by omega) hx hy

end

end ObliviousRam.Path
