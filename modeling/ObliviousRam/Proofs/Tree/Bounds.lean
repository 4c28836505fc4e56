import ObliviousRam.Proofs.Tree.Between

namespace ObliviousRam

namespace Node

theorem base_succ (l leaf : Nat) :
    base l leaf = base (l + 1) leaf ∨ base l leaf = base (l + 1) leaf + 2 ^ (l + 1) := by
  have hhalf : leaf / 2 ^ (l + 2) = leaf / 2 ^ (l + 1) / 2 := by
    rw [Nat.div_div_eq_div_mul, Nat.pow_succ 2 (l + 1)]
  have hup : base (l + 1) leaf = 2 * (leaf / 2 ^ (l + 1) / 2) * 2 ^ (l + 1) := by
    rw [base, hhalf, Nat.pow_succ 2 (l + 1), Nat.mul_comm 2, Nat.mul_assoc, Nat.mul_comm 2]
  obtain heven | hodd := Nat.mod_two_eq_zero_or_one (leaf / 2 ^ (l + 1))
  · left
    rw [hup, base]
    congr 1
    omega
  · right
    rw [hup, base, ← Nat.succ_mul]
    congr 1
    omega

theorem base_mono {l k : Nat} (h : l ≤ k) (leaf : Nat) : base k leaf ≤ base l leaf ∧
    base l leaf + 2 * (2 ^ l - 1) ≤ base k leaf + 2 * (2 ^ k - 1) := by
  induction h with
  | refl => exact ⟨Nat.le_refl _, Nat.le_refl _⟩
  | @step k _ ih =>
    have hpos := Nat.two_pow_pos k
    have hpow := Nat.pow_succ 2 k
    rw [Nat.succ_eq_add_one]
    obtain hbase | hbase := base_succ k leaf <;> omega

section Ancestor

variable {l leaf : Nat} {x : Word} (hx : x.toNat = ancestor l leaf) (hlt : x.toNat < 2 ^ 63)
include hx hlt

/-- The last position of a block of leaves is odd and lies beyond the greatest leaf. -/
theorem encloses_ancestor_iff (position : Word) :
    Encloses x position ↔ base l leaf ≤ position.toNat ∧
      position.toNat ≤ base l leaf + 2 * (2 ^ l - 1) := by
  obtain ⟨low, hlow, hbase⟩ := lowerBound_eq l leaf x hx hlt
  obtain ⟨high, hhigh, htop⟩ := upperBound_eq l leaf x hx hlt
  simp only [Encloses, hlow, hhigh, Except.ok.injEq, exists_and_left, exists_eq_left',
    UInt64.le_iff_toNat_le, hbase, htop]

theorem encloses_of_ancestor {position : Word} (hleaf : position.toNat = leaf)
    (heven : leaf % 2 = 0) : Encloses x position := by
  have hsplit : leaf = base l leaf + leaf % 2 ^ (l + 1) := by
    rw [base, Nat.mul_comm, Nat.div_add_mod]
  have hmod := Nat.mod_lt leaf (Nat.two_pow_pos (l + 1))
  have hparity : leaf % 2 ^ (l + 1) % 2 = 0 := by
    rw [Nat.mod_mod_of_dvd _ (Nat.pow_succ 2 l ▸ Nat.dvd_mul_left 2 (2 ^ l)), heven]
  rw [Nat.pow_succ] at hmod
  rw [encloses_ancestor_iff hx hlt, hleaf]
  omega

end Ancestor

end Node

namespace Path

variable {leaf root : Word} {p : Path}

theorem ancestor_of_between (h : between leaf root = .ok p) {l : Nat} {x : Word}
    (hx : p.nodes[l]? = some x) : x.toNat = Node.ancestor l leaf.toNat ∧ x.toNat < 2 ^ 63 := by
  obtain ⟨hp, hlt, heven, -⟩ := of_between h
  have hbound := toNat_lt_of_between h x (List.mem_of_getElem? hx)
  rw [hp] at hx
  exact ⟨(ancestor_of_getElem? p.length leaf (Nat.succ_pos _) hlt heven hx).2, hbound⟩

theorem encloses_of_le (h : between leaf root = .ok p) {i j : Nat} {x y position : Word}
    (hij : i ≤ j) (hx : p.nodes[i]? = some x) (hy : p.nodes[j]? = some y)
    (hencloses : Node.Encloses x position) : Node.Encloses y position := by
  obtain ⟨hx, hlt⟩ := ancestor_of_between h hx
  obtain ⟨hy, hlt'⟩ := ancestor_of_between h hy
  rw [Node.encloses_ancestor_iff hx hlt] at hencloses
  rw [Node.encloses_ancestor_iff hy hlt']
  have hwider := Node.base_mono hij leaf.toNat
  omega

/-- In a tree of any height there is a path from every leaf up to the root, and it is found again
from any path of its length. The nodes on it are those whose bounds enclose the leaf. -/
theorem exists_between_of_levels {levels : Nat} (hpos : 1 ≤ levels) (hle : levels ≤ 63) :
    ∃ root count, Node.root levels = .ok root ∧ Node.count levels = .ok count ∧
      ∀ (leaf : Word) (old : Path), leaf.toNat % 2 = 0 → leaf.toNat ≤ 2 * root.toNat →
        old.length = levels → ∃ p, between leaf root = .ok p ∧ old.retarget leaf = .ok p ∧
          p.nodes.length = levels ∧ p.nodes.head? = some leaf ∧ p.nodes.getLast? = some root ∧
          (∀ (l : Nat) (x : Word), p.nodes[l]? = some x → Node.level x = l) ∧
          ∀ x : Word, x.toNat < count → ∃ low high, Node.lowerBound x = .ok low ∧
            Node.upperBound x = .ok high ∧ (x ∈ p.nodes ↔ low ≤ leaf ∧ leaf ≤ high) := by
  have hsize : 2 ^ levels = 2 * 2 ^ (levels - 1) := by
    conv_lhs => rw [← Nat.sub_add_cancel hpos, Nat.pow_succ, Nat.mul_comm]
  have hpow : 2 ^ (levels - 1) ≤ 2 ^ 62 := Nat.pow_le_pow_right (by decide) (by omega)
  have hone := Nat.two_pow_pos (levels - 1)
  have hroot : (UInt64.ofNat (2 ^ (levels - 1) - 1)).toNat = 2 ^ (levels - 1) - 1 := by
    rw [UInt64.toNat_ofNat', Nat.mod_eq_of_lt (by omega)]
  refine ⟨UInt64.ofNat (2 ^ (levels - 1) - 1), 2 ^ levels - 1,
    by rw [Node.root, if_pos (by omega)], by rw [Node.count, if_pos (by omega)], ?_⟩
  intro leaf old heven hleaf hold
  rw [hroot] at hleaf
  have hlt : leaf.toNat < 2 ^ levels := by omega
  have hsame : (ofLeaf levels leaf).root = UInt64.ofNat (2 ^ (levels - 1) - 1) := by
    rw [← UInt64.toNat_inj, hroot]
    exact toNat_root levels leaf hpos (by omega) heven hlt
  refine ⟨ofLeaf levels leaf, between_eq levels leaf hpos (by omega) heven hlt _ hroot,
    retarget_eq levels leaf hpos (by omega) heven hlt old hold, length_ofLeaf levels leaf hpos, rfl, ?_,
    fun l x hx => ?_, fun x hx => ?_⟩
  · rw [getLast?_nodes, hsame]
  · obtain ⟨hl, hx⟩ := ancestor_of_getElem? levels leaf hpos (by omega) heven hx
    exact Node.level_eq l leaf.toNat x (by omega) hx
  · have hx63 : x.toNat < 2 ^ 63 := by omega
    obtain ⟨l, y, hxy⟩ := Node.exists_level x.toNat
    rw [← Node.ancestor_block] at hxy
    obtain ⟨low, hlow, -⟩ := Node.lowerBound_eq l _ x hxy hx63
    obtain ⟨high, hhigh, -⟩ := Node.upperBound_eq l _ x hxy hx63
    refine ⟨low, high, hlow, hhigh, ?_⟩
    rw [mem_nodes_ofLeaf levels leaf hpos (by omega) x heven]
    constructor
    · rintro ⟨k, -, hk⟩
      obtain ⟨low', high', hlow', hhigh', hbounds⟩ := Node.encloses_of_ancestor hk hx63 rfl heven
      rw [hlow, Except.ok.injEq] at hlow'
      rw [hhigh, Except.ok.injEq] at hhigh'
      exact hlow' ▸ hhigh' ▸ hbounds
    · rintro ⟨hlq, hqh⟩
      exact Node.eq_ancestor_of_mem_bounds levels x low high leaf hx (by omega) hlow hhigh hlq hqh

/-- The last leaf of the highest tree is found again from a row of nodes that is no path. The node
next to it is its parent. -/
theorem exists_between_sixty_three : ∃ root count p, Node.root 63 = .ok root ∧
    Node.count 63 = .ok count ∧ between 0x7FFFFFFFFFFFFFFE root = .ok p ∧
    (⟨0, List.replicate 62 0⟩ : Path).retarget 0x7FFFFFFFFFFFFFFE = .ok p ∧ p.nodes.length = 63 ∧
    p.nodes.head? = some 0x7FFFFFFFFFFFFFFE ∧ p.nodes.getLast? = some root ∧
    (∀ (l : Nat) (x : Word), p.nodes[l]? = some x → Node.level x = l) ∧
    ∃ low high, Node.lowerBound 0x7FFFFFFFFFFFFFFD = .ok low ∧
      Node.upperBound 0x7FFFFFFFFFFFFFFD = .ok high ∧ low ≤ 0x7FFFFFFFFFFFFFFE ∧
      0x7FFFFFFFFFFFFFFE ≤ high ∧ 0x7FFFFFFFFFFFFFFD ∈ p.nodes := by
  obtain ⟨root, count, hroot, hcount, hpaths⟩ :=
    @exists_between_of_levels 63 (by decide) (by decide)
  have hroot' : Node.root 63 = .ok 0x3FFFFFFFFFFFFFFF := by decide +kernel
  have hcount' : Node.count 63 = .ok 0x7FFFFFFFFFFFFFFF := by decide +kernel
  obtain rfl := Except.ok.inj (hroot.symm.trans hroot')
  obtain rfl := Except.ok.inj (hcount.symm.trans hcount')
  obtain ⟨p, hbetween, hretarget, hlength, hhead, hlast, hlevel, hmem⟩ :=
    hpaths 0x7FFFFFFFFFFFFFFE ⟨0, List.replicate 62 0⟩ (by decide) (by decide) rfl
  obtain ⟨low, high, hlow, hhigh, hiff⟩ := hmem 0x7FFFFFFFFFFFFFFD (by decide)
  have hlow' : Node.lowerBound 0x7FFFFFFFFFFFFFFD = .ok 0x7FFFFFFFFFFFFFFC := by decide +kernel
  have hhigh' : Node.upperBound 0x7FFFFFFFFFFFFFFD = .ok 0x7FFFFFFFFFFFFFFE := by decide +kernel
  obtain rfl := Except.ok.inj (hlow.symm.trans hlow')
  obtain rfl := Except.ok.inj (hhigh.symm.trans hhigh')
  exact ⟨_, _, p, hroot, hcount, hbetween, hretarget, hlength, hhead, hlast, hlevel, _, _, hlow, hhigh,
    by decide, by decide, hiff.2 ⟨by decide, by decide⟩⟩

end Path

end ObliviousRam
