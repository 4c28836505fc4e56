import Mathlib.Data.Nat.Find
import Mathlib.Order.Bounds.Basic
import ObliviousRam.Proofs.Tree.Bounds

namespace ObliviousRam

namespace Node

structure Spans (x low high : Word) : Prop where
  lower : lowerBound x = .ok low
  upper : upperBound x = .ok high

/-- The leaf is in the subtree of node `x`: its way up to the root leads through the node. -/
def StandsOver (root x leaf : Word) : Prop := ∃ p, Path.between leaf root = .ok p ∧ x ∈ p.nodes

theorem mem_block_iff (l p q : Nat) (heven : p % 2 = 0) :
    base l q ≤ p ∧ p ≤ base l q + 2 * (2 ^ l - 1) ↔ p >>> (l + 1) = q >>> (l + 1) := by
  have hpos := Nat.two_pow_pos l
  rw [Nat.shiftRight_eq_div_pow, Nat.shiftRight_eq_div_pow, Nat.div_eq_iff (Nat.two_pow_pos _), base,
    Nat.pow_succ, Nat.mul_comm (2 ^ l), Nat.mul_left_comm]
  omega

section Spans

variable {x y low high low' high' : Word}

theorem Spans.encloses_iff (h : Spans x low high) (position : Word) :
    Encloses x position ↔ low ≤ position ∧ position ≤ high := by
  simp only [Encloses, h.lower, h.upper, Except.ok.injEq, exists_and_left, exists_eq_left']

theorem Spans.toNat_eq (h : Spans x low high) {l leaf : Nat} (hx : x.toNat = ancestor l leaf)
    (hlt : x.toNat < 2 ^ 63) :
    low.toNat = base l leaf ∧ high.toNat = base l leaf + 2 * (2 ^ l - 1) := by
  obtain ⟨low', hlow, hbase⟩ := lowerBound_eq l leaf x hx hlt
  obtain ⟨high', hhigh, htop⟩ := upperBound_eq l leaf x hx hlt
  obtain rfl := Except.ok.inj (h.lower.symm.trans hlow)
  obtain rfl := Except.ok.inj (h.upper.symm.trans hhigh)
  exact ⟨hbase, htop⟩

variable {levels : Nat} (hlevels : levels < 64) (hx : x.toNat < 2 ^ levels - 1)
include hlevels hx

theorem exists_spans : ∃ low high, Spans x low high ∧ low ≤ high ∧ low.toNat % 2 = 0 ∧
    high.toNat % 2 = 0 ∧ high.toNat < 2 ^ levels := by
  have hpow : 2 ^ levels ≤ 2 ^ 63 := Nat.pow_le_pow_right (by decide) (by omega)
  obtain ⟨l, y, hy⟩ := exists_level x.toNat
  have hanc := hy
  rw [← ancestor_block] at hanc
  obtain ⟨low, hlow, hbase⟩ := lowerBound_eq l _ x hanc (by omega)
  obtain ⟨high, hhigh, htop⟩ := upperBound_eq l _ x hanc (by omega)
  rw [base, Nat.mul_div_cancel _ (Nat.two_pow_pos _)] at hbase htop
  have hsucc : y * 2 ^ (l + 1) = 2 * (y * 2 ^ l) := by
    rw [Nat.pow_succ, Nat.mul_comm (2 ^ l), Nat.mul_left_comm]
  -- The block of leaves below the node is one of those that the tree is made up of.
  have hroom : (y + 1) * 2 ^ (l + 1) ≤ 2 ^ levels := by
    have hl : l < levels := by
      by_contra hge
      have := Nat.pow_le_pow_right (show 0 < 2 by decide) (Nat.not_lt.1 hge)
      omega
    have hblocks : 2 ^ levels = 2 ^ (levels - (l + 1)) * 2 ^ (l + 1) := by
      rw [← Nat.pow_add, Nat.sub_add_cancel hl]
    rw [hblocks]
    apply Nat.mul_le_mul_right
    apply Nat.lt_of_mul_lt_mul_right (a := 2 ^ (l + 1))
    omega
  rw [Nat.succ_mul, hsucc, Nat.pow_succ] at hroom
  have hpos := Nat.two_pow_pos l
  refine ⟨low, high, ⟨hlow, hhigh⟩, UInt64.le_iff_toNat_le.2 (by omega), ?_, ?_, ?_⟩ <;> omega

/-- The leaves of the subtree of a node are those between its bounds. -/
theorem Spans.standsOver_iff (h : Spans x low high) (hpos : 0 < levels)
    (hhigh : high.toNat < 2 ^ levels) {root : Word} (hroot : root.toNat = 2 ^ (levels - 1) - 1)
    (leaf : Word) : StandsOver root x leaf ↔ isLeaf leaf = true ∧ low ≤ leaf ∧ leaf ≤ high := by
  have hpow : 2 ^ levels ≤ 2 ^ 63 := Nat.pow_le_pow_right (by decide) (by omega)
  constructor
  · rintro ⟨p, hp, hmem⟩
    obtain ⟨hpath, hlt, heven, -⟩ := Path.of_between hp
    rw [hpath, Path.mem_nodes_ofLeaf p.length leaf (Nat.succ_pos _) hlt x heven] at hmem
    obtain ⟨l, -, hl⟩ := hmem
    exact ⟨isLeaf_iff.2 heven, (h.encloses_iff leaf).1 (encloses_of_ancestor hl (by omega) rfl heven)⟩
  · rintro ⟨hleaf, hlow, hle⟩
    have heven := isLeaf_iff.1 hleaf
    have hlt : leaf.toNat < 2 ^ levels := Nat.lt_of_le_of_lt (UInt64.le_iff_toNat_le.1 hle) hhigh
    refine ⟨_, Path.between_eq levels leaf hpos hlevels heven hlt root hroot, ?_⟩
    rw [Path.mem_nodes_ofLeaf levels leaf hpos hlevels x heven]
    exact eq_ancestor_of_mem_bounds levels x low high leaf hx hlevels h.lower h.upper hlow hle

theorem Spans.nested (h : Spans x low high) (hy : y.toNat < 2 ^ levels - 1)
    (h' : Spans y low' high') {position : Word} (hx₁ : low ≤ position) (hx₂ : position ≤ high)
    (hy₁ : low' ≤ position) (hy₂ : position ≤ high') :
    low ≤ low' ∧ high' ≤ high ∨ low' ≤ low ∧ high ≤ high' := by
  have hpow : 2 ^ levels ≤ 2 ^ 63 := Nat.pow_le_pow_right (by decide) (by omega)
  obtain ⟨l, -, hl⟩ :=
    eq_ancestor_of_mem_bounds levels x low high position hx hlevels h.lower h.upper hx₁ hx₂
  obtain ⟨k, -, hk⟩ :=
    eq_ancestor_of_mem_bounds levels y low' high' position hy hlevels h'.lower h'.upper hy₁ hy₂
  obtain ⟨hlow, hhigh⟩ := h.toNat_eq hl (by omega)
  obtain ⟨hlow', hhigh'⟩ := h'.toNat_eq hk (by omega)
  simp only [UInt64.le_iff_toNat_le, hlow, hhigh, hlow', hhigh']
  obtain hle | hle := Nat.le_total k l
  · exact .inl (base_mono hle _)
  · exact .inr (base_mono hle _)

theorem Spans.disjoint_or_nested (h : Spans x low high) (hy : y.toNat < 2 ^ levels - 1)
    (h' : Spans y low' high') (hle : low ≤ high) (hle' : low' ≤ high') :
    high < low' ∨ high' < low ∨ low ≤ low' ∧ high' ≤ high ∨ low' ≤ low ∧ high ≤ high' := by
  by_cases hright : high < low'
  · exact .inl hright
  by_cases hleft : high' < low
  · exact .inr (.inl hleft)
  rw [UInt64.not_lt] at hright hleft
  refine .inr (.inr ?_)
  obtain hlow | hlow := UInt64.le_total low low'
  · exact h.nested hlevels hx hy h' hlow hright (UInt64.le_refl _) hle'
  · exact h.nested hlevels hx hy h' (UInt64.le_refl _) hle hlow hleft

end Spans

end Node

namespace Path

theorem shiftRight_eq_of_le {p q l k : Nat} (hlk : l ≤ k) (h : p >>> (l + 1) = q >>> (l + 1)) :
    p >>> (k + 1) = q >>> (k + 1) := by
  obtain ⟨rise, rfl⟩ := Nat.exists_eq_add_of_le hlk
  rw [Nat.add_right_comm, Nat.shiftRight_add p, Nat.shiftRight_add q, h]

variable {levels : Nat}

/-- The paths of two leaves meet at the lowest level from which on the leaves have the same bits. -/
theorem exists_meeting (hpos : 0 < levels) {p q : Nat} (hp : p < 2 ^ levels) (hq : q < 2 ^ levels) :
    ∃ c < levels, IsLeast {l | p >>> (l + 1) = q >>> (l + 1)} c := by
  have htop : p >>> (levels - 1 + 1) = q >>> (levels - 1 + 1) := by
    rw [Nat.sub_add_cancel hpos, Nat.shiftRight_eq_div_pow, Nat.shiftRight_eq_div_pow,
      Nat.div_eq_of_lt hp, Nat.div_eq_of_lt hq]
  have hex : ∃ l, p >>> (l + 1) = q >>> (l + 1) := ⟨_, htop⟩
  have hle : Nat.find hex ≤ levels - 1 := Nat.find_min' hex htop
  exact ⟨Nat.find hex, by omega, Nat.find_spec hex, fun l hl => Nat.find_min' hex hl⟩

section Leaves

variable (hpos : 0 < levels) (hlevels : levels < 64) {p q : Word} (hp : p.toNat % 2 = 0)
  (hq : q.toNat % 2 = 0) {l : Nat}
include hpos hlevels hp hq

theorem encloses_getElem?_iff (hlt : q.toNat < 2 ^ levels) {x : Word}
    (hx : (ofLeaf levels q).nodes[l]? = some x) :
    Node.Encloses x p ↔ p.toNat >>> (l + 1) = q.toNat >>> (l + 1) := by
  obtain ⟨hl, hx⟩ := ancestor_of_getElem? levels q hpos hlevels hq hx
  have hnode := Node.ancestor_lt levels l q.toNat hl hlt
  have hpow : 2 ^ levels ≤ 2 ^ 63 := Nat.pow_le_pow_right (by decide) (by omega)
  rw [Node.encloses_ancestor_iff hx (by omega), Node.mem_block_iff _ _ _ hp]

theorem getElem?_nodes_eq (h : p.toNat >>> (l + 1) = q.toNat >>> (l + 1)) :
    (ofLeaf levels p).nodes[l]? = (ofLeaf levels q).nodes[l]? := by
  rw [Nat.shiftRight_eq_div_pow, Nat.shiftRight_eq_div_pow] at h
  apply Option.map_injective fun _ _ => UInt64.toNat_inj.1
  rw [← List.getElem?_map, ← List.getElem?_map, toNat_nodes levels p hpos hlevels hp,
    toNat_nodes levels q hpos hlevels hq, List.getElem?_map, List.getElem?_map]
  by_cases hl : l < levels
  · rw [List.getElem?_range hl, Option.map_some, Option.map_some, Node.ancestor, Node.base, h,
      Node.ancestor, Node.base]
  · rw [List.getElem?_eq_none (by simpa using hl)]
    rfl

end Leaves

/-- In a tree of any height the ranges of two nodes are disjoint or nested, and one contains the other
just if its node is on the way up from each leaf of the other one's subtree. So the nodes of one leaf's
path that stand over another leaf are those from some level on, which is where the two paths meet. -/
theorem laminar_of_levels (hpos : 1 ≤ levels) (hle : levels ≤ 63) :
    ∃ root count, Node.root levels = .ok root ∧ Node.count levels = .ok count ∧
      (∀ x y : Word, x.toNat < count → y.toNat < count → ∃ low high low' high',
        Node.Spans x low high ∧ Node.Spans y low' high' ∧
        (high < low' ∨ high' < low ∨ low ≤ low' ∧ high' ≤ high ∨ low' ≤ low ∧ high ≤ high') ∧
        (∀ leaf, Node.StandsOver root x leaf ↔ Node.isLeaf leaf = true ∧ low ≤ leaf ∧ leaf ≤ high) ∧
        (low' ≤ low ∧ high ≤ high' ↔
          ∀ leaf, Node.StandsOver root x leaf → Node.StandsOver root y leaf)) ∧
      ∀ p q : Word, Node.isLeaf p = true → Node.isLeaf q = true → p.toNat < count →
        q.toNat < count → ∃ way way' c, between p root = .ok way ∧ between q root = .ok way' ∧
          c < levels ∧ IsLeast {l | p.toNat >>> (l + 1) = q.toNat >>> (l + 1)} c ∧
          (∀ l < levels, ∃ x, way'.nodes[l]? = some x ∧ (Node.Encloses x p ↔ c ≤ l)) ∧
          ∀ l, c ≤ l → way.nodes[l]? = way'.nodes[l]? := by
  have hlevels : levels < 64 := by omega
  have hpow : 2 ^ (levels - 1) ≤ 2 ^ 62 := Nat.pow_le_pow_right (by decide) (by omega)
  have hroot : (UInt64.ofNat (2 ^ (levels - 1) - 1)).toNat = 2 ^ (levels - 1) - 1 := by
    rw [UInt64.toNat_ofNat', Nat.mod_eq_of_lt (by omega)]
  refine ⟨UInt64.ofNat (2 ^ (levels - 1) - 1), 2 ^ levels - 1,
    by rw [Node.root, if_pos (by omega)], by rw [Node.count, if_pos hlevels], ?_, ?_⟩
  · intro x y hx hy
    obtain ⟨low, high, h, hle, hlow, hhigh, hlt⟩ := Node.exists_spans hlevels hx
    obtain ⟨low', high', h', hle', -, -, hlt'⟩ := Node.exists_spans hlevels hy
    have hover := h.standsOver_iff hlevels hx hpos hlt hroot
    have hover' := h'.standsOver_iff hlevels hy hpos hlt' hroot
    refine ⟨low, high, low', high', h, h', h.disjoint_or_nested hlevels hx hy h' hle hle', hover,
      fun hin leaf hleaf => ?_, fun hall => ?_⟩
    · obtain ⟨heven, hlow, hhigh⟩ := (hover leaf).1 hleaf
      exact (hover' leaf).2 ⟨heven, UInt64.le_trans hin.1 hlow, UInt64.le_trans hhigh hin.2⟩
    · obtain ⟨-, hfirst, -⟩ := (hover' low).1
        (hall low ((hover low).2 ⟨Node.isLeaf_iff.2 hlow, UInt64.le_refl _, hle⟩))
      obtain ⟨-, -, hlast⟩ := (hover' high).1
        (hall high ((hover high).2 ⟨Node.isLeaf_iff.2 hhigh, hle, UInt64.le_refl _⟩))
      exact ⟨hfirst, hlast⟩
  · intro p q hp hq hplt hqlt
    rw [Node.isLeaf_iff] at hp hq
    obtain ⟨c, hc, hleast⟩ := @exists_meeting levels hpos p.toNat q.toNat (by omega) (by omega)
    refine ⟨_, _, c, between_eq levels p hpos hlevels hp (by omega) _ hroot,
      between_eq levels q hpos hlevels hq (by omega) _ hroot, hc, hleast, fun l hl => ?_,
      fun l hl => getElem?_nodes_eq hpos hlevels hp hq (shiftRight_eq_of_le hl hleast.1)⟩
    have hx : (ofLeaf levels q).nodes[l]? = some _ := List.getElem?_eq_getElem (by
      rwa [length_nodes, length_ofLeaf levels q hpos])
    refine ⟨_, hx, ?_⟩
    rw [encloses_getElem?_iff hpos hlevels hp hq (by omega) hx]
    exact ⟨fun h => hleast.2 h, fun hl => shiftRight_eq_of_le hl hleast.1⟩

/-- The paths of the first and the last leaf of the highest tree meet in the root. The last but one of
all nodes stands over the last two leaves, as the root does. -/
theorem laminar_of_sixty_three : ∃ root count low high low' high', Node.root 63 = .ok root ∧
    Node.count 63 = .ok count ∧ Node.Spans 0x7FFFFFFFFFFFFFFD low high ∧
    Node.Spans root low' high' ∧ low' ≤ low ∧ high ≤ high' ∧
    (∀ leaf, Node.StandsOver root 0x7FFFFFFFFFFFFFFD leaf → Node.StandsOver root root leaf) ∧
    ∃ way way' x, between 0 root = .ok way ∧ between 0x7FFFFFFFFFFFFFFE root = .ok way' ∧
      way'.nodes[61]? = some x ∧ ¬Node.Encloses x 0 ∧ way.nodes[62]? = way'.nodes[62]? := by
  obtain ⟨root, count, hroot, hcount, hranges, hpaths⟩ :=
    @laminar_of_levels 63 (by decide) (by decide)
  have hroot' : Node.root 63 = .ok 0x3FFFFFFFFFFFFFFF := by decide +kernel
  have hcount' : Node.count 63 = .ok 0x7FFFFFFFFFFFFFFF := by decide +kernel
  obtain rfl := Except.ok.inj (hroot.symm.trans hroot')
  obtain rfl := Except.ok.inj (hcount.symm.trans hcount')
  obtain ⟨low, high, low', high', h, h', -, -, hnested⟩ :=
    hranges 0x7FFFFFFFFFFFFFFD 0x3FFFFFFFFFFFFFFF (by decide) (by decide)
  have hbounds : low' ≤ low ∧ high ≤ high' := by
    have hlow : Node.lowerBound 0x7FFFFFFFFFFFFFFD = .ok 0x7FFFFFFFFFFFFFFC := by decide +kernel
    have hhigh : Node.upperBound 0x7FFFFFFFFFFFFFFD = .ok 0x7FFFFFFFFFFFFFFE := by decide +kernel
    have hlow' : Node.lowerBound 0x3FFFFFFFFFFFFFFF = .ok 0 := by decide +kernel
    have hhigh' : Node.upperBound 0x3FFFFFFFFFFFFFFF = .ok 0x7FFFFFFFFFFFFFFE := by decide +kernel
    obtain rfl := Except.ok.inj (h.lower.symm.trans hlow)
    obtain rfl := Except.ok.inj (h.upper.symm.trans hhigh)
    obtain rfl := Except.ok.inj (h'.lower.symm.trans hlow')
    obtain rfl := Except.ok.inj (h'.upper.symm.trans hhigh')
    exact ⟨by decide, by decide⟩
  obtain ⟨way, way', c, hway, hway', hc, hleast, hcovers, hsame⟩ :=
    hpaths 0 0x7FFFFFFFFFFFFFFE (by decide) (by decide) (by decide) (by decide)
  have hmeet : c = 62 := by
    have hapart : ∀ l < 62, (0 : Word).toNat >>> (l + 1) ≠ (0x7FFFFFFFFFFFFFFE : Word).toNat >>> (l + 1) := by
      decide +kernel
    by_contra hne
    exact hapart c (by omega) hleast.1
  obtain ⟨x, hx, hiff⟩ := hcovers 61 (by decide)
  exact ⟨_, _, low, high, low', high', hroot, hcount, h, h', hbounds.1, hbounds.2, hnested.1 hbounds,
    way, way', x, hway, hway', hx, by rw [hiff, hmeet]; decide, hsame 62 (by omega)⟩

end Path

end ObliviousRam
