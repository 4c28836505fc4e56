import ObliviousRam.Proofs.Tree.Between

namespace ObliviousRam.Path

variable {leaf₀ root leaf : Word} {start p q : Path}

theorem climb_odd (height : Nat) (hodd : leaf.toNat % 2 = 1) :
    climb height leaf = .error (.notALeaf leaf) := by
  have hleaf : ¬Node.isLeaf leaf = true := by
    rw [Node.isLeaf_iff]
    omega
  rw [climb, if_neg hleaf]
  rfl

theorem root_of_between (h : between leaf root = .ok p) : p.root = root := by
  obtain ⟨height, -, h⟩ := exists_of_bind h
  obtain ⟨q, -, h⟩ := exists_of_bind h
  split at h
  next hroot =>
    cases h
    exact hroot
  next => cases h

theorem toNat_root_of_between (h : between leaf root = .ok p) :
    root.toNat = 2 ^ (p.length - 1) - 1 := by
  obtain ⟨hp, hlt, heven, hleaf⟩ := of_between h
  have hroot := toNat_root p.length leaf (Nat.succ_pos _) hlt heven hleaf
  rwa [← hp, root_of_between h] at hroot

theorem retarget_even (hlt : p.length < 64) (heven : leaf.toNat % 2 = 0) : p.retarget leaf =
    if leaf.toNat < 2 ^ 63 then .ok (ofLeaf p.length leaf) else .error .wordOverflow :=
  climb_even p.length leaf (Nat.succ_pos _) hlt heven

theorem length_of_retarget (h : p.retarget leaf = .ok q) : q.length = p.length := by
  obtain ⟨hq, -⟩ := of_climb h
  rw [hq, length_ofLeaf _ _ (Nat.succ_pos _), length]

theorem length_of_foldlM {leaves : List Word} (h : leaves.foldlM retarget start = .ok p) :
    p.length = start.length := by
  induction leaves generalizing start with
  | nil =>
    cases h
    rfl
  | cons leaf leaves ih =>
    obtain ⟨q, hq, h⟩ := exists_of_bind h
    exact (ih h).trans (length_of_retarget hq)

theorem toNat_lt_of_retarget (hlt : p.length < 64) (h : p.retarget leaf = .ok q) :
    ∀ x ∈ q.nodes, x.toNat < 2 ^ 63 := by
  obtain ⟨-, -, heven, -⟩ := of_climb h
  rw [retarget_even hlt heven] at h
  split at h
  next hsmall =>
    cases h
    intro x hx
    rw [mem_nodes_ofLeaf p.length leaf (Nat.succ_pos _) hlt x heven] at hx
    obtain ⟨l, hl, hxl⟩ := hx
    have hnode := Node.ancestor_lt 63 l leaf.toNat (by omega) hsmall
    omega
  next => cases h

theorem toNat_lt_of_foldlM {leaves : List Word} (hlt : start.length < 64)
    (hnodes : ∀ x ∈ start.nodes, x.toNat < 2 ^ 63) (h : leaves.foldlM retarget start = .ok p) :
    ∀ x ∈ p.nodes, x.toNat < 2 ^ 63 := by
  induction leaves generalizing start with
  | nil =>
    cases h
    exact hnodes
  | cons leaf leaves ih =>
    obtain ⟨q, hq, h⟩ := exists_of_bind h
    exact ih (by rwa [length_of_retarget hq]) (toNat_lt_of_retarget hlt hq) h

section Tree

variable {levels : Nat} (hpos : 0 < levels) (hlt : levels < 64) (heven : leaf.toNat % 2 = 0)
  (hroot : root.toNat = 2 ^ (levels - 1) - 1)
include hpos hlt heven hroot

theorem root_ofLeaf_eq_iff : (ofLeaf levels leaf).root = root ↔ leaf.toNat ≤ 2 * root.toNat := by
  constructor
  · rintro rfl
    exact toNat_le_two_mul_root levels leaf hpos hlt heven
  · intro hle
    have hsize : 2 ^ levels = 2 * 2 ^ (levels - 1) := by
      conv_lhs => rw [← Nat.sub_add_cancel hpos, Nat.pow_succ, Nat.mul_comm]
    have hone := Nat.two_pow_pos (levels - 1)
    rw [← UInt64.toNat_inj, hroot]
    exact toNat_root levels leaf hpos hlt heven (by omega)

/-- Only a path that starts from scratch is checked to end in the root that it is meant for. -/
theorem between_even (hsmall : leaf.toNat < 2 ^ 63) : between leaf root =
    if leaf.toNat ≤ 2 * root.toNat then .ok (ofLeaf levels leaf)
    else .error (.leafOutsideTree leaf) := by
  have hclimb := climb_even levels leaf hpos hlt heven
  rw [if_pos hsmall] at hclimb
  have hiff := root_ofLeaf_eq_iff hpos hlt heven hroot
  by_cases hle : leaf.toNat ≤ 2 * root.toNat
  · rw [between, heightOf_eq hlt hroot, if_pos hle]
    simp only [bind, Except.bind, hclimb, hiff.2 hle, ↓reduceIte]
    rfl
  · rw [between, heightOf_eq hlt hroot, if_neg hle]
    simp only [bind, Except.bind, hclimb, mt hiff.1 hle, ↓reduceIte]
    rfl

end Tree

/-- However often a path has been sent to other leaves, it can be sent to any leaf of its tree, and is
then the path from that leaf to the root. What is not a leaf is turned down. A leaf beyond the tree is
not, unless twice the leaf does not fit in a word: it leads up another tree of the same height, while
a new path from that leaf to the root is turned down. -/
theorem retarget_decides {leaves : List Word} (hstart : between leaf₀ root = .ok start)
    (hp : leaves.foldlM retarget start = .ok p) (leaf : Word) :
    (leaf.toNat % 2 = 1 → p.retarget leaf = .error (.notALeaf leaf)) ∧
    (leaf.toNat % 2 = 0 → 2 ^ 63 ≤ leaf.toNat → p.retarget leaf = .error .wordOverflow) ∧
    (leaf.toNat % 2 = 0 → leaf.toNat < 2 ^ 63 → ∃ q, p.retarget leaf = .ok q ∧
      q.length = p.length ∧ (q.root = root ↔ leaf.toNat ≤ 2 * root.toNat) ∧
      between leaf root =
        if leaf.toNat ≤ 2 * root.toNat then .ok q else .error (.leafOutsideTree leaf)) := by
  have hlength := length_of_foldlM hp
  have hpos : 0 < p.length := Nat.succ_pos _
  have hlt : p.length < 64 := hlength ▸ (of_between hstart).2.1
  have hroot : root.toNat = 2 ^ (p.length - 1) - 1 := hlength ▸ toNat_root_of_between hstart
  refine ⟨climb_odd _, fun heven hlarge => ?_, fun heven hsmall => ?_⟩
  · rw [retarget_even hlt heven, if_neg (Nat.not_lt.2 hlarge)]
  · refine ⟨ofLeaf p.length leaf, ?_, length_ofLeaf p.length leaf hpos,
      root_ofLeaf_eq_iff hpos hlt heven hroot, between_even hpos hlt heven hroot hsmall⟩
    rw [retarget_even hlt heven, if_pos hsmall]

theorem retarget_decides_returned : ∃ start p q : Path, between 0 7 = .ok start ∧
    [16, 4].foldlM retarget start = .ok p ∧ p.retarget 14 = .ok q ∧ q.length = p.length ∧
    q.root = 7 ∧ between 14 7 = .ok q := by
  have hstart : between 0 7 = .ok ⟨0, [1, 3, 7]⟩ := by decide +kernel
  have hp : [16, 4].foldlM retarget ⟨0, [1, 3, 7]⟩ = .ok ⟨4, [5, 3, 7]⟩ := by decide +kernel
  obtain ⟨-, -, heven⟩ := retarget_decides hstart hp 14
  obtain ⟨q, hq, hlength, hroot, hbetween⟩ := heven (by decide) (by decide)
  have hle : (14 : Word).toNat ≤ 2 * (7 : Word).toNat := by decide
  rw [if_pos hle] at hbetween
  exact ⟨_, _, q, hstart, hp, hq, hlength, hroot.2 hle, hbetween⟩

/-- The first leaf beyond a tree of four levels is not turned down. Its path ends in node 23, the root
of the tree that comes next. -/
theorem retarget_strays : ¬∀ (leaf₀ root leaf : Word) (start p q : Path) (leaves : List Word),
    between leaf₀ root = .ok start → leaves.foldlM retarget start = .ok p →
    p.retarget leaf = .ok q →
      q.length = p.length ∧ q.root = root ∧ between leaf root = .ok q := by
  intro h
  have hstart : between 0 7 = .ok ⟨0, [1, 3, 7]⟩ := by decide +kernel
  have hstray : (⟨0, [1, 3, 7]⟩ : Path).retarget 16 = .ok ⟨16, [17, 19, 23]⟩ := by decide +kernel
  obtain ⟨-, hroot, -⟩ := h 0 7 16 _ _ _ [] hstart rfl hstray
  exact absurd hroot (by decide)

end ObliviousRam.Path
