import ObliviousRam.Proofs.Tree.PathNodes

namespace ObliviousRam.Path

variable {leaf root : Word} {p : Path}

theorem exists_of_bind {α β : Type} {x : Except Fault α} {f : α → Except Fault β} {b : β}
    (h : x >>= f = .ok b) : ∃ a, x = .ok a ∧ f a = .ok b := by
  cases x with
  | error e => cases h
  | ok a => exact ⟨a, rfl, h⟩

theorem toNat_of_heightOf {height : Nat} (h : heightOf root = .ok height) :
    root.toNat + 1 = 2 ^ height := by
  obtain ⟨size, hfits, h⟩ := exists_of_bind h
  rw [Word.fits] at hfits
  split at hfits
  next =>
    cases hfits
    split at h
    next hpow =>
      cases h
      exact hpow.symm
    next => cases h
  next => cases hfits

theorem of_climb {height : Nat} (h : climb height leaf = .ok p) :
    p = ofLeaf (height + 1) leaf ∧ height < 63 ∧ leaf.toNat % 2 = 0 ∧
      leaf.toNat ≤ 2 * p.root.toNat := by
  rw [climb] at h
  split at h
  next hleaf =>
    split at h
    next hheight =>
      obtain ⟨bound, hdouble, h⟩ := exists_of_bind h
      split at h
      next hle =>
        cases h
        rw [UInt64.le_iff_toNat_le, Word.toNat_double hdouble] at hle
        exact ⟨rfl, hheight, Node.isLeaf_iff.1 hleaf, hle⟩
      next => cases h
    next => cases h
  next => cases h

theorem of_between (h : between leaf root = .ok p) :
    p = ofLeaf p.length leaf ∧ p.length < 64 ∧ leaf.toNat % 2 = 0 ∧ leaf.toNat < 2 ^ p.length := by
  obtain ⟨height, hheight, h⟩ := exists_of_bind h
  obtain ⟨q, hclimb, h⟩ := exists_of_bind h
  split at h
  next hroot =>
    cases h
    obtain ⟨hp, hlt, heven, hle⟩ := of_climb hclimb
    have hlength : p.length = height + 1 := by
      rw [hp]
      exact length_ofLeaf _ _ (Nat.succ_pos _)
    have hsize := toNat_of_heightOf hheight
    rw [hroot] at hle
    rw [hlength, Nat.pow_succ]
    exact ⟨hp, by omega, heven, by omega⟩
  next => cases h

theorem toNat_lt_of_between (h : between leaf root = .ok p) : ∀ x ∈ p.nodes, x.toNat < 2 ^ 63 := by
  obtain ⟨hp, hlt, heven, hleaf⟩ := of_between h
  intro x hx
  rw [hp, mem_nodes_ofLeaf p.length leaf (Nat.succ_pos _) hlt x heven] at hx
  obtain ⟨l, hl, hxl⟩ := hx
  have hnode := Node.ancestor_lt p.length l leaf.toNat hl hleaf
  have hpow : 2 ^ p.length ≤ 2 ^ 63 := Nat.pow_le_pow_right (by decide) (by omega)
  omega

end ObliviousRam.Path
