import ObliviousRam.Proofs.Stash.Eviction
import ObliviousRam.Proofs.Tree.Between

namespace ObliviousRam.Stash

variable {w : Nat}

theorem bucketAt_eq_ok_iff (s : Stash w) (l : Nat) (bucket : Bucket w) :
    s.bucketAt l = .ok bucket ↔ s.path[l]? = some bucket := by
  rw [bucketAt]
  cases s.path[l]? <;> simp

theorem toNat_lt_of_ofNode {node : Word} {tier : Tier} (h : Tier.ofNode node = .ok tier) :
    node.toNat < 2 ^ 63 := by
  obtain ⟨low, -, h⟩ := Path.exists_of_bind h
  obtain ⟨high, hhigh, -⟩ := Path.exists_of_bind h
  by_contra hbig
  rw [Node.upperBound, Word.double, if_neg hbig] at hhigh
  cases hhigh

theorem toNat_lt_of_mapM {nodes : List Word} {tiers : List Tier}
    (h : nodes.mapM Tier.ofNode = .ok tiers) : ∀ x ∈ nodes, x.toNat < 2 ^ 63 := by
  induction nodes generalizing tiers with
  | nil => exact fun x hx => absurd hx List.not_mem_nil
  | cons x nodes ih =>
    rw [List.mapM_cons] at h
    obtain ⟨tier, htier, h⟩ := Path.exists_of_bind h
    obtain ⟨rest, hrest, -⟩ := Path.exists_of_bind h
    exact List.forall_mem_cons.2 ⟨toNat_lt_of_ofNode htier, ih hrest⟩

theorem all_filled_iff (s : Stash w) (nodes : List Word) :
    (pad (assign s.candidates (nodes.map Tier.span)).1
      (assign s.candidates (nodes.map Tier.span)).2).2.all (fun t => t.filled == Bucket.capacity) = true ↔
    ∀ l < nodes.length, share (s.filling (nodes.map Tier.span)) l = Bucket.capacity := by
  rw [pad_assign_tiers, ← filling, List.all_eq_true]
  constructor
  · intro h l hl
    have hl' : l < (nodes.map Tier.span).length := by rwa [List.length_map]
    have := h _ (add_mem_raise _ _ l hl')
    rwa [beq_iff_eq, List.getElem_map, Tier.add, Tier.span, Nat.zero_add] at this
  · intro h t ht
    obtain ⟨l, hl, rfl⟩ := List.getElem_of_mem ht
    have hl' : l < (nodes.map Tier.span).length := by rwa [length_raise] at hl
    rw [getElem_raise _ _ _ _ hl', List.getElem_map, Tier.add, h l (by rwa [List.length_map] at hl'),
      beq_iff_eq]
    rfl

/-- Nothing but the order of the slots depends on the network. -/
theorem arrange_eq_ok_iff (s : Stash w) (p : Path) (placed : List (Block w × Option Nat)) :
    s.arrange p = .ok placed ↔ p.length = s.levels ∧ (∀ x ∈ p.nodes, x.toNat < 2 ^ 63) ∧
      (∀ l < s.levels, share (s.filling (p.nodes.map Tier.span)) l = Bucket.capacity) ∧
      placed = (s.network.sort evictedAfter
        (s.filling (p.nodes.map Tier.span)).toArray.toVector).toList := by
  by_cases hlen : p.length = s.levels
  · by_cases hnodes : ∀ x ∈ p.nodes, x.toNat < 2 ^ 63
    · have hall := all_filled_iff s p.nodes
      rw [Path.length_nodes, hlen] at hall
      rw [arrange, if_pos hlen, mapM_ofNode _ hnodes]
      simp only [bind, Except.bind, pure, Except.pure]
      split
      next hfilled =>
        rw [hall] at hfilled
        rw [Except.ok.injEq, eq_comm]
        exact ⟨fun h => ⟨hlen, hnodes, hfilled, h⟩, fun h => h.2.2.2⟩
      next hfilled =>
        rw [hall] at hfilled
        exact ⟨fun h => (by cases h), fun h => absurd h.2.2.1 hfilled⟩
    · refine ⟨fun h => ?_, fun h => absurd h.2.1 hnodes⟩
      rw [arrange, if_pos hlen] at h
      obtain ⟨tiers, htiers, -⟩ := Path.exists_of_bind h
      exact absurd (toNat_lt_of_mapM htiers) hnodes
  · refine ⟨fun h => ?_, fun h => absurd h.1 hlen⟩
    rw [arrange, if_neg hlen] at h
    cases h

section Arranged

variable {s : Stash w} {p : Path} {placed : List (Block w × Option Nat)} (h : s.arrange p = .ok placed)
include h

theorem perm_of_arrange : placed.Perm (s.filling (p.nodes.map Tier.span)) := by
  obtain ⟨-, -, -, rfl⟩ := (arrange_eq_ok_iff s p placed).1 h
  exact SortNetwork.sort_perm evictedAfter s.network _

theorem pairwise_of_arrange : placed.Pairwise fun a b => evictedAfter a b = false := by
  obtain ⟨-, -, -, rfl⟩ := (arrange_eq_ok_iff s p placed).1 h
  exact SortNetwork.pairwise_sort s.network evictedAfter_order _

theorem length_of_arrange : placed.length = s.candidates.length := by
  have hblocks := congrArg List.length (filling_blocks s (p.nodes.map Tier.span))
  rw [← candidates_blocks, List.length_map, List.length_map] at hblocks
  rw [(perm_of_arrange h).length_eq, hblocks]

theorem exists_rows_of_arrange :
    ∃ rest, placed.map Prod.snd = rows s.levels ++ List.replicate rest none := by
  obtain ⟨hlen, -, hshare, -⟩ := (arrange_eq_ok_iff s p placed).1 h
  apply levels_eq_rows _ _ (pairwise_of_arrange h)
  · intro e he l hl
    obtain ⟨hlt, -⟩ := mem_filling s (p.nodes.map Tier.span) e ((perm_of_arrange h).mem_iff.1 he) l hl
    rwa [List.length_map, Path.length_nodes, hlen] at hlt
  · intro l hl
    rw [← hshare l hl]
    exact (perm_of_arrange h).countP_eq _

end Arranged

/-- The stash `s'` holds the slots of `s` in the order and at the levels in which they were sent. Those
that took no part stay where they were. -/
structure Evicted (s s' : Stash w) (placed : List (Block w × Option Nat)) : Prop where
  levels : s'.levels = s.levels
  slots : s'.slots = placed.map Prod.fst ++ s.overflow.drop s.overflowBound
  bucket : ∀ l < s.levels, ∃ bucket, s'.bucketAt l = .ok bucket ∧
    bucket.toList = (sentTo (some l) placed).map Prod.fst
  overflow : s'.overflow = (sentTo none placed).map Prod.fst ++ s.overflow.drop s.overflowBound

theorem exists_evicted {s : Stash w} {p : Path} {placed : List (Block w × Option Nat)}
    (h : s.arrange p = .ok placed) : ∃ s', s.evict p = .ok s' ∧ Evicted s s' placed := by
  obtain ⟨rest, hlevels⟩ := exists_rows_of_arrange h
  have hlength : Bucket.capacity * s.levels ≤ (placed.map Prod.fst).length := by
    rw [List.length_map, ← List.length_map Prod.snd, hlevels, List.length_append, length_rows]
    exact Nat.le_add_right _ _
  refine ⟨{ s with
      path := regroup s.levels (placed.map Prod.fst)
      overflow := (placed.map Prod.fst).drop (Bucket.capacity * s.levels) ++
        s.overflow.drop s.overflowBound }, by rw [evict, h]; rfl, length_regroup _ _, ?_, fun l hl => ?_, ?_⟩
  · rw [slots, flatMap_regroup _ _ hlength, ← List.append_assoc, List.take_append_drop]
  · obtain ⟨bucket, hbucket, htoList⟩ := toList_regroup hlevels hl
    exact ⟨bucket, (bucketAt_eq_ok_iff _ l bucket).2 hbucket, htoList⟩
  · rw [sentTo_none_of_rows hlevels, List.map_drop]

theorem evicted_of_evict {s s' : Stash w} {p : Path} (h : s.evict p = .ok s') :
    ∃ placed, s.arrange p = .ok placed ∧ Evicted s s' placed := by
  obtain ⟨placed, harrange, -⟩ := Path.exists_of_bind h
  obtain ⟨t, ht, hevicted⟩ := exists_evicted harrange
  rw [h, Except.ok.injEq] at ht
  exact ⟨placed, harrange, ht ▸ hevicted⟩

end ObliviousRam.Stash
