import ObliviousRam.Proofs.Stash.Arrangement

namespace ObliviousRam.Stash

variable {w : Nat}

/-- Every block in a row of buckets is afterwards at its level of the row or at a lower one. -/
def Sunk (before after : List (Bucket w)) : Prop :=
  ∀ (l : Nat) (bucket : Bucket w), before[l]? = some bucket → ∀ b ∈ bucket.toList,
    b.isEmpty = false → ∃ l' ≤ l, ∃ bucket' : Bucket w, after[l']? = some bucket' ∧
      b ∈ bucket'.toList

theorem exists_mem_assign (cs : List (Nat × Block w)) (tiers : List Tier) {c : Nat × Block w}
    (hc : c ∈ cs) : ∃ level, (c.2, level) ∈ (assign cs tiers).1 ∧ ∀ l, level = some l → l < c.1 := by
  induction cs generalizing tiers with
  | nil => cases hc
  | cons d cs ih =>
    rw [assign_cons]
    obtain rfl | hc := List.mem_cons.1 hc
    · refine ⟨(choose c.1 c.2 tiers).1, List.mem_cons_self, fun l hl => ?_⟩
      exact (choose_eq_some c.1 c.2 tiers l hl).1
    · obtain ⟨level, hmem, hlt⟩ := ih (choose d.1 d.2 tiers).2 hc
      exact ⟨level, List.mem_cons_of_mem _ hmem, hlt⟩

section Path

variable (s : Stash w) (tiers : List Tier) (hlen : tiers.length = s.levels)
  (hzero : ∀ t ∈ tiers, t.filled = 0)
  (hcovers : ∀ l (ht : l < tiers.length) (hs : l < s.path.length), ∀ b ∈ s.path[l].toList,
    b.isEmpty = false → tiers[l].covers b.position = true)
include hlen hzero hcovers

theorem exists_mem_filling {l : Nat} (hl : l < s.path.length) {b : Block w}
    (hb : b ∈ s.path[l].toList) (hreal : b.isEmpty = false) :
    ∃ l' ≤ l, (b, some l') ∈ s.filling tiers := by
  have hslot : (l + 1, b) ∈ s.path.zipIdx.flatMap fun x => x.1.toList.map (x.2 + 1, ·) := by
    apply List.mem_flatMap_of_mem (a := (s.path[l], l))
    · exact List.mk_mem_zipIdx_iff_getElem?.2 (List.getElem?_eq_getElem hl)
    · exact List.mem_map_of_mem hb
  obtain ⟨level, hmem, hlt⟩ := exists_mem_assign _ tiers hslot
  obtain ⟨l', rfl⟩ := Option.ne_none_iff_exists'.1
    (ne_none_of_path s tiers hlen hzero hcovers _ hmem hreal)
  have hfilter : (b, some l') ∈ (s.filling tiers).filter fun e => !e.1.isEmpty := by
    rw [filling, pad_real, candidates, assign_append, List.filter_append]
    exact List.mem_append_left _ (List.mem_filter.2 ⟨hmem, by simp [hreal]⟩)
  exact ⟨l', Nat.le_of_lt_succ (hlt l' rfl), List.mem_of_mem_filter hfilter⟩

end Path

theorem sunk_of_evict {s s' : Stash w} {p : Path} (hlen : p.length = s.levels)
    (hnodes : ∀ x ∈ p.nodes, x.toNat < 2 ^ 63) (hrouted : RoutedOn s.path p)
    (h : s.evict p = .ok s') : Sunk s.path s'.path := by
  obtain ⟨placed, harrange, hevicted⟩ := evicted_of_evict h
  intro l bucket hbucket b hb hreal
  obtain ⟨hl, rfl⟩ := List.getElem?_eq_some_iff.1 hbucket
  obtain ⟨l', hle, hmem⟩ := exists_mem_filling s (p.nodes.map Tier.span)
    (by rw [List.length_map, Path.length_nodes, hlen]) (filled_span p.nodes)
    (covers_span hnodes hrouted) hl hb hreal
  obtain ⟨bucket', hbucket', htoList⟩ := hevicted.bucket l' (Nat.lt_of_le_of_lt hle hl)
  refine ⟨l', hle, bucket', (bucketAt_eq_ok_iff s' l' bucket').1 hbucket', ?_⟩
  rw [htoList]
  exact List.mem_map_of_mem (mem_sentTo.2 ⟨(perm_of_arrange harrange).mem_iff.2 hmem, rfl⟩)

end ObliviousRam.Stash
