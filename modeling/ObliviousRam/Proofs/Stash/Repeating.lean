import ObliviousRam.Proofs.Stash.Leafmost
import ObliviousRam.Proofs.Stash.Resting
import ObliviousRam.Proofs.Tree.Retarget

namespace ObliviousRam.Stash

open Slots

variable {w : Nat}

theorem evict_eq_self {s : Stash w} {p : Path} {tiers : List Tier}
    (h : s.arrange p = .ok (s.filling tiers)) : s.evict p = .ok s := by
  have hpath := regroup_flatMap s.path (s.overflow.take s.overflowBound)
  have hoverflow := drop_flatMap s.path (s.overflow.take s.overflowBound)
  rw [evict, h]
  simp only [bind, Except.bind, pure, Except.pure, filling_blocks, levels, hpath, hoverflow,
    List.take_append_drop]

section Rested

variable {s : Stash w} {p : Path} (hnodes : ∀ x ∈ p.nodes, x.toNat < 2 ^ 63)
  (h : AtRest s (p.nodes.map Tier.span))
include hnodes h

theorem AtRest.routedOn : RoutedOn s.path p := by
  intro l hp hs b hb hreal
  have hslot : b ∈ slotsAt s.path l := by rwa [slotsAt_of_getElem? (List.getElem?_eq_getElem hs)]
  have hcovers := h.path.covers l (by rwa [List.length_map]) b hslot hreal
  rwa [List.getElem_map, ← encloses_iff _ _ (hnodes _ (List.getElem_mem hp))] at hcovers

theorem AtRest.exists_evict (hlen : p.length = s.levels) : ∃ s', s.evict p = .ok s' ∧
    s'.levels = s.levels ∧ s.row.Perm s'.row ∧ (s.network = .oddEvenMerge → s' = s) := by
  have harrange := arrange_eq hlen hnodes (h.routedOn hnodes)
  have houtcome := h.outcome_filling (by rw [List.length_map, Path.length_nodes, hlen])
    (filled_span p.nodes)
  obtain ⟨rest, hrows⟩ := exists_rows_of_arrange harrange
  obtain ⟨s', hevict, hevicted⟩ := exists_evicted harrange
  refine ⟨s', hevict, hevicted.levels, ?_, fun hnetwork => ?_⟩
  · rw [row_evicted hevicted hrows, ← houtcome]
    exact (perm_of_arrange harrange).symm.append_right _
  · -- What takes part is the front of a row that is in order, and so sorting leaves it as it is.
    have hordered := h.ordered
    rw [← houtcome, outcome, List.pairwise_append] at hordered
    rw [hnetwork, SortNetwork.sort_of_pairwise _ (by simpa using hordered.1)] at harrange
    have hself : s.evict p = .ok s := evict_eq_self harrange
    exact Except.ok.inj (hevict.symm.trans hself)

end Rested

theorem pairwise_outcome {s : Stash w} {p : Path} {placed : List (Block w × Option Nat)}
    (hclean : Clean s.slots) (harrange : s.arrange p = .ok placed) :
    (s.outcome placed).Pairwise fun a b => evictedAfter a b = false := by
  have hlast : ∀ a, ∀ e ∈ (s.overflow.drop s.overflowBound).map (·, (none : Option Nat)),
      evictedAfter a e = false := by
    intro a e he
    obtain ⟨b, hb, rfl⟩ := List.mem_map.1 he
    rw [hclean b (List.mem_append_right _ (List.mem_of_mem_drop hb)) (isEmpty_of_mem_drop s hb)]
    exact evictedAfter_empty a
  rw [outcome, List.pairwise_append]
  exact ⟨pairwise_of_arrange harrange, List.pairwise_of_forall_mem_list fun a _ e he => hlast a e he,
    fun a _ e he => hlast a e he⟩

section Evicted

variable {s s' : Stash w} {p : Path} {placed : List (Block w × Option Nat)} (hlen : p.length = s.levels)
  (hnodes : ∀ x ∈ p.nodes, x.toNat < 2 ^ 63) (hrouted : RoutedOn s.path p)
  (hperm : placed.Perm (s.filling (p.nodes.map Tier.span))) (hevicted : Evicted s s' placed)

include hperm in
theorem mem_settled_of_mem_outcome {e : Block w × Option Nat} (he : e ∈ s.outcome placed)
    (hreal : e.1.isEmpty = false) : e ∈ s.settled (p.nodes.map Tier.span) := by
  rw [outcome, List.mem_append] at he
  obtain he | he := he
  · exact List.mem_filter.2 ⟨hperm.mem_iff.1 he, by simp [hreal]⟩
  · obtain ⟨b, hb, rfl⟩ := List.mem_map.1 he
    rw [isEmpty_of_mem_drop s hb] at hreal
    cases hreal

include hlen hnodes hrouted hperm hevicted

theorem full_of_mem_outcome {e : Block w × Option Nat} (he : e ∈ s.outcome placed)
    (hreal : e.1.isEmpty = false) (k : Nat) (hk : k < (p.nodes.map Tier.span).length)
    (hbelow : ∀ l, e.2 = some l → k < l)
    (hcovers : (p.nodes.map Tier.span)[k].covers e.1.position = true) :
    ∀ c ∈ slotsAt s'.path k, c.isEmpty = false := by
  rw [List.length_map] at hk
  rw [List.getElem_map, ← encloses_iff _ _ (hnodes _ (List.getElem_mem hk))] at hcovers
  have hshare := leafmost_settled hlen hnodes hrouted e (mem_settled_of_mem_outcome hperm he hreal) k
    _ hbelow (List.getElem?_eq_getElem hk) hcovers
  rw [Path.length_nodes, hlen] at hk
  obtain ⟨bucket, hbucket, hfull⟩ := fullAt_evicted hperm hevicted hk hshare
  rwa [slotsAt_of_getElem? ((bucketAt_eq_ok_iff s' k bucket).1 hbucket)]

end Evicted

/-- An eviction leaves no block that could go further down, and no two slots out of order. -/
theorem atRest_of_evict {s s' : Stash w} {p : Path} (hlen : p.length = s.levels)
    (hnodes : ∀ x ∈ p.nodes, x.toNat < 2 ^ 63) (hrouted : RoutedOn s.path p) (hclean : Clean s.slots)
    (hreal : ∀ b ∈ stored s.slots, b.position ≠ Word.allOnes) (h : s.evict p = .ok s') :
    AtRest s' (p.nodes.map Tier.span) := by
  obtain ⟨placed, harrange, hevicted⟩ := evicted_of_evict h
  obtain ⟨rest, hrows⟩ := exists_rows_of_arrange harrange
  obtain ⟨path, overflow, hevict, -, -, -, hcompact⟩ :=
    exists_evict s p hlen hnodes hrouted hclean hreal
  obtain rfl := Except.ok.inj (h.symm.trans hevict)
  have hperm := perm_of_arrange harrange
  have hrow := row_evicted hevicted hrows
  refine ⟨⟨fun l hl b hb hb' => ?_, fun l b hb hb' k hk hkl hcovers => ?_⟩, fun b hb k hk hcovers => ?_,
    hcompact, by rw [hrow]; exact pairwise_outcome hclean harrange⟩
  · have he := mem_row_of_mem_slotsAt hb
    rw [hrow] at he
    have hsettled := mem_settled_of_mem_outcome hperm he hb'
    obtain ⟨_, hcovers⟩ := mem_filling s _ _ (List.mem_of_mem_filter hsettled) l rfl
    exact hcovers hb'
  · have he := mem_row_of_mem_slotsAt hb
    rw [hrow] at he
    apply full_of_mem_outcome hlen hnodes hrouted hperm hevicted he hb' k hk _ hcovers
    rintro m hm
    rwa [← Option.some.inj hm]
  · obtain ⟨hmem, hb'⟩ := mem_stored.1 hb
    have he : (b, none) ∈ s.outcome placed := hrow ▸ List.mem_append_right _ (List.mem_map_of_mem hmem)
    apply full_of_mem_outcome hlen hnodes hrouted hperm hevicted he hb' k hk _ hcovers
    rintro m hm
    cases hm

/-- After an eviction another one along the same path moves no block to another level or out of the
overflow region, and none back. The path may have been sent to any other leaves before. With Batcher's
network nothing moves at all. -/
theorem exists_repeated_evict {s : Stash w} {leaf root : Word} {leaves : List Word} {start p : Path}
    (hstart : Path.between leaf root = .ok start) (hp : leaves.foldlM Path.retarget start = .ok p)
    (hlen : p.length = s.levels) (hrouted : RoutedOn s.path p) (hclean : Clean s.slots)
    (hreal : ∀ b ∈ stored s.slots, b.position < Word.allOnes) :
    ∃ s₁ s₂, s.evict p = .ok s₁ ∧ s₁.evict p = .ok s₂ ∧
      (∀ l < s.levels, ∃ bucket₁ bucket₂, s₁.bucketAt l = .ok bucket₁ ∧ s₂.bucketAt l = .ok bucket₂ ∧
        bucket₁.toList.Perm bucket₂.toList) ∧
      s₁.overflow.Perm s₂.overflow ∧ (s.network = .oddEvenMerge → s₂ = s₁) := by
  have hnodes : ∀ x ∈ p.nodes, x.toNat < 2 ^ 63 :=
    Path.toNat_lt_of_foldlM (Path.of_between hstart).2.1 (Path.toNat_lt_of_between hstart) hp
  have hne : ∀ b ∈ stored s.slots, b.position ≠ Word.allOnes := fun b hb => UInt64.ne_of_lt (hreal b hb)
  obtain ⟨path, overflow, hevict₁, hlevels₁, -⟩ := exists_evict s p hlen hnodes hrouted hclean hne
  have hrest := atRest_of_evict hlen hnodes hrouted hclean hne hevict₁
  have hlen₁ : p.length = ({ s with path, overflow } : Stash w).levels := hlen.trans hlevels₁.symm
  obtain ⟨s₂, hevict₂, hlevels₂, hrow, hsame⟩ := hrest.exists_evict hnodes hlen₁
  obtain ⟨hbuckets, hover⟩ := perm_of_row hlevels₂ hrow
  exact ⟨_, s₂, hevict₁, hevict₂, fun l hl => hbuckets l (Nat.lt_of_lt_of_eq hl hlevels₁.symm), hover,
    hsame⟩

theorem exists_repeated_holed : ∃ s₁ s₂, holed.evict ⟨2, [1]⟩ = .ok s₁ ∧ s₁.evict ⟨2, [1]⟩ = .ok s₂ ∧
    (∀ l < 2, ∃ bucket₁ bucket₂, s₁.bucketAt l = .ok bucket₁ ∧ s₂.bucketAt l = .ok bucket₂ ∧
      bucket₁.toList.Perm bucket₂.toList) ∧
    s₁.overflow.Perm s₂.overflow ∧ s₂ = s₁ := by
  have hstart : Path.between 0 1 = .ok ⟨0, [1]⟩ := by decide +kernel
  have hp : [2].foldlM Path.retarget ⟨0, [1]⟩ = .ok ⟨2, [1]⟩ := by decide +kernel
  have hclean : ∀ b ∈ holed.slots, b.isEmpty = true → b = Block.empty := by decide +kernel
  have hreal : ∀ b ∈ stored holed.slots, b.position < Word.allOnes := by decide +kernel
  obtain ⟨s₁, s₂, hevict₁, hevict₂, hbuckets, hover, hsame⟩ :=
    exists_repeated_evict hstart hp rfl routedOn_holed hclean hreal
  exact ⟨s₁, s₂, hevict₁, hevict₂, hbuckets, hover, hsame rfl⟩

end ObliviousRam.Stash
