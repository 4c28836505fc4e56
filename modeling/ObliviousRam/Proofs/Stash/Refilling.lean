import ObliviousRam.Proofs.Stash.Eviction
import ObliviousRam.Proofs.Tree.Between

namespace ObliviousRam.Stash

open Slots

variable {w : Nat}

/-- Whatever is in the overflow region, the blocks of a path can go back to it. There is a slot for
each place of the path and no level is left with room. Afterwards the slots hold the same blocks as
before. Those in a bucket of the path may be there, and the others come first in the overflow region. -/
theorem exists_evict_of_between {s : Stash w} {leaf root : Word} {p : Path}
    (hpath : Path.between leaf root = .ok p) (hlen : p.length = s.levels)
    (hrouted : RoutedOn s.path p) (hclean : Clean s.slots)
    (hoverflow : ∀ b ∈ stored s.overflow, b.position < Word.allOnes) :
    ∃ tiers s', p.nodes.mapM Tier.ofNode = .ok tiers ∧
      (∀ t ∈ (pad (assign s.candidates tiers).1 (assign s.candidates tiers).2).2,
        t.filled = Bucket.capacity) ∧
      s.evict p = .ok s' ∧ s'.levels = s.levels ∧ s'.slots.Perm s.slots ∧ RoutedOn s'.path p ∧
      (∀ b ∈ stored s.slots,
        (∃ (l : Nat) (bucket : Bucket w), s'.bucketAt l = .ok bucket ∧ b ∈ bucket.toList) ∨
          b ∈ stored s'.overflow) ∧
      Compact s'.overflow ∧ s'.overflowBound = s'.overflowCount := by
  have hnodes := Path.toNat_lt_of_between hpath
  have hreal : ∀ b ∈ stored s.slots, b.position ≠ Word.allOnes := by
    intro b hb
    rw [slots, stored_append, List.mem_append] at hb
    obtain hb | hb := hb
    · obtain ⟨hmem, hempty⟩ := mem_stored.1 hb
      obtain ⟨bucket, hbucket, hslot⟩ := List.mem_flatMap.1 hmem
      obtain ⟨l, hl, rfl⟩ := List.getElem_of_mem hbucket
      have hl' : l < p.nodes.length := by
        rw [Path.length_nodes, hlen]
        exact hl
      exact ne_allOnes_of_encloses (hrouted l hl' hl b hslot hempty)
    · exact UInt64.ne_of_lt (hoverflow b hb)
  obtain ⟨path, overflow, hevict, hlevels, hrouted', hperm, hcompact⟩ :=
    exists_evict s p hlen hnodes hrouted hclean hreal
  refine ⟨p.nodes.map Tier.span, { s with path, overflow }, mapM_ofNode _ hnodes,
    filled_eq hlen hnodes hrouted, hevict, hlevels, hperm, hrouted', fun b hb => ?_, hcompact,
    overflowBound_of_compact hcompact⟩
  obtain ⟨hmem, hempty⟩ := mem_stored.1 hb
  obtain hmem | hmem := List.mem_append.1 (hperm.mem_iff.2 hmem)
  · obtain ⟨bucket, hbucket, hslot⟩ := List.mem_flatMap.1 hmem
    obtain ⟨l, hl⟩ := List.mem_iff_getElem?.1 hbucket
    refine .inl ⟨l, bucket, ?_, hslot⟩
    rw [bucketAt]
    dsimp only
    rw [hl]
  · exact .inr (mem_stored.2 ⟨hmem, hempty⟩)

/-- Two levels with an empty slot in the leaf, and an overflow region with holes. Its last block has a
position that no leaf of the tree has. -/
def holed : Stash 1 where
  network := .oddEvenMerge
  path := [Bucket.ofList [⟨0, 2, #v[0]⟩, Block.empty, ⟨1, 2, #v[1]⟩],
    Bucket.ofList [⟨2, 0, #v[2]⟩, ⟨3, 2, #v[3]⟩, ⟨4, 0, #v[4]⟩]]
  overflow := [Block.empty, ⟨5, 2, #v[5]⟩, Block.empty, ⟨6, 0, #v[6]⟩, ⟨7, 77, #v[7]⟩, Block.empty]

theorem between_holed : Path.between 2 1 = .ok ⟨2, [1]⟩ := by decide +kernel

theorem routedOn_holed : RoutedOn holed.path ⟨2, [1]⟩ := by
  intro l hp hs b hb hreal
  rw [encloses_iff _ _ (Path.toNat_lt_of_between between_holed _ (List.getElem_mem hp))]
  revert l b
  decide +kernel

theorem exists_evict_holed : Path.between 2 1 = .ok ⟨2, [1]⟩ ∧ holed.overflowBound = 5 ∧
    holed.overflowCount = 3 ∧
    ∃ tiers s', (⟨2, [1]⟩ : Path).nodes.mapM Tier.ofNode = .ok tiers ∧
      (∀ t ∈ (pad (assign holed.candidates tiers).1 (assign holed.candidates tiers).2).2,
        t.filled = Bucket.capacity) ∧
      holed.evict ⟨2, [1]⟩ = .ok s' ∧ s'.levels = 2 ∧ s'.slots.Perm holed.slots ∧
      RoutedOn s'.path ⟨2, [1]⟩ ∧ s'.overflowBound = 2 ∧ s'.overflowCount = 2 := by
  have hclean : ∀ b ∈ holed.slots, b.isEmpty = true → b = Block.empty := by decide +kernel
  have hoverflow : ∀ b ∈ stored holed.overflow, b.position < Word.allOnes := by decide +kernel
  obtain ⟨tiers, s', htiers, hfilled, hevict, hlevels, hperm, hrouted, -, -, hbound⟩ :=
    exists_evict_of_between between_holed rfl routedOn_holed hclean hoverflow
  have hcount : s'.overflowCount = 2 := by
    have hresult : (holed.evict ⟨2, [1]⟩).toOption.map overflowCount = some 2 := by decide +kernel
    rw [hevict] at hresult
    exact Option.some.inj hresult
  exact ⟨between_holed, by decide +kernel, by decide +kernel, tiers, s', htiers, hfilled, hevict,
    hlevels, hperm, hrouted, hbound.trans hcount, hcount⟩

end ObliviousRam.Stash
