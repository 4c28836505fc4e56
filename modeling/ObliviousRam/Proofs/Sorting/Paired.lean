import ObliviousRam.Proofs.Sorting.Sorted

namespace ObliviousRam.SortNetwork

variable {ι κ : Type} {greater : ι × κ → ι × κ → Bool} {items items' : List ι} {keys keys' : List κ}

/-- The same pairs in another order, in which none is greater than a later one. -/
structure Ordered (greater : ι × κ → ι × κ → Bool) (items : List ι) (keys : List κ)
    (items' : List ι) (keys' : List κ) : Prop where
  items_length : items'.length = items.length
  keys_length : keys'.length = keys.length
  perm : (items'.zip keys').Perm (items.zip keys)
  pairwise : (items'.zip keys').Pairwise fun a b => greater a b = false

theorem run_sortByM (network : SortNetwork) (greater : ι × κ → ι × κ → Bool)
    (h : items.length = keys.length) :
    Id.run (network.sortByM (fun a b => pure (greater a b)) items keys) =
      .ok (network.sort greater (items.zip keys).toArray.toVector).toList.unzip := by
  rw [sortByM, if_pos h]
  rfl

theorem exists_ordered (network : SortNetwork)
    (order : IsStrictWeakOrder (ι × κ) fun a b => greater a b = true)
    (h : items.length = keys.length) : ∃ items' keys',
      Id.run (network.sortByM (fun a b => pure (greater a b)) items keys) = .ok (items', keys') ∧
      Ordered greater items keys items' keys' := by
  obtain ⟨sorted, hsorted⟩ : ∃ sorted,
      (network.sort greater (items.zip keys).toArray.toVector).toList = sorted := ⟨_, rfl⟩
  have hperm : sorted.Perm (items.zip keys) :=
    hsorted ▸ sort_perm greater network (items.zip keys).toArray.toVector
  have hpairwise : sorted.Pairwise fun a b => greater a b = false :=
    hsorted ▸ pairwise_sort network order (items.zip keys).toArray.toVector
  have hlength : sorted.length = items.length := by
    rw [hperm.length_eq, List.length_zip, ← h, Nat.min_self]
  have hzip : sorted.unzip.1.zip sorted.unzip.2 = sorted := List.zip_unzip sorted
  refine ⟨sorted.unzip.1, sorted.unzip.2, ?_, ?_, ?_, hzip.symm ▸ hperm, hzip.symm ▸ hpairwise⟩
  · rw [run_sortByM network greater h, hsorted]
  · rw [List.unzip_fst, List.length_map, hlength]
  · rw [List.unzip_snd, List.length_map, hlength, h]

/-- The bitonic network sorts any number of pairs, not only a power of two of them. -/
theorem bitonic_ordered (order : IsStrictWeakOrder (ι × κ) fun a b => greater a b = true)
    (h : items.length = keys.length) : ∃ items' keys',
      Id.run (bitonic.sortByM (fun a b => pure (greater a b)) items keys) = .ok (items', keys') ∧
      items'.length = items.length ∧ keys'.length = keys.length ∧
      (items'.zip keys').Perm (items.zip keys) ∧
      (items'.zip keys').Pairwise fun a b => greater a b = false := by
  obtain ⟨items', keys', hrun, hordered⟩ := exists_ordered bitonic order h
  exact ⟨items', keys', hrun, hordered.items_length, hordered.keys_length, hordered.perm,
    hordered.pairwise⟩

theorem key_order : IsStrictWeakOrder (ι × Nat) fun a b => decide (b.2 < a.2) = true where
  irrefl a := by simp
  trans a b c := by
    simp only [decide_eq_true_eq]
    omega
  incomp_trans a b c := by
    simp only [decide_eq_true_eq]
    omega

theorem bitonic_ordered_five : ∃ (items' : List Char) (keys' : List Nat),
    Id.run (bitonic.sortByM (fun a b => pure (decide (b.2 < a.2))) ['a', 'b', 'c', 'd', 'e']
      [2, 1, 2, 0, 1]) = .ok (items', keys') ∧
    items'.length = 5 ∧ keys'.length = 5 ∧ keys' = [0, 1, 1, 2, 2] ∧
    (items'.zip keys').Perm [('a', 2), ('b', 1), ('c', 2), ('d', 0), ('e', 1)] ∧
    (items'.zip keys').Pairwise fun a b => decide (b.2 < a.2) = false := by
  have hlength : ['a', 'b', 'c', 'd', 'e'].length = [2, 1, 2, 0, 1].length := rfl
  obtain ⟨items', keys', hrun, hitems, hkeys, hperm, hpairwise⟩ := bitonic_ordered key_order hlength
  have hresult : (Id.run (bitonic.sortByM (fun a b => pure (decide (b.2 < a.2)))
      ['a', 'b', 'c', 'd', 'e'] [2, 1, 2, 0, 1])).toOption.map Prod.snd = some [0, 1, 1, 2, 2] := by
    decide +kernel
  rw [hrun] at hresult
  exact ⟨items', keys', hrun, hitems, hkeys, Option.some.inj hresult, hperm, hpairwise⟩

/-- Batcher's merges leave the pairs in order for any number of them, although the blocks that they
merge are cut short at the end. -/
theorem oddEvenMerge_ordered (order : IsStrictWeakOrder (ι × κ) fun a b => greater a b = true)
    (h : items.length = keys.length) : ∃ items' keys',
      Id.run (oddEvenMerge.sortByM (fun a b => pure (greater a b)) items keys) =
        .ok (items', keys') ∧
      items'.length = items.length ∧ keys'.length = keys.length ∧
      (items'.zip keys').Perm (items.zip keys) ∧
      (items'.zip keys').Pairwise fun a b => greater a b = false := by
  obtain ⟨items', keys', hrun, hordered⟩ := exists_ordered oddEvenMerge order h
  exact ⟨items', keys', hrun, hordered.items_length, hordered.keys_length, hordered.perm,
    hordered.pairwise⟩

theorem oddEvenMerge_ordered_seven : ∃ (items' : List Char) (keys' : List Nat),
    Id.run (oddEvenMerge.sortByM (fun a b => pure (decide (b.2 < a.2)))
      ['a', 'b', 'c', 'd', 'e', 'f', 'g'] [3, 1, 2, 0, 1, 3, 0]) = .ok (items', keys') ∧
    items'.length = 7 ∧ keys'.length = 7 ∧ keys' = [0, 0, 1, 1, 2, 3, 3] ∧
    (items'.zip keys').Perm
      [('a', 3), ('b', 1), ('c', 2), ('d', 0), ('e', 1), ('f', 3), ('g', 0)] ∧
    (items'.zip keys').Pairwise fun a b => decide (b.2 < a.2) = false := by
  have hlength : ['a', 'b', 'c', 'd', 'e', 'f', 'g'].length = [3, 1, 2, 0, 1, 3, 0].length := rfl
  obtain ⟨items', keys', hrun, hitems, hkeys, hperm, hpairwise⟩ :=
    oddEvenMerge_ordered key_order hlength
  have hresult : (Id.run (oddEvenMerge.sortByM (fun a b => pure (decide (b.2 < a.2)))
      ['a', 'b', 'c', 'd', 'e', 'f', 'g'] [3, 1, 2, 0, 1, 3, 0])).toOption.map Prod.snd =
      some [0, 0, 1, 1, 2, 3, 3] := by decide +kernel
  rw [hrun] at hresult
  exact ⟨items', keys', hrun, hitems, hkeys, Option.some.inj hresult, hperm, hpairwise⟩

end ObliviousRam.SortNetwork
