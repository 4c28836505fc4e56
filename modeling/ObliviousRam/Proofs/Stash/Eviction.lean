import ObliviousRam.Proofs.Stash.Regrouping
import ObliviousRam.Proofs.Stash.Slots
import ObliviousRam.Proofs.Tree.Geometry

namespace ObliviousRam.Stash

open Slots

variable {w : Nat}

/-- The level of a node before any block is sent there. -/
def Tier.span (node : Word) : Tier := ⟨node &&& (node + 1), 2 * node - (node &&& (node + 1)), 0⟩

theorem Tier.bounds_eq (node : Word) (h : node.toNat < 2 ^ 63) :
    Node.lowerBound node = .ok (span node).low ∧ Node.upperBound node = .ok (span node).high := by
  have hne : node ≠ Word.allOnes := by
    rintro rfl
    simp at h
  have hlow : Node.lowerBound node = .ok (span node).low := by
    rw [Node.lowerBound, if_neg hne]
    rfl
  refine ⟨hlow, ?_⟩
  rw [Node.upperBound, Word.double, if_pos h, hlow]
  rfl

theorem Tier.ofNode_eq (node : Word) (h : node.toNat < 2 ^ 63) : ofNode node = .ok (span node) := by
  obtain ⟨hlow, hhigh⟩ := bounds_eq node h
  rw [ofNode, hlow, hhigh]
  rfl

theorem encloses_iff (node position : Word) (h : node.toNat < 2 ^ 63) :
    Node.Encloses node position ↔ (Tier.span node).covers position = true := by
  obtain ⟨hlow, hhigh⟩ := Tier.bounds_eq node h
  simp [Node.Encloses, Tier.covers, hlow, hhigh]

theorem mapM_ofNode (nodes : List Word) (h : ∀ x ∈ nodes, x.toNat < 2 ^ 63) :
    nodes.mapM Tier.ofNode = .ok (nodes.map Tier.span) := by
  induction nodes with
  | nil => rfl
  | cons x nodes ih =>
    rw [List.mapM_cons, Tier.ofNode_eq x (h x (by simp)), ih fun y hy => h y (by simp [hy])]
    rfl

/-- Whether every block in a row of buckets may be stored there on the way up a path. -/
def RoutedOn (buckets : List (Bucket w)) (p : Path) : Prop :=
  ∀ l (hp : l < p.nodes.length) (hs : l < buckets.length), ∀ b ∈ buckets[l].toList,
    b.isEmpty = false → Node.Encloses p.nodes[l] b.position

theorem pad_append (placed rest : List (Block w × Option Nat)) (tiers : List Tier) :
    pad (placed ++ rest) tiers =
      ((pad placed tiers).1 ++ (pad rest (pad placed tiers).2).1,
        (pad rest (pad placed tiers).2).2) := by
  induction placed generalizing tiers with
  | nil => rfl
  | cons e placed ih => rw [List.cons_append, pad_cons, pad_cons, ih]; rfl

theorem share_filter (placed : List (Block w × Option Nat)) (q : Block w × Option Nat → Bool)
    (l : Nat) : share (placed.filter fun e => !q e) l + share (placed.filter q) l = share placed l := by
  induction placed with
  | nil => rfl
  | cons e placed ih =>
    rw [List.filter_cons, List.filter_cons, share_cons]
    cases q e <;> simp only [Bool.not_true, Bool.not_false, ↓reduceIte, Bool.false_eq_true, share_cons] <;>
      omega

theorem share_empty (cs : List (Nat × Block w)) (tiers : List Tier) (l : Nat) :
    share ((assign cs tiers).1.filter fun e => e.1.isEmpty) l = 0 := by
  rw [share, List.countP_eq_zero]
  intro e he hl
  rw [List.mem_filter] at he
  have := (mem_assign cs tiers (cs.map Prod.fst).sum
    (fun c hc => List.le_sum_of_mem (List.mem_map_of_mem hc)) e he.1 l (by simpa using hl)).2.1
  simp [this] at he

theorem pad_assign_tiers (cs : List (Nat × Block w)) (tiers : List Tier) :
    (pad (assign cs tiers).1 (assign cs tiers).2).2 =
      raise (share (pad (assign cs tiers).1 (assign cs tiers).2).1) tiers := by
  rw [pad_tiers]
  generalize hP : (pad (assign cs tiers).1 (assign cs tiers).2).1 = P
  have hreal : P.filter (fun e => !e.1.isEmpty) =
      (assign cs tiers).1.filter fun e => !e.1.isEmpty := by rw [← hP, pad_real]
  rw [assign_tiers, raise_raise]
  congr 1
  funext l
  rw [← share_filter P (fun e => e.1.isEmpty) l, hreal,
    ← share_filter (assign cs tiers).1 (fun e => e.1.isEmpty) l, share_empty, Nat.add_zero]

theorem length_flatMap_toList (buckets : List (Bucket w)) :
    (buckets.flatMap Bucket.toList).length = Bucket.capacity * buckets.length := by
  induction buckets with
  | nil => rfl
  | cons b buckets ih =>
    rw [List.flatMap_cons, List.length_append, ih, Bucket.length_toList, List.length_cons,
      Nat.mul_succ, Nat.add_comm]

theorem path_candidates (buckets : List (Bucket w)) (k : Nat) :
    ((buckets.zipIdx k).flatMap fun (bucket, level) => bucket.toList.map (level + 1, ·)).map
      Prod.snd = buckets.flatMap Bucket.toList := by
  induction buckets generalizing k with
  | nil => rfl
  | cons b buckets ih =>
    rw [List.zipIdx_cons, List.flatMap_cons, List.map_append, ih, List.flatMap_cons]
    simp [Function.comp_def]

theorem candidates_blocks (s : Stash w) :
    s.candidates.map Prod.snd =
      s.path.flatMap Bucket.toList ++ s.overflow.take s.overflowBound := by
  rw [candidates, List.map_append, path_candidates]
  simp [Function.comp_def]

theorem length_candidates (s : Stash w) :
    s.candidates.length = Bucket.capacity * s.levels + s.overflowBound := by
  rw [← List.length_map Prod.snd, candidates_blocks, List.length_append, length_flatMap_toList,
    List.length_take, Nat.min_eq_left s.overflowBound_le, levels]

/-- The slots of an eviction with their levels, before they are sorted. -/
def filling (s : Stash w) (tiers : List Tier) : List (Block w × Option Nat) :=
  (pad (assign s.candidates tiers).1 (assign s.candidates tiers).2).1

theorem filling_blocks (s : Stash w) (tiers : List Tier) :
    (s.filling tiers).map Prod.fst =
      s.path.flatMap Bucket.toList ++ s.overflow.take s.overflowBound := by
  rw [filling, pad_blocks, assign_blocks, candidates_blocks]

theorem mem_filling (s : Stash w) (tiers : List Tier) (e : Block w × Option Nat)
    (he : e ∈ s.filling tiers) (l : Nat) (hl : e.2 = some l) :
    ∃ h : l < tiers.length, e.1.isEmpty = false → tiers[l].covers e.1.position = true := by
  cases hempty : e.1.isEmpty
  · have hmem : e ∈ (s.filling tiers).filter fun e => !e.1.isEmpty := by simp [he, hempty]
    rw [filling, pad_real, List.mem_filter] at hmem
    obtain ⟨-, -, h, hcovers⟩ := mem_assign s.candidates tiers (s.candidates.map Prod.fst).sum
      (fun c hc => List.le_sum_of_mem (List.mem_map_of_mem hc)) e hmem.1 l hl
    exact ⟨h, fun _ => hcovers⟩
  · have h := pad_level_lt _ _ e he hempty l hl
    rw [assign_tiers, length_raise] at h
    exact ⟨h, fun hreal => by simp at hreal⟩

section Path

variable (s : Stash w) (tiers : List Tier) (hlen : tiers.length = s.levels)
  (hzero : ∀ t ∈ tiers, t.filled = 0)
  (hcovers : ∀ l (ht : l < tiers.length) (hs : l < s.path.length), ∀ b ∈ s.path[l].toList,
    b.isEmpty = false → tiers[l].covers b.position = true)
include hlen hzero hcovers

theorem ne_none_of_path : ∀ e ∈ (assign (s.path.zipIdx.flatMap fun (bucket, level) =>
    bucket.toList.map (level + 1, ·)) tiers).1, e.1.isEmpty = false → e.2 ≠ none :=
  assign_path s.path 0 tiers (by rw [hlen, Nat.zero_add]; rfl)
    (fun l hl _ => hzero _ (List.getElem_mem hl))
    (fun i hi _ b hb hb' => by simpa using hcovers i (by rw [hlen]; exact hi) hi b hb hb')

theorem filling_split :
    ∃ front back, s.filling tiers = front ++ back ∧ front.length = Bucket.capacity * s.levels ∧
      ∀ e ∈ front, e.1.isEmpty = false → e.2 ≠ none := by
  have hsplit := assign_append (s.path.zipIdx.flatMap fun (bucket, level) =>
    bucket.toList.map (level + 1, ·)) ((s.overflow.take s.overflowBound).map (s.levels, ·)) tiers
  refine ⟨_, _, by rw [filling, candidates, hsplit, pad_append], ?_, fun e he hreal => ?_⟩
  · have hlength := congrArg List.length (path_candidates s.path 0)
    rw [length_flatMap_toList, List.length_map] at hlength
    rw [← List.length_map Prod.fst, pad_blocks, assign_blocks, List.length_map, hlength, levels]
  · have hmem : e ∈ List.filter (fun e => !e.1.isEmpty) _ :=
      List.mem_filter.2 ⟨he, by simp [hreal]⟩
    rw [pad_real, List.mem_filter] at hmem
    exact ne_none_of_path s tiers hlen hzero hcovers e hmem.1 hreal

theorem share_filling (l : Nat) (hl : l < s.levels) :
    share (s.filling tiers) l = Bucket.capacity := by
  have hbound : Bounded (raise (share (s.filling tiers)) tiers) := by
    rw [filling, ← pad_assign_tiers]
    exact bounded_pad _ _ (bounded_assign _ _ fun t ht => by simp [hzero t ht])
  have hle : ∀ k ∈ Finset.range s.levels, share (s.filling tiers) k ≤ Bucket.capacity := by
    intro k hk
    rw [Finset.mem_range] at hk
    have := hbound _ (add_mem_raise _ tiers k (by omega))
    rwa [Tier.add, hzero _ (List.getElem_mem _), Nat.zero_add] at this
  obtain hall | hfull := pad_full (assign s.candidates tiers).1 (assign s.candidates tiers).2
  · -- If all empty slots found a level, then so did all slots of the path.
    obtain ⟨front, back, hsplit, hlength, hreal⟩ := filling_split s tiers hlen hzero hcovers
    have hfront : front.countP (fun e => e.2.isSome) = front.length := by
      rw [List.countP_eq_length]
      intro e he
      rw [Option.isSome_iff_ne_none]
      cases hempty : e.1.isEmpty
      · exact hreal e he hempty
      · exact hall e (by rw [← filling, hsplit]; simp [he]) hempty
    have hcount : Bucket.capacity * s.levels ≤
        (s.filling tiers).countP fun e => e.2.isSome := by
      rw [hsplit, List.countP_append, hfront, hlength]
      exact Nat.le_add_right _ _
    rw [← sum_share _ s.levels fun e he k hk => by
      obtain ⟨h, -⟩ := mem_filling s tiers e he k hk
      omega] at hcount
    by_contra hne
    have hlt := Finset.sum_lt_sum hle ⟨l, Finset.mem_range.2 hl,
      Nat.lt_of_le_of_ne (hle l (Finset.mem_range.2 hl)) hne⟩
    simp only [Finset.sum_const, Finset.card_range, nsmul_eq_mul, Nat.cast_id,
      Nat.mul_comm s.levels] at hlt
    omega
  · rw [pad_assign_tiers, ← filling] at hfull
    have := hfull _ (add_mem_raise _ tiers l (by omega))
    rw [Tier.add, hzero _ (List.getElem_mem _), Nat.zero_add] at this
    exact Nat.le_antisymm (hle l (Finset.mem_range.2 hl)) this

end Path

theorem filled_span (nodes : List Word) : ∀ t ∈ nodes.map Tier.span, t.filled = 0 := by
  intro t ht
  obtain ⟨x, -, rfl⟩ := List.mem_map.1 ht
  rfl

theorem covers_span {buckets : List (Bucket w)} {p : Path} (hnodes : ∀ x ∈ p.nodes, x.toNat < 2 ^ 63)
    (hrouted : RoutedOn buckets p) : ∀ l (ht : l < (p.nodes.map Tier.span).length)
      (hs : l < buckets.length), ∀ b ∈ buckets[l].toList, b.isEmpty = false →
        (p.nodes.map Tier.span)[l].covers b.position = true := by
  intro l ht hs b hb hreal
  rw [List.length_map] at ht
  rw [List.getElem_map, ← encloses_iff _ _ (hnodes _ (List.getElem_mem ht))]
  exact hrouted l ht hs b hb hreal

section Arrange

variable {s : Stash w} {p : Path} (hlen : p.length = s.levels)
  (hnodes : ∀ x ∈ p.nodes, x.toNat < 2 ^ 63) (hrouted : RoutedOn s.path p)
include hlen hnodes hrouted

theorem share_path (l : Nat) (hl : l < s.levels) :
    share (s.filling (p.nodes.map Tier.span)) l = Bucket.capacity :=
  share_filling s _ (by rw [List.length_map, Path.length_nodes, hlen]) (filled_span p.nodes)
    (covers_span hnodes hrouted) l hl

/-- No level of the path is left with room. -/
theorem filled_eq : ∀ t ∈ (pad (assign s.candidates (p.nodes.map Tier.span)).1
    (assign s.candidates (p.nodes.map Tier.span)).2).2, t.filled = Bucket.capacity := by
  rw [pad_assign_tiers]
  intro t ht
  obtain ⟨i, hi, rfl⟩ := List.getElem_of_mem ht
  have hi' : i < p.nodes.length := by simpa using hi
  have hshare := share_path hlen hnodes hrouted i (by rwa [← hlen, ← Path.length_nodes])
  rw [getElem_raise _ _ _ _ (by rwa [List.length_map]), List.getElem_map, Tier.add, ← filling, hshare]
  rfl

theorem arrange_eq : s.arrange p = .ok (s.network.sort evictedAfter
    (s.filling (p.nodes.map Tier.span)).toArray.toVector).toList := by
  have hall : (pad (assign s.candidates (p.nodes.map Tier.span)).1
      (assign s.candidates (p.nodes.map Tier.span)).2).2.all
        (fun t => t.filled == Bucket.capacity) = true := by
    rw [List.all_eq_true]
    exact fun t ht => beq_iff_eq.2 (filled_eq hlen hnodes hrouted t ht)
  rw [arrange, if_pos hlen, mapM_ofNode _ hnodes]
  simp only [bind, Except.bind, pure, Except.pure]
  rw [if_pos hall]
  rfl

theorem exists_arrange :
    ∃ placed, s.arrange p = .ok placed ∧
      (placed.map Prod.fst).Perm (s.path.flatMap Bucket.toList ++ s.overflow.take s.overflowBound) ∧
      placed.Pairwise (fun a b => evictedAfter a b = false) ∧
      (∃ rest, placed.map Prod.snd = rows s.levels ++ List.replicate rest none) ∧
      ∀ e ∈ placed, ∀ l, e.2 = some l → ∃ h : l < p.nodes.length,
        e.1.isEmpty = false → Node.Encloses p.nodes[l] e.1.position := by
  have hperm := SortNetwork.sort_perm evictedAfter s.network
    (s.filling (p.nodes.map Tier.span)).toArray.toVector
  have hsorted := SortNetwork.pairwise_sort s.network evictedAfter_order
    (s.filling (p.nodes.map Tier.span)).toArray.toVector
  have hmem := fun e he => mem_filling s (p.nodes.map Tier.span) e (hperm.mem_iff.1 he)
  refine ⟨_, arrange_eq hlen hnodes hrouted, ?_, hsorted, ?_, ?_⟩
  · rw [← filling_blocks s (p.nodes.map Tier.span)]
    exact hperm.map Prod.fst
  · apply levels_eq_rows _ _ hsorted
    · intro e he l hl
      obtain ⟨h, -⟩ := hmem e he l hl
      rwa [List.length_map, Path.length_nodes, hlen] at h
    · intro l hl
      rw [← share_path hlen hnodes hrouted l hl]
      exact hperm.countP_eq _
  · intro e he l hl
    obtain ⟨h, hcovers⟩ := hmem e he l hl
    have h' : l < p.nodes.length := by rwa [List.length_map] at h
    refine ⟨h', fun hreal => ?_⟩
    rw [encloses_iff _ _ (hnodes _ (List.getElem_mem h')), ← List.getElem_map Tier.span]
    exact hcovers hreal

end Arrange

theorem compact_of_pairwise (bs : List (Block w))
    (hsorted : bs.Pairwise fun a b => ¬b.position < a.position)
    (hempty : ∀ b ∈ bs, b.isEmpty = true → b.position = Word.allOnes)
    (hreal : ∀ b ∈ bs, b.isEmpty = false → b.position ≠ Word.allOnes) : Compact bs := by
  apply hsorted.imp_of_mem
  intro a b ha hb hle hea
  by_contra hbr
  have hpa := hempty a ha hea
  have hpb := hreal b hb (by simpa using hbr)
  rw [hpa, UInt64.lt_iff_toNat_lt, Word.toNat_allOnes] at hle
  rw [ne_eq, ← UInt64.toNat_inj, Word.toNat_allOnes] at hpb
  have := b.position.toNat_lt
  omega

theorem ne_allOnes_of_encloses {node position : Word} (h : Node.Encloses node position) :
    position ≠ Word.allOnes := by
  obtain ⟨low, high, hlow, hhigh, -, hle⟩ := h
  have hnode : node.toNat < 2 ^ 63 := by
    by_contra hbig
    rw [Node.upperBound, Word.double, if_neg hbig] at hhigh
    cases hhigh
  have hhalf : (node &&& (node + 1)).toNat ≤ node.toNat := by
    rw [UInt64.toNat_and]
    exact Nat.and_le_left
  have htwice : (2 * node : Word).toNat = 2 * node.toNat :=
    Word.toNat_double (by rw [Word.double, if_pos hnode])
  have hhigh' := (Tier.bounds_eq node hnode).2
  rw [hhigh, Except.ok.injEq] at hhigh'
  rintro rfl
  rw [hhigh', UInt64.le_iff_toNat_le, Tier.span, UInt64.toNat_sub_of_le, htwice,
    Word.toNat_allOnes] at hle
  · omega
  · rw [UInt64.le_iff_toNat_le, htwice]
    omega

theorem routedOn_regroup (p : Path) (placed : List (Block w × Option Nat)) (count rest : Nat)
    (hlevels : placed.map Prod.snd = rows count ++ List.replicate rest none)
    (hover : ∀ e ∈ placed, ∀ l, e.2 = some l → ∃ h : l < p.nodes.length,
      e.1.isEmpty = false → Node.Encloses p.nodes[l] e.1.position) :
    RoutedOn (regroup count (placed.map Prod.fst)) p := by
  intro l hp hs b hb hreal
  obtain ⟨bucket, hbucket, htoList⟩ := toList_regroup hlevels (l := l) (by rwa [length_regroup] at hs)
  obtain ⟨_, rfl⟩ := List.getElem?_eq_some_iff.1 hbucket
  rw [htoList] at hb
  obtain ⟨e, he, rfl⟩ := List.mem_map.1 hb
  obtain ⟨hmem, hlevel⟩ := mem_sentTo.1 he
  obtain ⟨_, hencloses⟩ := hover e hmem l hlevel
  exact hencloses hreal

theorem exists_evict (s : Stash w) (p : Path) (hlen : p.length = s.levels)
    (hnodes : ∀ x ∈ p.nodes, x.toNat < 2 ^ 63) (hrouted : RoutedOn s.path p) (hclean : Clean s.slots)
    (hreal : ∀ b ∈ stored s.slots, b.position ≠ Word.allOnes) :
    ∃ path overflow, s.evict p = .ok { s with path, overflow } ∧ path.length = s.levels ∧
      RoutedOn path p ∧ (path.flatMap Bucket.toList ++ overflow).Perm s.slots ∧
      Compact overflow := by
  obtain ⟨placed, harrange, hperm, hsorted, ⟨rest, hlevels⟩, hover⟩ :=
    exists_arrange hlen hnodes hrouted
  have hslots : s.slots = (s.path.flatMap Bucket.toList ++ s.overflow.take s.overflowBound) ++
      s.overflow.drop s.overflowBound := by
    rw [List.append_assoc, List.take_append_drop, slots]
  have hback : ∀ e ∈ placed.drop (Bucket.capacity * s.levels), e.2 = none := by
    intro e he
    rw [← sentTo_none_of_rows hlevels] at he
    exact (mem_sentTo.1 he).2
  have hlength : Bucket.capacity * s.levels ≤ (placed.map Prod.fst).length := by
    rw [List.length_map, ← List.length_map Prod.snd, hlevels, List.length_append, length_rows]
    exact Nat.le_add_right _ _
  have hmem : ∀ b ∈ (placed.drop (Bucket.capacity * s.levels)).map Prod.fst, b ∈ s.slots := by
    intro b hb
    rw [List.map_drop] at hb
    rw [hslots]
    exact List.mem_append_left _ (hperm.mem_iff.1 (List.mem_of_mem_drop hb))
  refine ⟨regroup s.levels (placed.map Prod.fst),
    (placed.map Prod.fst).drop (Bucket.capacity * s.levels) ++ s.overflow.drop s.overflowBound,
    by rw [evict, harrange]; rfl, length_regroup _ _,
    routedOn_regroup p placed s.levels rest hlevels hover, ?_, ?_⟩
  · rw [flatMap_regroup _ _ hlength, ← List.append_assoc, List.take_append_drop, hslots]
    exact hperm.append_right _
  · refine List.pairwise_append.2 ⟨?_, ?_, fun a _ b hb _ => isEmpty_of_mem_drop s hb⟩
    · rw [← List.map_drop]
      apply compact_of_pairwise
      · rw [List.pairwise_map]
        apply hsorted.drop.imp_of_mem
        intro a b ha hb hle
        simpa [evictedAfter, hback a ha, hback b hb, levelAfter] using hle
      · intro b hb hempty
        rw [hclean b (hmem b hb) hempty]
        rfl
      · exact fun b hb hempty => hreal b (mem_stored.2 ⟨hmem b hb, hempty⟩)
    · apply List.pairwise_of_forall_mem_list
      exact fun a _ b hb _ => isEmpty_of_mem_drop s hb

end ObliviousRam.Stash
