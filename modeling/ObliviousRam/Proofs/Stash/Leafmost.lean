import ObliviousRam.Proofs.Stash.Placement
import ObliviousRam.Proofs.Stash.Refilling

namespace ObliviousRam.Stash

open Slots

variable {w : Nat}

/-- A block finds the levels within its reach full that could take it and that it is not sent to,
up to its own. Levels do not lose blocks afterwards. -/
theorem full_of_assign (cs : List (Nat × Block w)) (tiers : List Tier) (e : Block w × Option Nat)
    (he : e ∈ (assign cs tiers).1) (hreal : e.1.isEmpty = false) (k : Nat) (hk : k < tiers.length)
    (hcovers : tiers[k].covers e.1.position = true) (hbelow : ∀ l, e.2 = some l → k < l)
    (hreach : e.2 = none → ∀ c ∈ cs, k < c.1) :
    Bucket.capacity ≤ tiers[k].filled + share (assign cs tiers).1 k := by
  induction cs generalizing tiers with
  | nil => cases he
  | cons c cs ih =>
    rw [assign_cons] at he ⊢
    rw [share_cons]
    dsimp only
    obtain rfl | he := List.mem_cons.1 he
    · have hfull : tiers[k].accepts c.2.position = false := by
        cases hlevel : (choose c.1 c.2 tiers).1 with
        | some l =>
          obtain ⟨-, -, _, -, hfirst⟩ := choose_eq_some c.1 c.2 tiers l hlevel
          exact hfirst k (hbelow l hlevel)
        | none =>
          obtain hempty | hnone := choose_eq_none c.1 c.2 tiers hlevel
          · simp [hempty] at hreal
          · exact hnone k hk (hreach hlevel c (by simp))
      rw [Tier.accepts, hcovers, Bool.true_and, Tier.hasRoom, decide_eq_false_iff_not] at hfull
      omega
    · rw [choose_tiers] at he ⊢
      have hk' : k < (raise (unit (choose c.1 c.2 tiers).1) tiers).length := by rwa [length_raise]
      have h := ih _ he hk' (by rw [getElem_raise _ _ _ _ hk]; exact hcovers)
        fun hnone d hd => hreach hnone d (by simp [hd])
      rw [getElem_raise _ _ _ _ hk, Tier.add] at h
      dsimp only at h
      omega

theorem full_of_assign_append (cs ds : List (Nat × Block w)) (tiers : List Tier)
    (hfirst : ∀ e ∈ (assign cs tiers).1, e.1.isEmpty = false → e.2 ≠ none)
    (hsecond : ∀ d ∈ ds, tiers.length ≤ d.1) (e : Block w × Option Nat)
    (he : e ∈ (assign (cs ++ ds) tiers).1) (hreal : e.1.isEmpty = false) (k : Nat)
    (hk : k < tiers.length) (hcovers : tiers[k].covers e.1.position = true)
    (hbelow : ∀ l, e.2 = some l → k < l) :
    Bucket.capacity ≤ tiers[k].filled + share (assign (cs ++ ds) tiers).1 k := by
  rw [assign_append] at he ⊢
  rw [share, List.countP_append, ← share, ← share]
  obtain he | he := List.mem_append.1 he
  · have h := full_of_assign cs tiers e he hreal k hk hcovers hbelow
      fun hnone => absurd hnone (hfirst e he hreal)
    omega
  · rw [assign_tiers] at he ⊢
    have h := full_of_assign ds (raise (share (assign cs tiers).1) tiers) e he hreal k
      (by rwa [length_raise]) (by rw [getElem_raise _ _ _ _ hk]; exact hcovers) hbelow
      fun _ d hd => Nat.lt_of_lt_of_le hk (hsecond d hd)
    rw [getElem_raise _ _ _ _ hk, Tier.add] at h
    dsimp only at h
    omega

def settled (s : Stash w) (tiers : List Tier) : List (Block w × Option Nat) :=
  (s.filling tiers).filter fun e => !e.1.isEmpty

theorem settled_eq (s : Stash w) (tiers : List Tier) :
    s.settled tiers = (assign s.candidates tiers).1.filter fun e => !e.1.isEmpty := by
  rw [settled, filling, pad_real]

theorem share_settled (s : Stash w) (tiers : List Tier) (l : Nat) :
    share (s.settled tiers) l = share (assign s.candidates tiers).1 l := by
  rw [settled_eq, ← share_filter (assign s.candidates tiers).1 (fun e => e.1.isEmpty) l,
    share_empty, Nat.add_zero]

section Path

variable (s : Stash w) (tiers : List Tier) (hlen : tiers.length = s.levels)
  (hzero : ∀ t ∈ tiers, t.filled = 0)
  (hcovers : ∀ l (ht : l < tiers.length) (hs : l < s.path.length), ∀ b ∈ s.path[l].toList,
    b.isEmpty = false → tiers[l].covers b.position = true)
include hlen hzero hcovers

theorem full_of_settled (e : Block w × Option Nat) (he : e ∈ s.settled tiers) (k : Nat)
    (hk : k < tiers.length) (htakes : tiers[k].covers e.1.position = true)
    (hbelow : ∀ l, e.2 = some l → k < l) : Bucket.capacity ≤ share (s.settled tiers) k := by
  rw [settled_eq, List.mem_filter, Bool.not_eq_true'] at he
  have hoverflow : ∀ d ∈ (s.overflow.take s.overflowBound).map (s.levels, ·), tiers.length ≤ d.1 := by
    intro d hd
    obtain ⟨b, -, rfl⟩ := List.mem_map.1 hd
    exact Nat.le_of_eq hlen
  have h := full_of_assign_append _ _ tiers (ne_none_of_path s tiers hlen hzero hcovers) hoverflow
    e he.1 he.2 k hk htakes hbelow
  rw [hzero _ (List.getElem_mem hk), Nat.zero_add] at h
  rw [share_settled]
  exact h

end Path

theorem stored_map_fst (placed : List (Block w × Option Nat)) :
    (placed.filter fun e => !e.1.isEmpty).map Prod.fst = stored (placed.map Prod.fst) := by
  rw [stored, List.filter_map]
  rfl

theorem stored_rest (s : Stash w) : stored (s.overflow.drop s.overflowBound) = [] := by
  rw [stored, List.filter_eq_nil_iff]
  intro b hb
  simp [isEmpty_of_mem_drop s hb]

theorem stored_slots (s : Stash w) (tiers : List Tier) :
    stored s.slots = (s.settled tiers).map Prod.fst := by
  rw [settled, stored_map_fst, filling_blocks, slots, stored_append, stored_append]
  conv_lhs => rw [← List.take_append_drop s.overflowBound s.overflow, stored_append, stored_rest,
    List.append_nil]

section Routed

variable {s : Stash w} {p : Path} (hlen : p.length = s.levels)
  (hnodes : ∀ x ∈ p.nodes, x.toNat < 2 ^ 63) (hrouted : RoutedOn s.path p)
include hlen hnodes hrouted

theorem placement_settled : Placement p (stored s.slots) (s.settled (p.nodes.map Tier.span)) where
  perm := List.Perm.of_eq (stored_slots s _).symm
  room l := by
    have hsplit := share_filter (s.filling (p.nodes.map Tier.span)) (fun e => e.1.isEmpty) l
    rw [← settled] at hsplit
    have hshare : share (s.filling (p.nodes.map Tier.span)) l ≤ Bucket.capacity := by
      by_cases hl : l < s.levels
      · exact Nat.le_of_eq (share_path hlen hnodes hrouted l hl)
      · rw [share, List.countP_eq_zero.2]
        · exact Nat.zero_le _
        · intro e he hel
          obtain ⟨h, -⟩ := mem_filling s _ e he l (by simpa using hel)
          rw [List.length_map, Path.length_nodes, hlen] at h
          exact hl h
    omega
  routed e he l hl := by
    obtain ⟨he, hreal⟩ := List.mem_filter.1 he
    rw [Bool.not_eq_true'] at hreal
    obtain ⟨h, hcovers⟩ := mem_filling s _ e he l hl
    have h' : l < p.nodes.length := by rwa [List.length_map] at h
    refine ⟨p.nodes[l], List.getElem?_eq_getElem h', ?_⟩
    rw [encloses_iff _ _ (hnodes _ (List.getElem_mem h')), ← List.getElem_map Tier.span]
    exact hcovers hreal

theorem leafmost_settled : Leafmost p (s.settled (p.nodes.map Tier.span)) := by
  intro e he k node hbelow hnode hencloses
  obtain ⟨hk, rfl⟩ := List.getElem?_eq_some_iff.1 hnode
  have hk' : k < (p.nodes.map Tier.span).length := by rwa [List.length_map]
  have hle := full_of_settled s _ (by rw [List.length_map, Path.length_nodes, hlen])
    (filled_span p.nodes) (covers_span hnodes hrouted) e he k hk'
    (by rwa [List.getElem_map, ← encloses_iff _ _ (hnodes _ (List.getElem_mem hk))]) hbelow
  exact Nat.le_antisymm ((placement_settled hlen hnodes hrouted).room k) hle

end Routed

def FullAt (s : Stash w) (l : Nat) : Prop :=
  ∃ bucket, s.bucketAt l = .ok bucket ∧ ∀ b ∈ bucket.toList, b.isEmpty = false

section Evicted

variable {s s' : Stash w} {tiers : List Tier} {placed : List (Block w × Option Nat)}
  (hperm : placed.Perm (s.filling tiers))
include hperm

theorem mem_settled_of_sentTo {b : Block w} {level : Option Nat}
    (h : b ∈ (sentTo level placed).map Prod.fst) (hreal : b.isEmpty = false) :
    (b, level) ∈ s.settled tiers := by
  obtain ⟨e, he, rfl⟩ := List.mem_map.1 h
  obtain ⟨hmem, rfl⟩ := mem_sentTo.1 he
  exact List.mem_filter.2 ⟨hperm.mem_iff.1 hmem, by simp [hreal]⟩

theorem countP_sentTo (level : Option Nat) :
    ((sentTo level placed).map Prod.fst).countP (fun b => !b.isEmpty) =
      (s.settled tiers).countP (·.2 == level) := by
  rw [sentTo, settled, List.countP_map, List.countP_filter, List.countP_filter, hperm.countP_eq]
  congr 1
  funext e
  exact Bool.and_comm _ _

variable (h : Evicted s s' placed)
include h

theorem overflowCount_evicted : s'.overflowCount = leftOver (s.settled tiers) := by
  have hrest : (s.overflow.drop s.overflowBound).countP (fun b => !b.isEmpty) = 0 := by
    rw [List.countP_eq_length_filter, ← stored, stored_rest, List.length_nil]
  rw [overflowCount, h.overflow, List.countP_append, countP_sentTo hperm, hrest, Nat.add_zero, leftOver]
  congr 1
  funext e
  cases e.2 <;> rfl

theorem fullAt_evicted {l : Nat} (hl : l < s.levels)
    (hshare : share (s.settled tiers) l = Bucket.capacity) : FullAt s' l := by
  obtain ⟨bucket, hbucket, htoList⟩ := h.bucket l hl
  have hcount : bucket.toList.countP (fun b => !b.isEmpty) = bucket.toList.length := by
    rw [htoList, countP_sentTo hperm, ← htoList, Bucket.length_toList]
    exact hshare
  refine ⟨bucket, hbucket, fun b hb => ?_⟩
  simpa using List.countP_eq_length.1 hcount b hb

end Evicted

/-- After an eviction no block could lie further down the path, as all levels below its own that its
position allows hold three blocks. The same goes for all levels and a block that is left over. So no
other way to refill the path leaves fewer blocks over. -/
theorem exists_leafmost_evict {s : Stash w} {leaf root : Word} {p : Path}
    (hpath : Path.between leaf root = .ok p) (hlen : p.length = s.levels)
    (hrouted : RoutedOn s.path p) :
    ∃ s', s.evict p = .ok s' ∧
      (∀ (l : Nat) (bucket : Bucket w), s'.bucketAt l = .ok bucket → ∀ b ∈ stored bucket.toList,
        ∀ k < l, ∀ node, p.nodes[k]? = some node → Node.Encloses node b.position → FullAt s' k) ∧
      (∀ b ∈ stored s'.overflow, ∀ (k : Nat) (node : Word), p.nodes[k]? = some node →
        Node.Encloses node b.position → FullAt s' k) ∧
      (∃ placed, Placement p (stored s.slots) placed ∧ leftOver placed = s'.overflowCount) ∧
      ∀ placed, Placement p (stored s.slots) placed → s'.overflowCount ≤ leftOver placed := by
  have hnodes := Path.toNat_lt_of_between hpath
  have harrange := arrange_eq hlen hnodes hrouted
  have hperm := perm_of_arrange harrange
  obtain ⟨s', hevict, hevicted⟩ := exists_evicted harrange
  have hplacement := placement_settled hlen hnodes hrouted
  have hleafmost := leafmost_settled hlen hnodes hrouted
  have hcount := overflowCount_evicted hperm hevicted
  have hfull : ∀ e ∈ s.settled (p.nodes.map Tier.span), ∀ (k : Nat) (node : Word),
      (∀ l, e.2 = some l → k < l) → p.nodes[k]? = some node → Node.Encloses node e.1.position →
        FullAt s' k := by
    intro e he k node hbelow hnode hencloses
    have hk : k < s.levels := by
      rw [← hlen]
      exact (List.getElem?_eq_some_iff.1 hnode).1
    exact fullAt_evicted hperm hevicted hk (hleafmost e he k node hbelow hnode hencloses)
  refine ⟨s', hevict, fun l bucket hbucket b hb k hk node hnode hencloses => ?_,
    fun b hb k node hnode hencloses => ?_, ⟨_, hplacement, hcount.symm⟩, fun placed hplaced => ?_⟩
  · obtain ⟨hmem, hreal⟩ := mem_stored.1 hb
    have hl : l < s.levels := by
      rw [← hevicted.levels]
      exact (List.getElem?_eq_some_iff.1 ((bucketAt_eq_ok_iff s' l bucket).1 hbucket)).1
    obtain ⟨bucket', hbucket', htoList⟩ := hevicted.bucket l hl
    obtain rfl := Except.ok.inj (hbucket.symm.trans hbucket')
    refine hfull (b, some l) (mem_settled_of_sentTo hperm (htoList ▸ hmem) hreal) k node ?_ hnode hencloses
    intro m hm
    rwa [← Option.some.inj hm]
  · obtain ⟨hmem, hreal⟩ := mem_stored.1 hb
    rw [hevicted.overflow, List.mem_append] at hmem
    obtain hmem | hmem := hmem
    · refine hfull (b, none) (mem_settled_of_sentTo hperm hmem hreal) k node ?_ hnode hencloses
      intro m hm
      cases hm
    · simp [isEmpty_of_mem_drop s hmem] at hreal
  · rw [hcount]
    exact hleafmost.leftOver_le hpath hplacement hplaced

theorem exists_leafmost_holed : Path.between 2 1 = .ok ⟨2, [1]⟩ ∧
    ∃ s' root, holed.evict ⟨2, [1]⟩ = .ok s' ∧ s'.bucketAt 1 = .ok root ∧
      ⟨5, 2, #v[5]⟩ ∈ stored root.toList ∧ FullAt s' 0 ∧ ⟨6, 0, #v[6]⟩ ∈ stored s'.overflow ∧
      FullAt s' 1 ∧ s'.overflowCount = 2 ∧
      (∃ placed, Placement ⟨2, [1]⟩ (stored holed.slots) placed ∧ leftOver placed = 2) ∧
      ∀ placed, Placement ⟨2, [1]⟩ (stored holed.slots) placed → 2 ≤ leftOver placed := by
  obtain ⟨s', hevict, hbuckets, hoverflow, hplacement, hleast⟩ :=
    exists_leafmost_evict between_holed rfl routedOn_holed
  have hresult : (holed.evict ⟨2, [1]⟩).toOption.map (fun s => (s.path[1]?, stored s.overflow)) =
      some (some (Bucket.ofList [⟨4, 0, #v[4]⟩, ⟨2, 0, #v[2]⟩, ⟨5, 2, #v[5]⟩]),
        [⟨6, 0, #v[6]⟩, ⟨7, 77, #v[7]⟩]) := by decide +kernel
  rw [hevict] at hresult
  obtain ⟨hroot, hover⟩ := Prod.mk.inj (Option.some.inj hresult)
  have hbucket : s'.bucketAt 1 =
      .ok (Bucket.ofList [⟨4, 0, #v[4]⟩, ⟨2, 0, #v[2]⟩, ⟨5, 2, #v[5]⟩]) :=
    (bucketAt_eq_ok_iff s' 1 _).2 hroot
  have hfive : ⟨5, 2, #v[5]⟩ ∈ stored
      (Bucket.ofList [⟨4, 0, #v[4]⟩, ⟨2, 0, #v[2]⟩, ⟨5, 2, #v[5]⟩] : Bucket 1).toList := by
    decide +kernel
  have hsix : ⟨6, 0, #v[6]⟩ ∈ stored s'.overflow := by
    rw [hover]
    decide +kernel
  have hcount : s'.overflowCount = 2 := by
    rw [overflowCount, List.countP_eq_length_filter, ← stored, hover]
    rfl
  have hleaf : Node.Encloses 2 2 := (encloses_iff 2 2 (by decide)).2 (by decide +kernel)
  have hzero : Node.Encloses 1 0 := (encloses_iff 1 0 (by decide)).2 (by decide +kernel)
  rw [hcount] at hplacement hleast
  exact ⟨between_holed, s', _, hevict, hbucket, hfive,
    hbuckets 1 _ hbucket _ hfive 0 (by decide) 2 rfl hleaf, hsix, hoverflow _ hsix 1 1 rfl hzero, hcount,
    hplacement, hleast⟩

end ObliviousRam.Stash
