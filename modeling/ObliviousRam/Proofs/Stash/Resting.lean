import ObliviousRam.Proofs.Stash.Rows

namespace ObliviousRam.Stash

open Slots

variable {w : Nat}

def home (l : Nat) (b : Block w) : Block w × Option Nat := (b, if b.isEmpty then none else some l)

theorem home_of_empty (l : Nat) {b : Block w} (h : b.isEmpty = true) : home l b = (b, none) := by
  rw [home, if_pos h]

theorem home_of_real (l : Nat) {b : Block w} (h : b.isEmpty = false) : home l b = (b, some l) := by
  rw [home, h, if_neg Bool.false_ne_true]

theorem share_spread_home (buckets : List (Bucket w)) (l : Nat) :
    share (spread home buckets) l = (slotsAt buckets l).countP fun b => !b.isEmpty := by
  have hlevel : ∀ k (b : Block w), ((home k b).2 == some l) = true → k = l := by
    intro k b h
    rw [home] at h
    split at h
    · cases h
    · exact Option.some.inj (beq_iff_eq.1 h)
  rw [share, List.countP_eq_length_filter, filter_spread home _ l hlevel,
    ← List.countP_eq_length_filter, List.countP_map]
  apply List.countP_congr
  intro b _
  cases h : b.isEmpty <;> simp [home, h]

theorem share_empty_lying (buckets : List (Bucket w)) (l : Nat) :
    share ((spread lying buckets).filter fun e => e.1.isEmpty) l =
      (slotsAt buckets l).countP Block.isEmpty := by
  have hlevel : ∀ k (b : Block w), ((lying k b).2 == some l && (lying k b).1.isEmpty) = true →
      k = l := by
    intro k b h
    exact Option.some.inj (beq_iff_eq.1 (Bool.and_eq_true_iff.1 h).1)
  rw [share, List.countP_filter, List.countP_eq_length_filter, filter_spread lying _ l hlevel,
    ← List.countP_eq_length_filter, List.countP_map]
  apply List.countP_congr
  intro b _
  simp [lying]

theorem settle_eq {suits : Tier → Bool} {reach k : Nat} {tiers : List Tier} (hk : k < tiers.length)
    (hreach : k < reach) (hsuits : suits tiers[k] = true)
    (hbelow : ∀ l (hl : l < k), suits tiers[l] = false) :
    settle suits reach tiers = (some k, raise (unit (some k)) tiers) := by
  obtain ⟨l, hl, -, hlsuits, hfirst, hs⟩ | ⟨hnone, -⟩ := settle_cases suits reach tiers
  · obtain hlt | rfl | hgt := Nat.lt_trichotomy l k
    · rw [hbelow l hlt] at hlsuits
      cases hlsuits
    · exact hs
    · rw [hfirst k hgt] at hsuits
      cases hsuits
  · rw [hnone k hk hreach] at hsuits
    cases hsuits

theorem getElem_raise_of_ne (tiers : List Tier) {k l : Nat}
    (h : l < (raise (unit (some k)) tiers).length) (hl : l < tiers.length) (hne : k ≠ l) :
    (raise (unit (some k)) tiers)[l] = tiers[l] := by
  rw [getElem_raise _ _ _ _ hl, unit, if_neg (by simpa using hne)]
  rfl

/-- The blocks of a bucket stay at their level, if there is room and no lower level takes them. -/
theorem assign_home (bs : List (Block w)) (k : Nat) (tiers : List Tier) (hk : k < tiers.length)
    (hroom : tiers[k].filled + bs.countP (fun b => !b.isEmpty) ≤ Bucket.capacity)
    (hcovers : ∀ b ∈ bs, b.isEmpty = false → tiers[k].covers b.position = true)
    (hbelow : ∀ b ∈ bs, b.isEmpty = false → ∀ l (hl : l < k), tiers[l].accepts b.position = false) :
    (assign (bs.map (k + 1, ·)) tiers).1 = bs.map (home k) := by
  induction bs generalizing tiers with
  | nil => rfl
  | cons b bs ih =>
    rw [List.countP_cons] at hroom
    obtain ⟨hhead, htail⟩ := List.forall_mem_cons.1 hcovers
    obtain ⟨hlow, hlows⟩ := List.forall_mem_cons.1 hbelow
    rw [List.map_cons, assign_cons, List.map_cons]
    cases hempty : b.isEmpty with
    | true =>
      have hchoose : choose (k + 1) b tiers = (none, tiers) := if_pos hempty
      rw [hchoose, home_of_empty k hempty, ih tiers hk (by omega) htail hlows]
    | false =>
      rw [hempty, Bool.not_false, if_pos rfl] at hroom
      have haccepts : tiers[k].accepts b.position = true := by
        rw [Tier.accepts, hhead hempty, Bool.true_and, Tier.hasRoom, decide_eq_true_eq]
        omega
      have hchoose : choose (k + 1) b tiers = (some k, raise (unit (some k)) tiers) := by
        rw [choose, hempty, if_neg Bool.false_ne_true]
        exact settle_eq hk (Nat.lt_succ_self k) haccepts (hlow hempty)
      rw [hchoose, home_of_real k hempty, ih (raise (unit (some k)) tiers) (by rwa [length_raise])]
      · rw [getElem_raise _ _ _ _ hk, Tier.add, unit, if_pos rfl]
        dsimp only
        omega
      · intro c hc hreal
        rw [getElem_raise _ _ _ _ hk]
        exact htail c hc hreal
      · intro c hc hreal l hl
        rw [getElem_raise_of_ne tiers _ (Nat.lt_trans hl hk) (Nat.ne_of_gt hl)]
        exact hlows c hc hreal l hl

theorem pad_home (bs : List (Block w)) (k : Nat) (tiers : List Tier) (hk : k < tiers.length)
    (hroom : tiers[k].filled + bs.countP Block.isEmpty ≤ Bucket.capacity)
    (hbelow : ∀ l (hl : l < k), tiers[l].hasRoom = false) :
    (pad (bs.map (home k)) tiers).1 = bs.map (lying k) := by
  induction bs generalizing tiers with
  | nil => rfl
  | cons b bs ih =>
    rw [List.countP_cons] at hroom
    rw [List.map_cons, pad_cons, List.map_cons]
    cases hempty : b.isEmpty with
    | false =>
      rw [refill_real _ _ hempty, ih tiers hk (by omega) hbelow, home_of_real k hempty, lying]
    | true =>
      rw [hempty, if_pos rfl] at hroom
      have hk' : tiers[k].hasRoom = true := by
        rw [Tier.hasRoom, decide_eq_true_eq]
        omega
      have hrefill : refill (home k b) tiers = (some k, raise (unit (some k)) tiers) := by
        rw [refill, home_of_empty k hempty, if_pos hempty]
        exact settle_eq hk hk hk' hbelow
      rw [hrefill, ih (raise (unit (some k)) tiers) (by rwa [length_raise]), lying]
      · rfl
      · rw [getElem_raise _ _ _ _ hk, Tier.add, unit, if_pos rfl]
        dsimp only
        omega
      · intro l hl
        rw [getElem_raise_of_ne tiers _ (Nat.lt_trans hl hk) (Nat.ne_of_gt hl)]
        exact hbelow l hl

/-- Blocks that can go no further down: each lies at a level that covers it, and all lower levels that
cover it are full. -/
structure Resting (buckets : List (Bucket w)) (tiers : List Tier) : Prop where
  covers : ∀ l (hl : l < tiers.length), ∀ b ∈ slotsAt buckets l, b.isEmpty = false →
    tiers[l].covers b.position = true
  full : ∀ l, ∀ b ∈ slotsAt buckets l, b.isEmpty = false → ∀ k (hk : k < tiers.length), k < l →
    tiers[k].covers b.position = true → ∀ c ∈ slotsAt buckets k, c.isEmpty = false

theorem Resting.of_concat {buckets : List (Bucket w)} {b : Bucket w} {tiers : List Tier}
    (h : Resting (buckets ++ [b]) tiers) : Resting buckets tiers := by
  have hslots : ∀ {l : Nat} {c : Block w}, c ∈ slotsAt buckets l → l ≠ buckets.length := by
    rintro l c hc rfl
    rw [slotsAt_of_le (Nat.le_refl _)] at hc
    cases hc
  refine ⟨fun l hl c hc => ?_, fun l c hc hreal k hk hkl hcovers d hd => ?_⟩
  · apply h.covers l hl
    rwa [slotsAt_concat_of_ne buckets b (hslots hc)]
  · apply h.full l c _ hreal k hk hkl hcovers
    · rwa [slotsAt_concat_of_ne buckets b (hslots hd)]
    · rwa [slotsAt_concat_of_ne buckets b (hslots hc)]

theorem countP_of_full {bs : List (Block w)} (h : ∀ b ∈ bs, b.isEmpty = false) :
    bs.countP (fun b => !b.isEmpty) = bs.length := by
  rw [List.countP_eq_length]
  exact fun b hb => by rw [h b hb]; rfl

theorem hasRoom_of_full {buckets : List (Bucket w)} {l : Nat} (hl : l < buckets.length) {tier : Tier}
    (hzero : tier.filled = 0) (hfull : ∀ b ∈ slotsAt buckets l, b.isEmpty = false) :
    (tier.add (share (spread home buckets) l)).hasRoom = false := by
  rw [Tier.add, share_spread_home, countP_of_full hfull, length_slotsAt hl, hzero, Nat.zero_add,
    Tier.hasRoom]
  exact decide_eq_false (Nat.lt_irrefl _)

section Rest

variable (buckets : List (Bucket w)) (tiers : List Tier) (hlen : buckets.length ≤ tiers.length)
include hlen

theorem assign_spread (hzero : ∀ t ∈ tiers, t.filled = 0) (h : Resting buckets tiers) :
    (assign (spread (fun l b => (l + 1, b)) buckets) tiers).1 = spread home buckets := by
  induction buckets using List.reverseRecOn with
  | nil => rfl
  | append_singleton buckets b ih =>
    rw [List.length_append, List.length_singleton] at hlen
    have hk : buckets.length < tiers.length := hlen
    have hslots := slotsAt_concat_self buckets b
    have hfilled : ∀ l (hl : l < tiers.length), tiers[l].filled = 0 := fun l hl =>
      hzero _ (List.getElem_mem hl)
    rw [spread_concat, spread_concat, assign_append, assign_tiers, ih (Nat.le_of_lt hlen) h.of_concat]
    refine congrArg (spread home buckets ++ ·) (assign_home _ _ _ (by rwa [length_raise]) ?_ ?_ ?_)
    · rw [getElem_raise _ _ _ _ hk, Tier.add, hfilled _ hk, share_spread_home,
        slotsAt_of_le (Nat.le_refl _), List.countP_nil]
      dsimp only
      have := List.countP_le_length (p := fun b : Block w => !b.isEmpty) (l := b.toList)
      rw [Bucket.length_toList] at this
      omega
    · intro c hc hreal
      rw [getElem_raise _ _ _ _ hk]
      exact h.covers _ hk c (hslots ▸ hc) hreal
    · -- A lower level that covers the block is full of blocks, which have been sent there by now.
      intro c hc hreal l hl
      have hl' := Nat.lt_trans hl hk
      rw [getElem_raise _ _ _ _ hl', Bool.eq_false_iff, Tier.accepts, ne_eq, Bool.and_eq_true]
      rintro ⟨hcovers, hroom⟩
      have hfull := h.full _ c (hslots ▸ hc) hreal l hl' hl hcovers
      rw [slotsAt_concat_of_ne buckets b (Nat.ne_of_lt hl)] at hfull
      rw [hasRoom_of_full hl (hfilled l hl') hfull] at hroom
      cases hroom

theorem pad_spread (hroom : ∀ l (hl : l < tiers.length), l < buckets.length →
      tiers[l].filled + (slotsAt buckets l).countP Block.isEmpty = Bucket.capacity) :
    (pad (spread home buckets) tiers).1 = spread lying buckets := by
  induction buckets using List.reverseRecOn with
  | nil => rfl
  | append_singleton buckets b ih =>
    rw [List.length_append, List.length_singleton] at hlen hroom
    have hk : buckets.length < tiers.length := hlen
    have hrooms : ∀ l (hl : l < tiers.length), l < buckets.length →
        tiers[l].filled + (slotsAt buckets l).countP Block.isEmpty = Bucket.capacity := by
      intro l hl hlt
      have h := hroom l hl (Nat.lt_succ_of_lt hlt)
      rwa [slotsAt_concat_of_ne buckets b (Nat.ne_of_lt hlt)] at h
    rw [spread_concat, spread_concat, pad_append, pad_tiers, ih (Nat.le_of_lt hlen) hrooms]
    refine congrArg (spread lying buckets ++ ·) (pad_home _ _ _ (by rwa [length_raise]) ?_ ?_)
    · have h := hroom _ hk (Nat.lt_succ_self _)
      rw [slotsAt_concat_self] at h
      rw [getElem_raise _ _ _ _ hk, Tier.add, share_empty_lying, slotsAt_of_le (Nat.le_refl _),
        List.countP_nil]
      exact Nat.le_of_eq h
    · -- The lower levels have been filled up by their own empty slots.
      intro l hl
      have h := hrooms l (Nat.lt_trans hl hk) hl
      rw [getElem_raise _ _ _ _ (Nat.lt_trans hl hk), Tier.add, share_empty_lying, h, Tier.hasRoom]
      exact decide_eq_false (Nat.lt_irrefl _)

theorem pad_spread_home (hzero : ∀ t ∈ tiers, t.filled = 0) :
    (pad (spread home buckets) (raise (share (spread home buckets)) tiers)).1 = spread lying buckets := by
  apply pad_spread _ _ (by rwa [length_raise])
  intro l hl hlt
  have hl' := Nat.lt_of_lt_of_le hlt hlen
  rw [getElem_raise _ _ _ _ hl', Tier.add, share_spread_home, hzero _ (List.getElem_mem hl'),
    Nat.zero_add, ← length_slotsAt hlt, Nat.add_comm, List.length_eq_countP_add_countP Block.isEmpty]
  simp only [Bool.not_eq_true, Bool.decide_eq_false]

end Rest

theorem assign_of_full (cs : List (Nat × Block w)) (tiers : List Tier)
    (h : ∀ c ∈ cs, ∀ l (hl : l < tiers.length), tiers[l].accepts c.2.position = false) :
    assign cs tiers = (cs.map fun c => (c.2, none), tiers) := by
  induction cs with
  | nil => rfl
  | cons c cs ih =>
    obtain ⟨hhead, htail⟩ := List.forall_mem_cons.1 h
    have hchoose : choose c.1 c.2 tiers = (none, tiers) := by
      rw [choose]
      split
      · rfl
      · obtain ⟨l, hl, -, haccepts, -⟩ | ⟨-, hs⟩ := settle_cases (·.accepts c.2.position) c.1 tiers
        · rw [hhead l hl] at haccepts
          cases haccepts
        · rw [hs, raise_none]
    rw [assign_cons, hchoose, ih htail, List.map_cons]

theorem pad_of_real (placed : List (Block w × Option Nat)) (tiers : List Tier)
    (h : ∀ e ∈ placed, e.1.isEmpty = false) : pad placed tiers = (placed, tiers) := by
  induction placed with
  | nil => rfl
  | cons e rest ih =>
    obtain ⟨hhead, htail⟩ := List.forall_mem_cons.1 h
    rw [pad_cons, refill_real e tiers hhead, ih htail]

/-- A stash whose blocks can go no further down and whose slots are in order. -/
structure AtRest (s : Stash w) (tiers : List Tier) : Prop where
  path : Resting s.path tiers
  overflow : ∀ b ∈ stored s.overflow, ∀ l (hl : l < tiers.length), tiers[l].covers b.position = true →
    ∀ c ∈ slotsAt s.path l, c.isEmpty = false
  compact : Compact s.overflow
  ordered : s.row.Pairwise fun a b => evictedAfter a b = false

section AtRest

variable {s : Stash w} {tiers : List Tier} (h : AtRest s tiers)
include h

theorem AtRest.isEmpty_of_mem_take {b : Block w} (hb : b ∈ s.overflow.take s.overflowBound) :
    b.isEmpty = false := by
  rw [overflowBound_of_compact h.compact] at hb
  exact Stash.isEmpty_of_mem_take h.compact hb

variable (hlen : tiers.length = s.levels) (hzero : ∀ t ∈ tiers, t.filled = 0)
include hlen hzero

theorem AtRest.assign_overflow : assign ((s.overflow.take s.overflowBound).map (s.levels, ·))
    (raise (share (spread home s.path)) tiers) =
      ((s.overflow.take s.overflowBound).map (·, none), raise (share (spread home s.path)) tiers) := by
  rw [assign_of_full, List.map_map]
  · rfl
  · intro c hc l hl
    obtain ⟨b, hb, rfl⟩ := List.mem_map.1 hc
    rw [length_raise] at hl
    rw [getElem_raise _ _ _ _ hl, Bool.eq_false_iff, Tier.accepts, ne_eq, Bool.and_eq_true]
    rintro ⟨hcovers, hroom⟩
    have hstored := mem_stored.2 ⟨List.mem_of_mem_take hb, h.isEmpty_of_mem_take hb⟩
    have hfull := h.overflow b hstored l hl hcovers
    rw [hasRoom_of_full (by rw [hlen] at hl; exact hl) (hzero _ (List.getElem_mem hl)) hfull] at hroom
    cases hroom

theorem AtRest.outcome_filling : s.outcome (s.filling tiers) = s.row := by
  have hlevels : s.path.length ≤ tiers.length := Nat.le_of_eq hlen.symm
  have hcandidates : s.candidates = spread (fun l b => (l + 1, b)) s.path ++
      (s.overflow.take s.overflowBound).map (s.levels, ·) := rfl
  have hreal : ∀ e ∈ (s.overflow.take s.overflowBound).map (·, (none : Option Nat)),
      e.1.isEmpty = false := by
    intro e he
    obtain ⟨b, hb, rfl⟩ := List.mem_map.1 he
    exact h.isEmpty_of_mem_take hb
  rw [filling, hcandidates, assign_append, assign_tiers (spread _ _),
    assign_spread s.path tiers hlevels hzero h.path, h.assign_overflow hlen hzero, pad_append,
    pad_spread_home s.path tiers hlevels hzero, pad_of_real _ _ hreal, outcome, List.append_assoc,
    ← List.map_append, List.take_append_drop, row]

end AtRest

end ObliviousRam.Stash
