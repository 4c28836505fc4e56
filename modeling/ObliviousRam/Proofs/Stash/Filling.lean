import Mathlib.Algebra.BigOperators.Group.Finset.Piecewise
import Mathlib.Algebra.Order.BigOperators.Group.Finset
import ObliviousRam.Stash.Eviction

namespace ObliviousRam.Stash

variable {w : Nat}

def share (placed : List (Block w × Option Nat)) (l : Nat) : Nat :=
  placed.countP fun e => e.2 == some l

def Tier.add (t : Tier) (gain : Nat) : Tier := { t with filled := t.filled + gain }

def raise (gain : Nat → Nat) (tiers : List Tier) : List Tier :=
  tiers.mapIdx fun l t => t.add (gain l)

def unit (level : Option Nat) (l : Nat) : Nat := if level = some l then 1 else 0

theorem share_cons (e : Block w × Option Nat) (placed : List (Block w × Option Nat)) :
    share (e :: placed) = fun l => unit e.2 l + share placed l := by
  funext l
  simp [share, unit, List.countP_cons, Nat.add_comm]

@[simp] theorem length_raise (gain : Nat → Nat) (tiers : List Tier) :
    (raise gain tiers).length = tiers.length := List.length_mapIdx

theorem getElem_raise (gain : Nat → Nat) (tiers : List Tier) (l : Nat)
    (h : l < (raise gain tiers).length) (hl : l < tiers.length) :
    (raise gain tiers)[l] = tiers[l].add (gain l) := List.getElem_mapIdx

theorem add_mem_raise (gain : Nat → Nat) (tiers : List Tier) (l : Nat) (hl : l < tiers.length) :
    tiers[l].add (gain l) ∈ raise gain tiers := by
  rw [← getElem_raise gain tiers l (by simpa using hl) hl]
  exact List.getElem_mem _

theorem raise_raise (f g : Nat → Nat) (tiers : List Tier) :
    raise g (raise f tiers) = raise (fun l => f l + g l) tiers := by
  apply List.ext_getElem
  · simp
  · intro l h₁ h₂
    rw [length_raise, length_raise] at h₁
    rw [getElem_raise _ _ _ _ (by simpa using h₁), getElem_raise _ _ _ _ h₁,
      getElem_raise _ _ _ _ h₁, Tier.add, Tier.add, Tier.add, Nat.add_assoc]

theorem raise_none (tiers : List Tier) : raise (unit none) tiers = tiers := by
  apply List.ext_getElem
  · simp
  · intro l h₁ h₂
    rw [getElem_raise _ _ _ _ h₂]
    rfl

theorem modify_fill (l : Nat) (tiers : List Tier) :
    tiers.modify l Tier.fill = raise (unit (some l)) tiers := by
  apply List.ext_getElem
  · simp
  · intro i h₁ h₂
    rw [length_raise] at h₂
    rw [List.getElem_modify, getElem_raise _ _ _ _ h₂]
    simp only [unit, Option.some.injEq]
    split <;> rfl

theorem settle_cases (suits : Tier → Bool) (reach : Nat) (tiers : List Tier) :
    (∃ l, ∃ h : l < tiers.length, l < reach ∧ suits tiers[l] = true ∧
      (∀ k (hk : k < l), suits tiers[k] = false) ∧
      settle suits reach tiers = (some l, raise (unit (some l)) tiers)) ∨
    (∀ l (h : l < tiers.length), l < reach → suits tiers[l] = false) ∧
      settle suits reach tiers = (none, raise (unit none) tiers) := by
  rw [settle]
  cases hfind : (tiers.take reach).findIdx? suits with
  | some l =>
    obtain ⟨h, hl, hk⟩ := List.findIdx?_eq_some_iff_getElem.1 hfind
    rw [List.length_take] at h
    simp only [List.getElem_take, Bool.not_eq_true] at hl hk
    exact .inl ⟨l, by omega, by omega, hl, hk, by rw [← modify_fill]⟩
  | none =>
    rw [List.findIdx?_eq_none_iff] at hfind
    refine .inr ⟨fun l h hl => ?_, by rw [raise_none]⟩
    apply hfind
    rw [List.mem_take_iff_getElem]
    exact ⟨l, by omega, rfl⟩

def choose (reach : Nat) (block : Block w) (tiers : List Tier) : Option Nat × List Tier :=
  if block.isEmpty then (none, tiers) else settle (·.accepts block.position) reach tiers

theorem assign_cons (reach : Nat) (block : Block w) (rest : List (Nat × Block w))
    (tiers : List Tier) :
    assign ((reach, block) :: rest) tiers =
      ((block, (choose reach block tiers).1) :: (assign rest (choose reach block tiers).2).1,
        (assign rest (choose reach block tiers).2).2) := rfl

theorem choose_tiers (reach : Nat) (block : Block w) (tiers : List Tier) :
    (choose reach block tiers).2 = raise (unit (choose reach block tiers).1) tiers := by
  rw [choose]
  split
  · rw [raise_none]
  · obtain ⟨l, -, -, -, -, h⟩ | ⟨-, h⟩ := settle_cases (·.accepts block.position) reach tiers <;>
      rw [h]

theorem choose_eq_some (reach : Nat) (block : Block w) (tiers : List Tier) (l : Nat)
    (h : (choose reach block tiers).1 = some l) :
    l < reach ∧ block.isEmpty = false ∧
      ∃ hl : l < tiers.length, tiers[l].accepts block.position = true ∧
        ∀ k (hk : k < l), tiers[k].accepts block.position = false := by
  rw [choose] at h
  split at h
  next => cases h
  next hreal =>
    obtain ⟨k, hk, hreach, hsuits, hfirst, hs⟩ | ⟨-, hs⟩ :=
      settle_cases (·.accepts block.position) reach tiers
    · rw [hs] at h
      cases h
      exact ⟨hreach, by simpa using hreal, hk, hsuits, hfirst⟩
    · rw [hs] at h
      cases h

theorem choose_eq_none (reach : Nat) (block : Block w) (tiers : List Tier)
    (h : (choose reach block tiers).1 = none) :
    block.isEmpty = true ∨
      ∀ l (hl : l < tiers.length), l < reach → tiers[l].accepts block.position = false := by
  rw [choose] at h
  split at h
  next hempty => exact .inl hempty
  next =>
    obtain ⟨k, hk, hreach, hsuits, hfirst, hs⟩ | ⟨hnone, -⟩ :=
      settle_cases (·.accepts block.position) reach tiers
    · rw [hs] at h
      cases h
    · exact .inr hnone

theorem assign_append (cs ds : List (Nat × Block w)) (tiers : List Tier) :
    assign (cs ++ ds) tiers =
      ((assign cs tiers).1 ++ (assign ds (assign cs tiers).2).1,
        (assign ds (assign cs tiers).2).2) := by
  induction cs generalizing tiers with
  | nil => rfl
  | cons c cs ih => rw [List.cons_append, assign_cons, assign_cons, ih]; rfl

theorem assign_blocks (cs : List (Nat × Block w)) (tiers : List Tier) :
    (assign cs tiers).1.map Prod.fst = cs.map Prod.snd := by
  induction cs generalizing tiers with
  | nil => rfl
  | cons c cs ih => rw [assign_cons, List.map_cons, ih]; rfl

theorem assign_tiers (cs : List (Nat × Block w)) (tiers : List Tier) :
    (assign cs tiers).2 = raise (share (assign cs tiers).1) tiers := by
  induction cs generalizing tiers with
  | nil => exact (raise_none tiers).symm
  | cons c cs ih => rw [assign_cons, ih, choose_tiers, raise_raise, share_cons]

theorem mem_assign (cs : List (Nat × Block w)) (tiers : List Tier) (reach : Nat)
    (hreach : ∀ c ∈ cs, c.1 ≤ reach) (e : Block w × Option Nat) (he : e ∈ (assign cs tiers).1)
    (l : Nat) (hl : e.2 = some l) :
    l < reach ∧ e.1.isEmpty = false ∧
      ∃ h : l < tiers.length, tiers[l].covers e.1.position = true := by
  induction cs generalizing tiers with
  | nil => cases he
  | cons c cs ih =>
    rw [assign_cons, List.mem_cons] at he
    obtain rfl | he := he
    · obtain ⟨hlt, hreal, h, haccepts, -⟩ := choose_eq_some c.1 c.2 tiers l hl
      rw [Tier.accepts, Bool.and_eq_true] at haccepts
      exact ⟨Nat.lt_of_lt_of_le hlt (hreach c (by simp)), hreal, h, haccepts.1⟩
    · obtain ⟨hlt, hreal, h, hcovers⟩ := ih _ (fun d hd => hreach d (by simp [hd])) he
      simp only [choose_tiers] at h hcovers
      have hl' : l < tiers.length := by simpa using h
      rw [getElem_raise _ _ _ _ hl'] at hcovers
      exact ⟨hlt, hreal, hl', hcovers⟩

def Bounded (tiers : List Tier) : Prop := ∀ t ∈ tiers, t.filled ≤ Bucket.capacity

theorem Bounded.raise_unit {tiers : List Tier} (h : Bounded tiers) (l : Nat) (hl : l < tiers.length)
    (hroom : tiers[l].hasRoom = true) : Bounded (raise (unit (some l)) tiers) := by
  intro t ht
  obtain ⟨i, hi, rfl⟩ := List.getElem_of_mem ht
  rw [length_raise] at hi
  have := h _ (List.getElem_mem hi)
  rw [Tier.hasRoom, decide_eq_true_eq] at hroom
  rw [getElem_raise _ _ _ _ hi]
  simp only [Tier.add, unit, Option.some.injEq]
  split
  · subst l
    omega
  · exact this

theorem bounded_assign (cs : List (Nat × Block w)) (tiers : List Tier) (h : Bounded tiers) :
    Bounded (assign cs tiers).2 := by
  induction cs generalizing tiers with
  | nil => exact h
  | cons c cs ih =>
    rw [assign_cons]
    apply ih
    rw [choose_tiers]
    cases hc : (choose c.1 c.2 tiers).1 with
    | none => rwa [raise_none]
    | some l =>
      obtain ⟨-, -, hl, haccepts, -⟩ := choose_eq_some c.1 c.2 tiers l hc
      rw [Tier.accepts, Bool.and_eq_true] at haccepts
      exact h.raise_unit l hl haccepts.2

/-- Blocks of one bucket find a level, as long as their own level has room for all of them. -/
theorem assign_bucket (bs : List (Block w)) (k : Nat) (tiers : List Tier) (hk : k < tiers.length)
    (hroom : tiers[k].filled + bs.length ≤ Bucket.capacity)
    (hcovers : ∀ b ∈ bs, b.isEmpty = false → tiers[k].covers b.position = true)
    (e : Block w × Option Nat) (he : e ∈ (assign (bs.map (k + 1, ·)) tiers).1)
    (hreal : e.1.isEmpty = false) : e.2 ≠ none := by
  induction bs generalizing tiers with
  | nil => cases he
  | cons b bs ih =>
    rw [List.length_cons] at hroom
    rw [List.map_cons, assign_cons, List.mem_cons] at he
    obtain rfl | he := he
    · intro hnone
      obtain hempty | hfull := choose_eq_none (k + 1) b tiers hnone
      · simp [hempty] at hreal
      · have hk' := hfull k hk (by omega)
        rw [Tier.accepts, hcovers b (by simp) hreal, Bool.true_and, Tier.hasRoom,
          decide_eq_false_iff_not] at hk'
        omega
    · rw [choose_tiers] at he
      refine ih _ (by simpa using hk) ?_ (fun d hd hd' => ?_) he
      · rw [getElem_raise _ _ _ _ hk]
        simp only [Tier.add, unit]
        split <;> omega
      · rw [getElem_raise _ _ _ _ hk]
        exact hcovers d (by simp [hd]) hd'

/-- Blocks of a path all find a level, because no block rises above its own bucket. -/
theorem assign_path (buckets : List (Bucket w)) (k : Nat) (tiers : List Tier)
    (hlen : k + buckets.length ≤ tiers.length)
    (hzero : ∀ l (hl : l < tiers.length), k ≤ l → tiers[l].filled = 0)
    (hcovers : ∀ i (hi : i < buckets.length) (ht : k + i < tiers.length), ∀ b ∈ buckets[i].toList,
      b.isEmpty = false → tiers[k + i].covers b.position = true)
    (e : Block w × Option Nat)
    (he : e ∈ (assign ((buckets.zipIdx k).flatMap fun (bucket, level) =>
      bucket.toList.map (level + 1, ·)) tiers).1)
    (hreal : e.1.isEmpty = false) : e.2 ≠ none := by
  induction buckets generalizing k tiers with
  | nil => cases he
  | cons bucket buckets ih =>
    rw [List.length_cons] at hlen
    have hk : k < tiers.length := by omega
    rw [List.zipIdx_cons, List.flatMap_cons, assign_append, List.mem_append] at he
    obtain he | he := he
    · refine assign_bucket bucket.toList k tiers hk ?_ (hcovers 0 (by simp) hk) e he hreal
      rw [hzero k hk (Nat.le_refl k), Nat.zero_add, Bucket.length_toList]
    · rw [assign_tiers] at he
      refine ih (k + 1) _ (by rw [length_raise]; omega) (fun l hl hle => ?_)
        (fun i hi ht b hb hb' => ?_) he
      · rw [length_raise] at hl
        rw [getElem_raise _ _ _ _ hl, Tier.add, hzero l hl (by omega), Nat.zero_add]
        -- Blocks of this bucket stay below level `k + 1`.
        rw [share, List.countP_eq_zero]
        intro e' he' hl'
        have := (mem_assign _ tiers (k + 1) (by simp) e' he' l (by simpa using hl')).1
        omega
      · have := hcovers (i + 1) (by simpa using hi) (by omega) b (by simpa using hb) hb'
        rw [getElem_raise _ _ _ _ (by omega)]
        simp only [Nat.add_right_comm k 1 i]
        exact this

def refill (e : Block w × Option Nat) (tiers : List Tier) : Option Nat × List Tier :=
  if e.1.isEmpty then settle Tier.hasRoom tiers.length tiers else (e.2, tiers)

theorem pad_cons (e : Block w × Option Nat) (rest : List (Block w × Option Nat))
    (tiers : List Tier) :
    pad (e :: rest) tiers =
      ((e.1, (refill e tiers).1) :: (pad rest (refill e tiers).2).1,
        (pad rest (refill e tiers).2).2) := rfl

theorem refill_real (e : Block w × Option Nat) (tiers : List Tier) (h : e.1.isEmpty = false) :
    refill e tiers = (e.2, tiers) := by
  simp [refill, h]

theorem refill_empty (e : Block w × Option Nat) (tiers : List Tier) (h : e.1.isEmpty = true) :
    (∃ l, ∃ hl : l < tiers.length, tiers[l].hasRoom = true ∧
      refill e tiers = (some l, raise (unit (some l)) tiers)) ∨
    (∀ t ∈ tiers, t.hasRoom = false) ∧ refill e tiers = (none, raise (unit none) tiers) := by
  rw [refill, if_pos h]
  obtain ⟨l, hl, -, hroom, -, hs⟩ | ⟨hnone, hs⟩ := settle_cases Tier.hasRoom tiers.length tiers
  · exact .inl ⟨l, hl, hroom, hs⟩
  · refine .inr ⟨fun t ht => ?_, hs⟩
    obtain ⟨i, hi, rfl⟩ := List.getElem_of_mem ht
    exact hnone i hi hi

theorem pad_blocks (placed : List (Block w × Option Nat)) (tiers : List Tier) :
    (pad placed tiers).1.map Prod.fst = placed.map Prod.fst := by
  induction placed generalizing tiers with
  | nil => rfl
  | cons e rest ih => rw [pad_cons, List.map_cons, ih]; rfl

theorem pad_real (placed : List (Block w × Option Nat)) (tiers : List Tier) :
    (pad placed tiers).1.filter (fun e => !e.1.isEmpty) = placed.filter fun e => !e.1.isEmpty := by
  induction placed generalizing tiers with
  | nil => rfl
  | cons e rest ih =>
    rw [pad_cons, List.filter_cons, List.filter_cons, ih]
    cases h : e.1.isEmpty
    · rw [refill_real e tiers h]
    · rfl

theorem pad_tiers (placed : List (Block w × Option Nat)) (tiers : List Tier) :
    (pad placed tiers).2 =
      raise (share ((pad placed tiers).1.filter fun e => e.1.isEmpty)) tiers := by
  induction placed generalizing tiers with
  | nil => exact (raise_none tiers).symm
  | cons e rest ih =>
    rw [pad_cons, ih, List.filter_cons]
    cases h : e.1.isEmpty
    · rw [refill_real e tiers h]
      rfl
    · rw [if_pos rfl, share_cons]
      obtain ⟨l, -, -, hr⟩ | ⟨-, hr⟩ := refill_empty e tiers h <;>
        rw [hr, raise_raise]

theorem bounded_pad (placed : List (Block w × Option Nat)) (tiers : List Tier) (hb : Bounded tiers) :
    Bounded (pad placed tiers).2 := by
  induction placed generalizing tiers with
  | nil => exact hb
  | cons e rest ih =>
    rw [pad_cons]
    apply ih
    cases h : e.1.isEmpty
    · rwa [refill_real e tiers h]
    · obtain ⟨l, hl, hroom, hr⟩ | ⟨-, hr⟩ := refill_empty e tiers h
      · rw [hr]
        exact hb.raise_unit l hl hroom
      · rwa [hr, raise_none]

theorem pad_level_lt (placed : List (Block w × Option Nat)) (tiers : List Tier)
    (e : Block w × Option Nat) (he : e ∈ (pad placed tiers).1) (hempty : e.1.isEmpty = true)
    (l : Nat) (hl : e.2 = some l) : l < tiers.length := by
  induction placed generalizing tiers with
  | nil => cases he
  | cons d rest ih =>
    rw [pad_cons, List.mem_cons] at he
    obtain rfl | he := he
    · obtain ⟨k, hk, -, hr⟩ | ⟨-, hr⟩ := refill_empty d tiers hempty
      · rw [hr, Option.some.injEq] at hl
        exact hl ▸ hk
      · rw [hr] at hl
        cases hl
    · have := ih _ he
      cases h : d.1.isEmpty
      · rwa [refill_real d tiers h] at this
      · obtain ⟨k, -, -, hr⟩ | ⟨-, hr⟩ := refill_empty d tiers h <;>
          simpa [hr] using this

theorem pad_full (placed : List (Block w × Option Nat)) (tiers : List Tier) :
    (∀ e ∈ (pad placed tiers).1, e.1.isEmpty = true → e.2 ≠ none) ∨
      ∀ t ∈ (pad placed tiers).2, Bucket.capacity ≤ t.filled := by
  induction placed generalizing tiers with
  | nil => exact .inl (by simp [pad])
  | cons d rest ih =>
    rw [pad_cons]
    obtain hall | hfull := ih (refill d tiers).2
    · cases h : d.1.isEmpty
      · exact .inl (by simpa [h] using hall)
      · obtain ⟨k, -, -, hr⟩ | ⟨hnone, hr⟩ := refill_empty d tiers h
        · exact .inl (by simpa [hr] using hall)
        · refine .inr ?_
          intro t ht
          rw [hr, pad_tiers] at ht
          dsimp only at ht
          rw [raise_none] at ht
          obtain ⟨i, hi, rfl⟩ := List.getElem_of_mem ht
          rw [length_raise] at hi
          have := hnone _ (List.getElem_mem hi)
          rw [Tier.hasRoom, decide_eq_false_iff_not] at this
          rw [getElem_raise _ _ _ _ hi, Tier.add]
          dsimp only
          omega
    · exact .inr hfull

theorem sum_share (placed : List (Block w × Option Nat)) (levels : Nat)
    (h : ∀ e ∈ placed, ∀ l, e.2 = some l → l < levels) :
    ∑ l ∈ Finset.range levels, share placed l = placed.countP fun e => e.2.isSome := by
  induction placed with
  | nil => simp [share]
  | cons e rest ih =>
    rw [share_cons, Finset.sum_add_distrib, ih fun d hd => h d (by simp [hd]), List.countP_cons,
      Nat.add_comm]
    congr 1
    cases he : e.2 with
    | none => simp [unit]
    | some k =>
      have hk := h e (by simp) k he
      simp [unit, Finset.sum_ite_eq, hk]

end ObliviousRam.Stash
