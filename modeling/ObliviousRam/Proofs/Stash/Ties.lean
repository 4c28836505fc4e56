import Mathlib.Logic.Equiv.Basic
import ObliviousRam.Proofs.Stash.Arrangement
import ObliviousRam.Proofs.Stash.Refilling

namespace ObliviousRam.Stash

open Slots

variable {w : Nat}

/-- What the order of an eviction looks at. -/
def rank (e : Block w × Option Nat) : Option Nat × Word := (e.2, e.1.position)

def outcome (s : Stash w) (placed : List (Block w × Option Nat)) : List (Block w × Option Nat) :=
  placed ++ (s.overflow.drop s.overflowBound).map (·, none)

theorem outcome_blocks (s : Stash w) (placed : List (Block w × Option Nat)) :
    (s.outcome placed).map Prod.fst = placed.map Prod.fst ++ s.overflow.drop s.overflowBound := by
  rw [outcome, List.map_append, List.map_map]
  simp [Function.comp_def]

/-- The second row is the first one after entries of the same level and position have traded places. -/
def Traded (as bs : List (Block w × Option Nat)) : Prop :=
  ∃ σ : Equiv.Perm Nat, ∀ i : Nat, bs[i]? = as[σ i]? ∧ as[σ i]?.map rank = as[i]?.map rank

/-- Rows in order are determined by their entries, but for ties. -/
theorem map_rank_eq {as bs : List (Block w × Option Nat)} (hperm : as.Perm bs)
    (ha : as.Pairwise fun a b => evictedAfter a b = false)
    (hb : bs.Pairwise fun a b => evictedAfter a b = false) : as.map rank = bs.map rank := by
  have hmap : ∀ {cs : List (Block w × Option Nat)}, cs.Pairwise (fun a b => evictedAfter a b = false) →
      (cs.map rank).Pairwise fun a b => levelAfter a.1 b.1 = false ∧ (a.1 = b.1 → a.2 ≤ b.2) := by
    intro cs hcs
    rw [List.pairwise_map]
    refine hcs.imp fun {a b} h => ?_
    rw [Bool.eq_false_iff, ne_eq, evictedAfter_iff, not_or, not_and, UInt64.not_lt] at h
    exact ⟨by simpa [rank] using h.1, h.2⟩
  refine List.Perm.eq_of_pairwise ?_ (hmap ha) (hmap hb) (hperm.map rank)
  rintro ⟨l, x⟩ ⟨k, y⟩ - - ⟨hlk, hxy⟩ ⟨hkl, hyx⟩
  have hlevel : l = k := by
    cases l <;> cases k <;> simp_all [levelAfter]
    omega
  subst hlevel
  exact congrArg (Prod.mk l) (UInt64.le_antisymm (hxy rfl) (hyx rfl))

def behind (σ : Equiv.Perm Nat) : Equiv.Perm Nat :=
  Equiv.natEquivNatSumPUnit.{0}.trans ((Equiv.sumCongr σ (.refl _)).trans Equiv.natEquivNatSumPUnit.symm)

theorem exists_equiv_of_perm {α : Type} {as bs : List α} (h : as.Perm bs) :
    ∃ σ : Equiv.Perm Nat, ∀ i : Nat, bs[i]? = as[σ i]? := by
  induction h with
  | nil => exact ⟨.refl _, fun i => rfl⟩
  | cons a _ ih =>
    obtain ⟨σ, hσ⟩ := ih
    refine ⟨behind σ, fun i => ?_⟩
    cases i with
    | zero => rfl
    | succ i =>
      rw [List.getElem?_cons_succ, hσ]
      rfl
  | swap a b rest =>
    refine ⟨.swap 0 1, fun i => ?_⟩
    obtain _ | _ | i := i
    · rfl
    · rfl
    · rw [Equiv.swap_apply_of_ne_of_ne (by omega) (by omega)]
      rfl
  | trans _ _ ihab ihbc =>
    obtain ⟨σ, hσ⟩ := ihab
    obtain ⟨τ, hτ⟩ := ihbc
    exact ⟨τ.trans σ, fun i => by rw [hτ, hσ, Equiv.trans_apply]⟩

theorem traded_of_perm {as bs : List (Block w × Option Nat)} (hperm : as.Perm bs)
    (hrank : as.map rank = bs.map rank) : Traded as bs := by
  obtain ⟨σ, hσ⟩ := exists_equiv_of_perm hperm
  refine ⟨σ, fun i => ⟨hσ i, ?_⟩⟩
  rw [← hσ i, ← List.getElem?_map, ← List.getElem?_map, hrank]

/-- With any other network an eviction that succeeds succeeds as well. It leaves slots of the same
levels and positions in the same order, the same blocks in each bucket, and the same blocks in the
overflow region. Only slots of the same level and position may have traded places. -/
theorem exists_traded_evict {s s₁ : Stash w} {p : Path} (h : s.evict p = .ok s₁)
    (network : SortNetwork) :
    ∃ s₂ placed₁ placed₂, { s with network }.evict p = .ok s₂ ∧
      s.arrange p = .ok placed₁ ∧ { s with network }.arrange p = .ok placed₂ ∧
      s₁.slots = (s.outcome placed₁).map Prod.fst ∧ s₂.slots = (s.outcome placed₂).map Prod.fst ∧
      (s.outcome placed₁).map rank = (s.outcome placed₂).map rank ∧
      (∀ l < s.levels, ∃ bucket₁ bucket₂, s₁.bucketAt l = .ok bucket₁ ∧ s₂.bucketAt l = .ok bucket₂ ∧
        bucket₁.toList.Perm bucket₂.toList) ∧
      s₁.overflow.Perm s₂.overflow ∧ Traded (s.outcome placed₁) (s.outcome placed₂) := by
  obtain ⟨placed₁, harrange₁, hevicted₁⟩ := evicted_of_evict h
  obtain ⟨hlen, hnodes, hshare, -⟩ := (arrange_eq_ok_iff s p placed₁).1 harrange₁
  obtain ⟨placed₂, harrange₂⟩ : ∃ placed₂, { s with network }.arrange p = .ok placed₂ :=
    ⟨_, (arrange_eq_ok_iff { s with network } p _).2 ⟨hlen, hnodes, hshare, rfl⟩⟩
  obtain ⟨s₂, hevict₂, hevicted₂⟩ := exists_evicted harrange₂
  have hperm : placed₁.Perm placed₂ :=
    (perm_of_arrange harrange₁).trans (perm_of_arrange harrange₂).symm
  have hrank : placed₁.map rank = placed₂.map rank :=
    map_rank_eq hperm (pairwise_of_arrange harrange₁) (pairwise_of_arrange harrange₂)
  have hranks : (s.outcome placed₁).map rank = (s.outcome placed₂).map rank := by
    rw [outcome, outcome, List.map_append, List.map_append, hrank]
  have hsent : ∀ level, ((sentTo level placed₁).map Prod.fst).Perm ((sentTo level placed₂).map Prod.fst) :=
    fun level => (hperm.filter _).map _
  refine ⟨s₂, placed₁, placed₂, hevict₂, harrange₁, harrange₂, ?_, ?_, hranks, fun l hl => ?_, ?_, ?_⟩
  · rw [outcome_blocks, hevicted₁.slots]
  · rw [outcome_blocks, hevicted₂.slots]
    rfl
  · obtain ⟨bucket₁, hbucket₁, htoList₁⟩ := hevicted₁.bucket l hl
    obtain ⟨bucket₂, hbucket₂, htoList₂⟩ := hevicted₂.bucket l hl
    exact ⟨bucket₁, bucket₂, hbucket₁, hbucket₂, htoList₁ ▸ htoList₂ ▸ hsent (some l)⟩
  · rw [hevicted₁.overflow, hevicted₂.overflow]
    exact (hsent none).append_right _
  · exact traded_of_perm (hperm.append_right _) hranks

/-- Blocks 2 and 4 tie in the root, and each network puts another one of them first. -/
theorem exists_traded_holed : ∃ s₁ s₂ placed₁ placed₂, holed.evict ⟨2, [1]⟩ = .ok s₁ ∧
    { holed with network := .bitonic }.evict ⟨2, [1]⟩ = .ok s₂ ∧
    holed.arrange ⟨2, [1]⟩ = .ok placed₁ ∧
    { holed with network := .bitonic }.arrange ⟨2, [1]⟩ = .ok placed₂ ∧
    s₁.slots = (holed.outcome placed₁).map Prod.fst ∧ s₂.slots = (holed.outcome placed₂).map Prod.fst ∧
    s₁.slots ≠ s₂.slots ∧ (holed.outcome placed₁).map rank = (holed.outcome placed₂).map rank ∧
    (∀ l < holed.levels, ∃ bucket₁ bucket₂, s₁.bucketAt l = .ok bucket₁ ∧
      s₂.bucketAt l = .ok bucket₂ ∧ bucket₁.toList.Perm bucket₂.toList) ∧
    s₁.overflow.Perm s₂.overflow ∧ Traded (holed.outcome placed₁) (holed.outcome placed₂) := by
  obtain ⟨s₁, hevict₁, -⟩ := exists_evicted
    (arrange_eq rfl (Path.toNat_lt_of_between between_holed) routedOn_holed)
  obtain ⟨s₂, placed₁, placed₂, hevict₂, harrange₁, harrange₂, hslots₁, hslots₂, hrank, hbuckets, hover,
    htraded⟩ := exists_traded_evict hevict₁ .bitonic
  have hids₁ : (holed.evict ⟨2, [1]⟩).toOption.map (fun s => s.slots[3]?.map Block.id) =
      some (some 4) := by decide +kernel
  have hids₂ : (({ holed with network := .bitonic } : Stash 1).evict ⟨2, [1]⟩).toOption.map
      (fun s => s.slots[3]?.map Block.id) = some (some 2) := by decide +kernel
  rw [hevict₁] at hids₁
  rw [hevict₂] at hids₂
  have hne : s₁.slots ≠ s₂.slots := by
    intro heq
    have hfour : s₁.slots[3]?.map Block.id = some 4 := Option.some.inj hids₁
    have htwo : s₂.slots[3]?.map Block.id = some 2 := Option.some.inj hids₂
    rw [heq, htwo] at hfour
    exact absurd hfour (by decide)
  exact ⟨s₁, s₂, placed₁, placed₂, hevict₁, hevict₂, harrange₁, harrange₂, hslots₁, hslots₂, hne, hrank,
    hbuckets, hover, htraded⟩

end ObliviousRam.Stash
