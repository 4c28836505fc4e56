import ObliviousRam.Proofs.Sorting.Sorted
import ObliviousRam.Proofs.Stash.Filling

namespace ObliviousRam.Stash

variable {w : Nat}

theorem levelAfter_irrefl (a : Option Nat) : levelAfter a a = false := by
  cases a <;> simp [levelAfter]

theorem evictedAfter_iff (a b : Block w × Option Nat) :
    evictedAfter a b = true ↔
      levelAfter a.2 b.2 = true ∨ a.2 = b.2 ∧ b.1.position < a.1.position := by
  simp [evictedAfter]

theorem evictedAfter_order :
    IsStrictWeakOrder (Block w × Option Nat) fun a b => evictedAfter a b = true where
  irrefl a := by simp [evictedAfter_iff, levelAfter_irrefl]
  trans a b c := by
    obtain ⟨a, la⟩ := a
    obtain ⟨b, lb⟩ := b
    obtain ⟨c, lc⟩ := c
    cases la <;> cases lb <;> cases lc <;>
      simp only [evictedAfter_iff, levelAfter, UInt64.lt_iff_toNat_lt, decide_eq_true_eq,
        Option.some.injEq, reduceCtorEq, Bool.false_eq_true, false_and, or_false, false_or,
        true_and, forall_const, imp_self, implies_true, IsEmpty.forall_iff] <;> omega
  incomp_trans a b c := by
    obtain ⟨a, la⟩ := a
    obtain ⟨b, lb⟩ := b
    obtain ⟨c, lc⟩ := c
    cases la <;> cases lb <;> cases lc <;>
      simp only [evictedAfter_iff, levelAfter, UInt64.lt_iff_toNat_lt, decide_eq_true_eq,
        Option.some.injEq, reduceCtorEq, Bool.false_eq_true, false_and, or_false, false_or,
        true_and, not_true_eq_false, not_false_eq_true, and_false, and_true, imp_self,
        implies_true, IsEmpty.forall_iff] <;> omega

theorem evictedAfter_empty (a : Block w × Option Nat) : evictedAfter a (Block.empty, none) = false := by
  rw [Bool.eq_false_iff, ne_eq, evictedAfter_iff]
  rintro (h | ⟨-, h⟩)
  · cases hlevel : a.2 <;> rw [hlevel] at h <;> cases h
  · have hle := a.1.position.toNat_lt
    rw [UInt64.lt_iff_toNat_lt, Block.empty, Word.toNat_allOnes] at h
    omega

def rows (levels : Nat) : List (Option Nat) :=
  (List.range levels).flatMap fun l => List.replicate Bucket.capacity (some l)

theorem rows_succ (levels : Nat) :
    rows (levels + 1) = rows levels ++ List.replicate Bucket.capacity (some levels) := by
  rw [rows, List.range_succ, List.flatMap_append, List.flatMap_singleton, rows]

theorem length_rows (levels : Nat) : (rows levels).length = Bucket.capacity * levels := by
  induction levels with
  | zero => rfl
  | succ levels ih => rw [rows_succ, List.length_append, ih, List.length_replicate, Nat.mul_succ]

theorem getElem?_rows (levels i : Nat) (h : i < Bucket.capacity * levels) :
    (rows levels)[i]? = some (some (i / Bucket.capacity)) := by
  induction levels with
  | zero => omega
  | succ levels ih =>
    rw [rows_succ]
    by_cases hi : i < Bucket.capacity * levels
    · rw [List.getElem?_append_left (by rwa [length_rows]), ih hi]
    · have hin : i - Bucket.capacity * levels < Bucket.capacity := by
        rw [Nat.mul_succ] at h
        omega
      have hdiv : i / Bucket.capacity = levels := by
        rw [Nat.div_eq_iff (by decide), Nat.mul_comm]
        omega
      rw [List.getElem?_append_right (by rw [length_rows]; omega), length_rows, hdiv,
        List.getElem?_replicate_of_lt hin]

theorem count_rows (levels : Nat) (level : Option Nat) :
    (rows levels).count level =
      match level with
      | some l => if l < levels then Bucket.capacity else 0
      | none => 0 := by
  induction levels with
  | zero => cases level <;> rfl
  | succ levels ih =>
    rw [rows_succ, List.count_append, ih, List.count_replicate]
    cases level with
    | none => rfl
    | some l =>
      simp only [beq_iff_eq, Option.some.injEq]
      split <;> split <;> split <;> omega

theorem mem_rows (levels : Nat) (level : Option Nat) (h : level ∈ rows levels) :
    ∃ l < levels, level = some l := by
  simp only [rows, List.mem_flatMap, List.mem_range, List.mem_replicate] at h
  obtain ⟨l, hl, -, rfl⟩ := h
  exact ⟨l, hl, rfl⟩

theorem pairwise_rows (levels : Nat) :
    (rows levels).Pairwise fun a b => levelAfter a b = false := by
  induction levels with
  | zero => exact .nil
  | succ levels ih =>
    rw [rows_succ, List.pairwise_append]
    refine ⟨ih, List.pairwise_replicate.2 (.inr (levelAfter_irrefl _)), fun a ha b hb => ?_⟩
    obtain ⟨l, hl, rfl⟩ := mem_rows levels a ha
    rw [List.eq_of_mem_replicate hb]
    simp only [levelAfter, decide_eq_false_iff_not]
    omega

/-- A row that is sorted by level and gives each level its share starts with the levels in order. -/
theorem levels_eq_rows (placed : List (Block w × Option Nat)) (levels : Nat)
    (hsorted : placed.Pairwise fun a b => evictedAfter a b = false)
    (hlt : ∀ e ∈ placed, ∀ l, e.2 = some l → l < levels)
    (hshare : ∀ l < levels, share placed l = Bucket.capacity) :
    ∃ rest, placed.map Prod.snd = rows levels ++ List.replicate rest none := by
  have hsome : placed.countP (fun e => e.2.isSome) = Bucket.capacity * levels := by
    rw [← sum_share placed levels hlt, Finset.sum_congr rfl fun l hl =>
      hshare l (Finset.mem_range.1 hl)]
    simp [Nat.mul_comm]
  refine ⟨placed.countP fun e => e.2.isNone, @List.Perm.eq_of_pairwise _
    (fun a b => levelAfter a b = false) _ _ ?_ ?_ ?_ ?_⟩
  · intro a b _ _ hab hba
    cases a <;> cases b <;> simp_all [levelAfter]
    omega
  · rw [List.pairwise_map]
    refine hsorted.imp fun {a b} h => ?_
    rw [Bool.eq_false_iff, ne_eq, evictedAfter_iff, not_or] at h
    simpa using h.1
  · rw [List.pairwise_append]
    refine ⟨pairwise_rows levels, List.pairwise_replicate.2 (.inr rfl), fun a _ b hb => ?_⟩
    obtain rfl := List.eq_of_mem_replicate hb
    cases a <;> rfl
  · rw [List.perm_iff_count]
    intro level
    rw [List.count_append, count_rows, List.count_replicate, List.count, List.countP_map]
    cases level with
    | none => simp [Function.comp_def]
    | some l =>
      by_cases hl : l < levels
      · simpa [hl, share, Function.comp_def] using hshare l hl
      · have hnone : placed.countP (fun e => e.2 == some l) = 0 := by
          rw [List.countP_eq_zero]
          intro e he hel
          exact hl (hlt e he l (by simpa using hel))
        simpa [hl, Function.comp_def] using hnone

end ObliviousRam.Stash
