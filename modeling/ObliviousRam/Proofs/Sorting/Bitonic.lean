import ObliviousRam.Proofs.Sorting.ZeroOne

namespace ObliviousRam.SortNetwork

theorem le_two_mul_half (len : Nat) : len ≤ 2 * half len := by
  have h := Nat.lt_log2_self (n := len - 1)
  rw [Nat.pow_succ] at h
  rw [half]
  omega

theorem half_two_pow (a : Nat) : half (2 ^ (a + 1)) = 2 ^ a := by
  have hpos := Nat.two_pow_pos a
  have hlog : (2 ^ (a + 1) - 1).log2 = a := by
    rw [Nat.log2_eq_iff (by omega)]
    omega
  rw [half, hlog]

theorem merging_bounds (ascending : Bool) (lo len : Nat) (c : Comparator)
    (hc : c ∈ merging ascending lo len) :
    lo ≤ c.low ∧ c.low < c.high ∧ c.high < lo + len := by
  induction len using Nat.strongRecOn generalizing lo with
  | ind len ih =>
    rw [merging] at hc
    by_cases h : 1 < len
    · have hpos := half_pos len
      have hlt := half_lt h
      simp only [h, ↓reduceIte, List.mem_append] at hc
      obtain hc | hc | hc := hc
      · simp only [cleaning, List.mem_map, List.mem_range'_1] at hc
        obtain ⟨i, hi, rfl⟩ := hc
        dsimp only
        omega
      · have := ih _ hlt lo hc
        omega
      · have := ih _ (by omega) (lo + half len) hc
        omega
    · simp [h] at hc

theorem bitonicSchedule_bounds (ascending : Bool) (lo len : Nat) (c : Comparator)
    (hc : c ∈ bitonicSchedule ascending lo len) :
    lo ≤ c.low ∧ c.low < c.high ∧ c.high < lo + len := by
  induction len using Nat.strongRecOn generalizing ascending lo with
  | ind len ih =>
    rw [bitonicSchedule] at hc
    by_cases h : 1 < len
    · simp only [h, ↓reduceIte, List.mem_append] at hc
      obtain hc | hc | hc := hc
      · have := ih _ (by omega) (!ascending) lo hc
        omega
      · have := ih _ (by omega) ascending (lo + len / 2) hc
        omega
      · exact merging_bounds ascending lo len c hc
    · simp [h] at hc

def OneRun (b : Nat → Bool) (lo len : Nat) (x : Bool) : Prop :=
  ∃ l h, h ≤ len ∧ ∀ i < len, b (lo + i) = x ↔ l ≤ i ∧ i < h

/-- What a merge puts in order. The bits that belong in front, which are those equal to
`!ascending`, may only surround the others if the length is a power of two. -/
def Bitonic (b : Nat → Bool) (ascending : Bool) (lo len : Nat) : Prop :=
  OneRun b lo len (!ascending) ∨ (∃ a, len = 2 ^ a) ∧ OneRun b lo len ascending

theorem OneRun.congr {b b' : Nat → Bool} {lo len : Nat} {x : Bool} (h : OneRun b lo len x)
    (hb : ∀ i < len, b' (lo + i) = b (lo + i)) : OneRun b' lo len x := by
  obtain ⟨l, r, hr, hrun⟩ := h
  exact ⟨l, r, hr, fun i hi => by rw [hb i hi, hrun i hi]⟩

theorem Bitonic.congr {b b' : Nat → Bool} {ascending : Bool} {lo len : Nat}
    (h : Bitonic b ascending lo len) (hb : ∀ i < len, b' (lo + i) = b (lo + i)) :
    Bitonic b' ascending lo len :=
  h.imp (fun h => h.congr hb) fun ⟨ha, h⟩ => ⟨ha, h.congr hb⟩

theorem oneRun_not {b : Nat → Bool} {lo len : Nat} {x : Bool} (l h : Nat) (hle : h ≤ len)
    (hb : ∀ i < len, b (lo + i) = (!x) ↔ ¬(l ≤ i ∧ i < h)) : OneRun b lo len x := by
  refine ⟨l, h, hle, fun i hi => ?_⟩
  have := hb i hi
  cases hx : b (lo + i) <;> cases x <;> simp_all

theorem runBits_cleaning (ascending : Bool) (lo len : Nat) (b : Nat → Bool) :
    (∀ i < half len, runBits (cleaning ascending lo len) b (lo + i) = (!ascending) ↔
      b (lo + i) = (!ascending) ∨
        half len + i < len ∧ b (lo + half len + i) = !ascending) ∧
    ∀ i, half len + i < len →
      (runBits (cleaning ascending lo len) b (lo + half len + i) = (!ascending) ↔
        b (lo + i) = (!ascending) ∧ b (lo + half len + i) = !ascending) := by
  have hle := le_two_mul_half len
  have hmem : ∀ i, ⟨lo + i, lo + i + half len, ascending⟩ ∈ cleaning ascending lo len ↔
      half len + i < len := by
    intro i
    simp only [cleaning, List.mem_map, List.mem_range'_1, Comparator.mk.injEq]
    constructor
    · rintro ⟨j, hj, hji, -, -⟩
      omega
    · intro hi
      exact ⟨lo + i, by omega, rfl, rfl, trivial⟩
  have hpar := fun i (hi : i < half len) =>
    runBits_parallel (cleaning ascending lo len) (half len) (· < lo + half len) ascending (by
      intro c hc
      simp only [cleaning, List.mem_map, List.mem_range'_1] at hc
      obtain ⟨j, hj, rfl⟩ := hc
      simp only [true_and]
      omega) b (lo + i) (by omega) (by omega)
  refine ⟨fun i hi => ?_, fun i hi => ?_⟩
  · rw [(hpar i hi).1]
    by_cases h : half len + i < len
    · rw [if_pos ((hmem i).2 h), Nat.add_right_comm lo i]
      simp only [h, true_and, lowBit]
      cases ascending <;> simp [or_iff_not_imp_left]
    · rw [if_neg (mt (hmem i).1 h)]
      simp [h]
  · have := (hpar i (by omega)).2
    rw [if_pos ((hmem i).2 hi), Nat.add_right_comm lo i] at this
    rw [this]
    cases ascending <;> simp [highBit, lowBit]

/-- Both parts of a window can be merged on their own, and one of them is uniform. -/
def Split (b : Nat → Bool) (ascending : Bool) (lo len : Nat) : Prop :=
  Bitonic b ascending lo (half len) ∧ Bitonic b ascending (lo + half len) (len - half len) ∧
    ((∀ i < half len, b (lo + i) = !ascending) ∨
      ∀ i < len - half len, ¬b (lo + half len + i) = !ascending)

section Cleaning

variable (ascending : Bool) (lo len : Nat) (b : Nat → Bool) (hlen : 1 < len)
include hlen

theorem split_of_front {l h : Nat} (hh : h ≤ len)
    (hrun : ∀ i < len, b (lo + i) = (!ascending) ↔ l ≤ i ∧ i < h) :
    Split (runBits (cleaning ascending lo len) b) ascending lo len := by
  obtain ⟨hlow, hhigh⟩ := runBits_cleaning ascending lo len b
  have hlt := half_lt hlen
  have hle := le_two_mul_half len
  have hlow' : ∀ i < half len, runBits (cleaning ascending lo len) b (lo + i) = (!ascending) ↔
      l ≤ i ∧ i < h ∨ l ≤ half len + i ∧ half len + i < h := by
    intro i hi
    rw [hlow i hi, hrun i (by omega), Nat.add_assoc]
    by_cases hin : half len + i < len
    · rw [hrun _ hin]
      simp [hin]
    · simp only [hin, false_and, or_false]
      omega
  have hhigh' : ∀ i < len - half len,
      runBits (cleaning ascending lo len) b (lo + half len + i) = (!ascending) ↔
        l ≤ i ∧ i < h - half len := by
    intro i hi
    rw [hhigh i (by omega), hrun i (by omega), Nat.add_assoc, hrun _ (by omega)]
    omega
  refine ⟨?_, .inl ⟨l, h - half len, by omega, hhigh'⟩, ?_⟩
  · by_cases h₁ : h ≤ half len
    · exact .inl ⟨l, h, h₁, fun i hi => by rw [hlow' i hi]; omega⟩
    by_cases h₂ : half len ≤ l
    · exact .inl ⟨l - half len, h - half len, by omega, fun i hi => by rw [hlow' i hi]; omega⟩
    by_cases h₃ : l ≤ h - half len
    · exact .inl ⟨0, half len, Nat.le_refl _, fun i hi => by rw [hlow' i hi]; omega⟩
    · exact .inr ⟨⟨_, rfl⟩, oneRun_not (h - half len) l (by omega) fun i hi => by
        rw [hlow' i hi]; omega⟩
  · by_cases h₁ : l < h - half len
    · exact .inl fun i hi => (hlow' i hi).2 (by omega)
    · exact .inr fun i hi => mt (hhigh' i hi).1 (by omega)

theorem split_of_back (hhalf : len = 2 * half len) {l h : Nat} (hh : h ≤ len)
    (hrun : ∀ i < len, b (lo + i) = (!ascending) ↔ ¬(l ≤ i ∧ i < h)) :
    Split (runBits (cleaning ascending lo len) b) ascending lo len := by
  obtain ⟨hlow, hhigh⟩ := runBits_cleaning ascending lo len b
  have hlow' : ∀ i < half len, runBits (cleaning ascending lo len) b (lo + i) = (!ascending) ↔
      ¬(l ≤ i ∧ i < h - half len) := by
    intro i hi
    rw [hlow i hi, hrun i (by omega), Nat.add_assoc, hrun _ (by omega)]
    omega
  have hhigh' : ∀ i < len - half len,
      runBits (cleaning ascending lo len) b (lo + half len + i) = (!ascending) ↔
        ¬(l ≤ i ∧ i < h ∨ l ≤ half len + i ∧ half len + i < h) := by
    intro i hi
    rw [hhigh i (by omega), hrun i (by omega), Nat.add_assoc, hrun _ (by omega)]
    omega
  have hpow : ∃ a, len - half len = 2 ^ a := ⟨(len - 1).log2, by rw [← half]; omega⟩
  refine ⟨.inr ⟨⟨_, rfl⟩, oneRun_not l (h - half len) (by omega) hlow'⟩, ?_, ?_⟩
  · by_cases h₁ : h ≤ half len
    · exact .inr ⟨hpow, oneRun_not l h (by omega) fun i hi => by rw [hhigh' i hi]; omega⟩
    by_cases h₂ : half len ≤ l
    · exact .inr ⟨hpow, oneRun_not (l - half len) (h - half len) (by omega) fun i hi => by
        rw [hhigh' i hi]; omega⟩
    by_cases h₃ : l ≤ h - half len
    · exact .inr ⟨hpow, oneRun_not 0 (len - half len) (Nat.le_refl _) fun i hi => by
        rw [hhigh' i hi]; omega⟩
    · exact .inl ⟨h - half len, l, by omega, fun i hi => by rw [hhigh' i hi]; omega⟩
  · by_cases h₁ : l < h - half len
    · exact .inr fun i hi => mt (hhigh' i hi).1 (by omega)
    · exact .inl fun i hi => (hlow' i hi).2 (by omega)

theorem cleaning_splits (hb : Bitonic b ascending lo len) :
    Split (runBits (cleaning ascending lo len) b) ascending lo len := by
  obtain ⟨l, h, hh, hrun⟩ | ⟨⟨a, ha⟩, l, h, hh, hrun⟩ := hb
  · exact split_of_front ascending lo len b hlen hh hrun
  · have hhalf : len = 2 * half len := by
      cases a with
      | zero => simp [ha] at hlen
      | succ a => rw [ha, half_two_pow, Nat.pow_succ, Nat.mul_comm]
    apply split_of_back ascending lo len b hlen hhalf hh
    intro i hi
    rw [← hrun i hi, Bool.eq_not]

end Cleaning

def InFront (b : Nat → Bool) (ascending : Bool) (lo len : Nat) : Prop :=
  ∃ count, ∀ i < len, b (lo + i) = (!ascending) ↔ i < count

theorem InFront.congr {b b' : Nat → Bool} {ascending : Bool} {lo len : Nat}
    (h : InFront b ascending lo len) (hb : ∀ i < len, b' (lo + i) = b (lo + i)) :
    InFront b' ascending lo len := by
  obtain ⟨count, hcount⟩ := h
  exact ⟨count, fun i hi => by rw [hb i hi, hcount i hi]⟩

theorem InFront.join {b : Nat → Bool} {ascending : Bool} {lo m n : Nat}
    (hlow : InFront b ascending lo m) (hhigh : InFront b ascending (lo + m) n)
    (hsides : (∀ i < m, b (lo + i) = !ascending) ∨ ∀ i < n, ¬b (lo + m + i) = !ascending) :
    InFront b ascending lo (m + n) := by
  obtain ⟨j, hj⟩ := hlow
  obtain ⟨k, hk⟩ := hhigh
  obtain hall | hnone := hsides
  · refine ⟨m + k, fun i hi => ?_⟩
    by_cases h : i < m
    · simp only [hall i h, true_iff]
      omega
    · obtain ⟨d, rfl⟩ := Nat.exists_eq_add_of_le (Nat.not_lt.1 h)
      rw [← Nat.add_assoc, hk d (by omega)]
      omega
  · refine ⟨min j m, fun i hi => ?_⟩
    by_cases h : i < m
    · rw [hj i h]
      omega
    · obtain ⟨d, rfl⟩ := Nat.exists_eq_add_of_le (Nat.not_lt.1 h)
      rw [← Nat.add_assoc]
      simp only [hnone d (by omega), false_iff]
      omega

theorem inFront_of_le_one (b : Nat → Bool) (ascending : Bool) (lo len : Nat) (hlen : len ≤ 1) :
    InFront b ascending lo len := by
  refine ⟨if b lo = !ascending then 1 else 0, fun i hi => ?_⟩
  obtain rfl : i = 0 := by omega
  split <;> simp_all

theorem runBits_merging_const (ascending : Bool) (lo len : Nat) (b : Nat → Bool) (x : Bool)
    (hb : ∀ i < len, b (lo + i) = x) (i : Nat) (hi : i < len) :
    runBits (merging ascending lo len) b (lo + i) = x := by
  apply runBits_const (merging ascending lo len) b (fun j => lo ≤ j ∧ j < lo + len) x
  · intro c hc
    have := merging_bounds _ _ _ c hc
    omega
  · intro j hj
    obtain ⟨d, rfl⟩ := Nat.exists_eq_add_of_le hj.1
    exact hb d (by omega)
  · omega

theorem runBits_merging (ascending : Bool) (lo len : Nat) (b : Nat → Bool)
    (hb : Bitonic b ascending lo len) :
    InFront (runBits (merging ascending lo len) b) ascending lo len := by
  induction len using Nat.strongRecOn generalizing lo b with
  | ind len ih =>
    rw [merging]
    by_cases hlen : 1 < len
    · simp only [hlen, ↓reduceIte, runBits_append]
      have hlt := half_lt hlen
      have hpos := half_pos len
      obtain ⟨hlow, hhigh, hsides⟩ := cleaning_splits ascending lo len b hlen hb
      generalize runBits (cleaning ascending lo len) b = b₁ at hlow hhigh hsides ⊢
      -- Each half is merged on its own, and the other one keeps its bits.
      have hupper : ∀ i, runBits (merging ascending lo (half len)) b₁ (lo + half len + i) =
          b₁ (lo + half len + i) := fun i => runBits_frame _ _ _ fun c hc => by
        have := merging_bounds _ _ _ c hc
        omega
      have hfirst := ih _ hlt lo b₁ hlow
      have hconst := runBits_merging_const ascending lo (half len) b₁ (!ascending)
      generalize runBits (merging ascending lo (half len)) b₁ = b₂ at hupper hfirst hconst ⊢
      have hlower : ∀ i < half len,
          runBits (merging ascending (lo + half len) (len - half len)) b₂ (lo + i) = b₂ (lo + i) :=
        fun i hi => runBits_frame _ _ _ fun c hc => by
          have := merging_bounds _ _ _ c hc
          omega
      have hsecond := ih _ (by omega) (lo + half len) b₂ (hhigh.congr fun i _ => hupper i)
      have hconst' := runBits_merging_const ascending (lo + half len) (len - half len) b₂ ascending
      have hjoin := (hfirst.congr hlower).join hsecond
      rw [Nat.add_sub_cancel' (Nat.le_of_lt hlt)] at hjoin
      apply hjoin
      obtain hall | hnone := hsides
      · exact .inl fun i hi => by rw [hlower i hi, hconst hall i hi]
      · refine .inr fun i hi => ?_
        have hsame := hconst' (fun j hj => by
          have := hnone j hj
          rw [hupper j]
          simpa using this) i hi
        rw [hsame]
        exact (Bool.eq_not_self _).1
    · simp only [hlen, ↓reduceIte, runBits_nil]
      exact inFront_of_le_one b ascending lo len (Nat.not_lt.1 hlen)

theorem runBits_bitonicSchedule (ascending : Bool) (lo len : Nat) (b : Nat → Bool) :
    InFront (runBits (bitonicSchedule ascending lo len) b) ascending lo len := by
  induction len using Nat.strongRecOn generalizing ascending lo b with
  | ind len ih =>
    rw [bitonicSchedule]
    by_cases hlen : 1 < len
    · simp only [hlen, ↓reduceIte, runBits_append]
      apply runBits_merging
      obtain ⟨m, hm⟩ := ih (len / 2) (by omega) (!ascending) lo b
      generalize runBits (bitonicSchedule (!ascending) lo (len / 2)) b = b₁ at hm ⊢
      obtain ⟨k, hk⟩ := ih (len - len / 2) (by omega) ascending (lo + len / 2) b₁
      have hkeep : ∀ i < len / 2,
          runBits (bitonicSchedule ascending (lo + len / 2) (len - len / 2)) b₁ (lo + i) =
            b₁ (lo + i) := fun i hi => runBits_frame _ _ _ fun c hc => by
        have := bitonicSchedule_bounds _ _ _ c hc
        omega
      -- The front bits end the lower half and begin the upper one.
      refine .inl ⟨min m (len / 2), min (len / 2 + k) len, by omega, fun i hi => ?_⟩
      by_cases h : i < len / 2
      · rw [hkeep i h]
        have : b₁ (lo + i) = (!ascending) ↔ ¬i < m := by
          rw [← hm i h, Bool.not_not]
          cases b₁ (lo + i) <;> cases ascending <;> simp
        rw [this]
        omega
      · obtain ⟨d, rfl⟩ := Nat.exists_eq_add_of_le (Nat.not_lt.1 h)
        rw [← Nat.add_assoc, hk d (by omega)]
        omega
    · simp only [hlen, ↓reduceIte, runBits_nil]
      exact inFront_of_le_one b ascending lo len (Nat.not_lt.1 hlen)

end ObliviousRam.SortNetwork
