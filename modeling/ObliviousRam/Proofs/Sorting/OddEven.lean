import Mathlib.Tactic.Ring
import ObliviousRam.Proofs.Sorting.ZeroOne

/- In a pass over distances of `2 ^ d` the row is read as a table with lines of `2 ^ d` bits, and the
lines of a block of `2 ^ (e + 1)` bits are compared with one another. -/
namespace ObliviousRam.SortNetwork

theorem mem_progression (start stop step j : Nat) (hstep : 0 < step) :
    j ∈ progression start stop step ↔ ∃ t, j = start + step * t ∧ j < stop := by
  rw [progression, List.mem_range']
  constructor
  · rintro ⟨t, ht, rfl⟩
    rw [lt_ceilDiv _ _ _ hstep] at ht
    exact ⟨t, rfl, by omega⟩
  · rintro ⟨t, rfl, ht⟩
    exact ⟨t, (lt_ceilDiv _ _ _ hstep).2 (by omega), rfl⟩

def parity (e d : Nat) : Nat := if d = e then 0 else 1

theorem two_pow_mod (e d : Nat) (hd : d ≤ e) : 2 ^ d % 2 ^ e = parity e d * 2 ^ d := by
  by_cases h : d = e
  · simp [parity, h]
  · have hlt : 2 ^ d < 2 ^ e := Nat.pow_lt_pow_right (by decide) (by omega)
    simp [parity, h, Nat.mod_eq_of_lt hlt]

theorem mem_passSchedule (n e d : Nat) (hd : d ≤ e) (c : Comparator) :
    c ∈ passSchedule n (2 ^ e) (2 ^ d) ↔
      c.high = c.low + 2 ^ d ∧ c.ascending = true ∧ c.high < n ∧
        c.low / 2 ^ d % 2 = parity e d ∧ c.low / 2 ^ (e + 1) = c.high / 2 ^ (e + 1) := by
  have hk := Nat.two_pow_pos d
  have hblock : 2 * 2 ^ e = 2 ^ (e + 1) := by rw [Nat.pow_succ, Nat.mul_comm]
  have hpar : parity e d < 2 := by rw [parity]; split <;> decide
  simp only [passSchedule, List.mem_flatMap, List.mem_map, List.mem_filter, List.mem_range,
    decide_eq_true_eq, two_pow_mod e d hd, hblock]
  constructor
  · rintro ⟨j, hj, i, ⟨hi, hsame⟩, rfl⟩
    rw [mem_progression _ _ _ _ (by omega)] at hj
    obtain ⟨t, rfl, hj⟩ := hj
    dsimp only at hsame ⊢
    refine ⟨rfl, rfl, by omega, ?_, hsame⟩
    have hline : i + (parity e d * 2 ^ d + 2 * 2 ^ d * t) =
        i + (2 * t + parity e d) * 2 ^ d := by
      rw [Nat.add_mul, Nat.mul_right_comm, Nat.add_comm (2 * t * 2 ^ d)]
    rw [hline, Nat.add_mul_div_right _ _ hk, Nat.div_eq_of_lt (by omega)]
    omega
  · obtain ⟨x, y, a⟩ := c
    dsimp only
    rintro ⟨rfl, rfl, hn, hx, hsame⟩
    have hdiv := Nat.div_add_mod' x (2 ^ d)
    have hmod := Nat.mod_lt x hk
    have hline : x / 2 ^ d = 2 * (x / 2 ^ d / 2) + parity e d := by omega
    have hj : x / 2 ^ d * 2 ^ d = parity e d * 2 ^ d + 2 * 2 ^ d * (x / 2 ^ d / 2) := by
      conv_lhs => rw [hline]
      rw [Nat.add_mul, Nat.mul_right_comm, Nat.add_comm]
    have hx : x % 2 ^ d + x / 2 ^ d * 2 ^ d = x := by omega
    refine ⟨x / 2 ^ d * 2 ^ d, ?_, x % 2 ^ d, ⟨by omega, ?_⟩, ?_⟩
    · rw [mem_progression _ _ _ _ (by omega)]
      exact ⟨_, hj, by omega⟩
    · rw [hx, hsame]
    · rw [hx]

theorem oddEvenSchedule_bounds (n : Nat) (c : Comparator) (hc : c ∈ oddEvenSchedule n) :
    c.low < c.high ∧ c.high < n := by
  simp only [oddEvenSchedule, phaseSchedule, List.mem_flatMap, List.mem_reverse,
    List.mem_range] at hc
  obtain ⟨e, -, d, hd, hc⟩ := hc
  obtain ⟨hhigh, -, hn, -⟩ := (mem_passSchedule n e d (by omega) c).1 hc
  have := Nat.two_pow_pos d
  omega

theorem oddEvenSchedule_ascending (n : Nat) (c : Comparator) (hc : c ∈ oddEvenSchedule n) :
    c.ascending = true := by
  simp only [oddEvenSchedule, phaseSchedule, List.mem_flatMap, List.mem_reverse,
    List.mem_range] at hc
  obtain ⟨e, -, d, hd, hc⟩ := hc
  exact ((mem_passSchedule n e d (by omega) c).1 hc).2.1

/-- Whether line `y` of a table is compared with the next one. -/
def Joined (e d y : Nat) : Prop := y % 2 = parity e d ∧ (y + 1) % 2 ^ (e + 1 - d) ≠ 0

theorem line_div (k y c : Nat) (hc : c < k) : (y * k + c) / k = y := by
  rw [Nat.mul_comm, Nat.mul_add_div (by omega), Nat.div_eq_of_lt hc, Nat.add_zero]

theorem div_eq_succ_div (y size : Nat) (hsize : 0 < size) :
    y / size = (y + 1) / size ↔ (y + 1) % size ≠ 0 := by
  have h₁ := Nat.div_add_mod y size
  have h₂ := Nat.div_add_mod (y + 1) size
  have hlt := Nat.mod_lt y hsize
  constructor
  · intro h hz
    rw [h] at h₁
    omega
  · intro hz
    by_contra hne
    have hle := Nat.div_le_div_right (c := size) (Nat.le_add_right y 1)
    have hnext : y / size + 1 ≤ (y + 1) / size := by omega
    have := Nat.mul_le_mul_left size hnext
    rw [Nat.mul_add, Nat.mul_one] at this
    omega

theorem joined_of_mem (n e d : Nat) (hd : d ≤ e) (c : Comparator)
    (hc : c ∈ passSchedule n (2 ^ e) (2 ^ d)) : Joined e d (c.low / 2 ^ d) := by
  obtain ⟨hhigh, -, -, hpar, hsame⟩ := (mem_passSchedule n e d hd c).1 hc
  have hsplit : 2 ^ (e + 1) = 2 ^ d * 2 ^ (e + 1 - d) := by
    rw [← Nat.pow_add, Nat.add_sub_cancel' (by omega)]
  rw [hhigh, hsplit, ← Nat.div_div_eq_div_mul, ← Nat.div_div_eq_div_mul,
    Nat.add_div_right _ (Nat.two_pow_pos d)] at hsame
  exact ⟨hpar, (div_eq_succ_div _ _ (Nat.two_pow_pos _)).1 hsame⟩

theorem not_joined_succ (e d y : Nat) (h : Joined e d y) : ¬Joined e d (y + 1) := by
  rintro ⟨h', -⟩
  have := h.1
  omega

section Pass

variable (n e d : Nat) (hd : d ≤ e) (b : Nat → Bool)
include hd

theorem runBits_pass_pad (hpad : ∀ i, n ≤ i → b i = true) (i : Nat) (hi : n ≤ i) :
    runBits (passSchedule n (2 ^ e) (2 ^ d)) b i = true := by
  rw [← hpad i hi]
  apply runBits_frame
  intro c hc
  obtain ⟨hhigh, -, hn, -⟩ := (mem_passSchedule n e d hd c).1 hc
  have := Nat.two_pow_pos d
  omega

theorem runBits_pass_joined (hpad : ∀ i, n ≤ i → b i = true) (y c : Nat) (hc : c < 2 ^ d)
    (hy : Joined e d y) :
    runBits (passSchedule n (2 ^ e) (2 ^ d)) b (y * 2 ^ d + c) =
      (b (y * 2 ^ d + c) && b ((y + 1) * 2 ^ d + c)) ∧
    runBits (passSchedule n (2 ^ e) (2 ^ d)) b ((y + 1) * 2 ^ d + c) =
      (b (y * 2 ^ d + c) || b ((y + 1) * 2 ^ d + c)) := by
  have hk := Nat.two_pow_pos d
  have hnext : (y + 1) * 2 ^ d + c = y * 2 ^ d + c + 2 ^ d := by
    rw [Nat.add_mul, Nat.one_mul, Nat.add_right_comm]
  have hpar := runBits_parallel (passSchedule n (2 ^ e) (2 ^ d)) (2 ^ d)
    (fun x => Joined e d (x / 2 ^ d)) true (fun c hc => by
      obtain ⟨hhigh, hasc, -⟩ := (mem_passSchedule n e d hd c).1 hc
      have hjoin := joined_of_mem n e d hd c hc
      refine ⟨hhigh, hasc, hjoin, ?_⟩
      rw [hhigh, Nat.add_div_right _ hk]
      exact not_joined_succ _ _ _ hjoin) b (y * 2 ^ d + c)
    (by rwa [line_div _ _ _ hc])
    (by rw [Nat.add_div_right _ hk, line_div _ _ _ hc]; exact not_joined_succ _ _ _ hy)
  rw [hnext, hpar.1, hpar.2]
  by_cases hn : y * 2 ^ d + c + 2 ^ d < n
  · have hmem : (⟨y * 2 ^ d + c, y * 2 ^ d + c + 2 ^ d, true⟩ : Comparator) ∈
        passSchedule n (2 ^ e) (2 ^ d) := by
      rw [mem_passSchedule n e d hd]
      have hsplit : 2 ^ (e + 1) = 2 ^ d * 2 ^ (e + 1 - d) := by
        rw [← Nat.pow_add, Nat.add_sub_cancel' (by omega)]
      refine ⟨rfl, rfl, hn, by rw [line_div _ _ _ hc]; exact hy.1, ?_⟩
      rw [hsplit, ← Nat.div_div_eq_div_mul, ← Nat.div_div_eq_div_mul, Nat.add_div_right _ hk,
        line_div _ _ _ hc]
      exact (div_eq_succ_div _ _ (Nat.two_pow_pos _)).2 hy.2
    simp [hmem, lowBit, highBit]
  · -- The partner lies beyond the entries. It is true, as if it had been compared.
    have htrue := hpad _ (Nat.not_lt.1 hn)
    split <;> simp [lowBit, highBit, htrue]

theorem runBits_pass_apart (y c : Nat) (hc : c < 2 ^ d) (hy : ¬Joined e d y)
    (hpred : ∀ x, y = x + 1 → ¬Joined e d x) :
    runBits (passSchedule n (2 ^ e) (2 ^ d)) b (y * 2 ^ d + c) = b (y * 2 ^ d + c) := by
  apply runBits_frame
  intro a ha
  obtain ⟨hhigh, -⟩ := (mem_passSchedule n e d hd a).1 ha
  have hjoin := joined_of_mem n e d hd a ha
  constructor
  · intro h
    rw [← h, line_div _ _ _ hc] at hjoin
    exact hy hjoin
  · intro h
    apply hpred (a.low / 2 ^ d) _ hjoin
    rw [← Nat.add_div_right _ (Nat.two_pow_pos d), ← hhigh, ← h, line_div _ _ _ hc]

end Pass

def Blocks (b : Nat → Bool) (len : Nat) : Prop :=
  ∀ q, ∃ zeros, ∀ i < len, b (q * len + i) = false ↔ i < zeros

/-- In block `q` of `2 ^ (e + 1)` bits every column of the table is in order. From one column to the
next the number of zeros does not grow, and it falls by at most two from the first to the last. -/
structure Columns (b : Nat → Bool) (e d q : Nat) (zeros : Nat → Nat) : Prop where
  bound : ∀ c < 2 ^ d, zeros c ≤ 2 ^ (e + 1 - d)
  antitone : ∀ c c', c ≤ c' → c' < 2 ^ d → zeros c' ≤ zeros c
  fall : zeros 0 ≤ zeros (2 ^ d - 1) + 2
  column : ∀ c < 2 ^ d, ∀ r < 2 ^ (e + 1 - d),
    b ((q * 2 ^ (e + 1 - d) + r) * 2 ^ d + c) = false ↔ r < zeros c

def Combed (b : Nat → Bool) (e d : Nat) : Prop := ∀ q, ∃ zeros, Columns b e d q zeros

theorem combed_of_blocks (n e : Nat) (b : Nat → Bool) (hpad : ∀ i, n ≤ i → b i = true)
    (hb : Blocks b (2 ^ e)) :
    Combed (runBits (passSchedule n (2 ^ e) (2 ^ e)) b) e e := by
  intro q
  have htwo : 2 ^ (e + 1 - e) = 2 := by rw [Nat.add_sub_cancel_left, Nat.pow_one]
  obtain ⟨z, hz⟩ := hb (q * 2)
  obtain ⟨z', hz'⟩ := hb (q * 2 + 1)
  refine ⟨fun c => (if c < z then 1 else 0) + if c < z' then 1 else 0, ?_, ?_, ?_, ?_⟩
  · intro c _
    rw [htwo]
    split <;> split <;> omega
  · intro c c' hle _
    split <;> split <;> split <;> split <;> omega
  · split <;> split <;> split <;> split <;> omega
  · intro c hc r hr
    rw [htwo] at hr ⊢
    have hjoin : Joined e e (q * 2) := by
      refine ⟨by simp [parity], ?_⟩
      rw [htwo]
      omega
    obtain ⟨hlow, hhigh⟩ := runBits_pass_joined n e e (Nat.le_refl e) b hpad (q * 2) c hc hjoin
    have h := hz c hc
    have h' := hz' c hc
    obtain rfl | rfl : r = 0 ∨ r = 1 := by omega
    · rw [Nat.add_zero, hlow, Bool.and_eq_false_iff, h, h']
      split <;> split <;> omega
    · rw [hhigh, Bool.or_eq_false_iff, h, h']
      split <;> split <;> omega

section Halving

variable {n e d q : Nat} {b : Nat → Bool} (hd : d < e)
include hd

theorem two_mul_lines : 2 ^ (e + 1 - d) = 2 * 2 ^ (e + 1 - (d + 1)) := by
  have hsucc : e + 1 - d = e + 1 - (d + 1) + 1 := by omega
  rw [hsucc, Nat.pow_succ, Nat.mul_comm]

theorem parity_of_lt : parity e d = 1 := if_neg (Nat.ne_of_lt hd)

theorem not_joined_first : ¬Joined e d (q * 2 ^ (e + 1 - d)) := by
  rintro ⟨h, -⟩
  rw [parity_of_lt hd, two_mul_lines hd, Nat.mul_left_comm] at h
  omega

omit hd in
theorem not_joined_before (x : Nat) (hx : q * 2 ^ (e + 1 - d) = x + 1) : ¬Joined e d x := by
  rintro ⟨-, h⟩
  rw [← hx, Nat.mul_mod_left] at h
  exact h rfl

theorem joined_odd (s : Nat) (hs : s + 1 < 2 ^ (e + 1 - (d + 1))) :
    Joined e d (q * 2 ^ (e + 1 - d) + 2 * s + 1) := by
  have hlines := two_mul_lines hd
  refine ⟨by rw [parity_of_lt hd, hlines, Nat.mul_left_comm]; omega, ?_⟩
  have hnext : q * 2 ^ (e + 1 - d) + 2 * s + 1 + 1 = 2 * (s + 1) + 2 ^ (e + 1 - d) * q := by ring
  rw [hnext, Nat.add_mul_mod_self_left, Nat.mod_eq_of_lt (by omega)]
  omega

namespace Columns

variable {zeros : Nat → Nat} (h : Columns b e (d + 1) q zeros)
include h

/-- Two columns that lay `2 ^ d` apart become the even and the odd lines of one column: line
`2 * s + r` of it was line `s` of the first one for `r = 0`, and of the second one for `r = 1`. -/
theorem line_eq_false_iff (c : Nat) (hc : c < 2 ^ d) (s : Nat) (hs : s < 2 ^ (e + 1 - (d + 1)))
    (r : Nat) (hr : r < 2) :
    b ((q * 2 ^ (e + 1 - d) + 2 * s + r) * 2 ^ d + c) = false ↔ s < zeros (c + r * 2 ^ d) := by
  have hcell : ∀ t k, (q * (2 * t) + 2 * s + r) * k + c = (q * t + s) * (k * 2) + (c + r * k) := by
    intro t k
    ring
  have hwide : r * 2 ^ d ≤ 1 * 2 ^ d := Nat.mul_le_mul_right _ (Nat.le_of_lt_succ hr)
  rw [← h.column (c + r * 2 ^ d) (by rw [Nat.pow_succ]; omega) s hs, two_mul_lines hd,
    Nat.pow_succ 2 d, hcell]

omit hd in
theorem spread (c : Nat) (hc : c < 2 ^ d) :
    zeros (c + 2 ^ d) ≤ zeros c ∧ zeros c ≤ zeros (c + 2 ^ d) + 2 := by
  have hwide : 2 ^ (d + 1) = 2 ^ d * 2 := Nat.pow_succ 2 d
  have h₁ := h.antitone 0 c (by omega) (by omega)
  have h₂ := h.antitone c (c + 2 ^ d) (by omega) (by omega)
  have h₃ := h.antitone (c + 2 ^ d) (2 ^ (d + 1) - 1) (by omega) (by omega)
  have := h.fall
  omega

theorem pass_even (hpad : ∀ i, n ≤ i → b i = true) (c : Nat) (hc : c < 2 ^ d) (s : Nat)
    (hs : s < 2 ^ (e + 1 - (d + 1))) : runBits (passSchedule n (2 ^ e) (2 ^ d)) b
      ((q * 2 ^ (e + 1 - d) + 2 * s) * 2 ^ d + c) = false ↔ 2 * s < zeros c + zeros (c + 2 ^ d) := by
  have hspread := h.spread c hc
  have heven := h.line_eq_false_iff hd c hc s hs 0 (by omega)
  rw [Nat.zero_mul, Nat.add_zero c, Nat.add_zero] at heven
  cases s with
  | zero =>
    rw [Nat.mul_zero, Nat.add_zero] at heven ⊢
    rw [runBits_pass_apart n e d (Nat.le_of_lt hd) b _ c hc (not_joined_first hd) not_joined_before,
      heven]
    omega
  | succ s =>
    have hpair := (runBits_pass_joined n e d (Nat.le_of_lt hd) b hpad _ c hc
      (joined_odd hd (q := q) s hs)).2
    have hnext : q * 2 ^ (e + 1 - d) + 2 * s + 1 + 1 = q * 2 ^ (e + 1 - d) + 2 * (s + 1) := by ring
    have hodd := h.line_eq_false_iff hd c hc s (by omega) 1 (by omega)
    rw [Nat.one_mul] at hodd
    rw [hnext] at hpair
    rw [hpair, Bool.or_eq_false_iff, hodd, heven]
    omega

theorem pass_odd (hpad : ∀ i, n ≤ i → b i = true) (c : Nat) (hc : c < 2 ^ d) (s : Nat)
    (hs : s < 2 ^ (e + 1 - (d + 1))) : runBits (passSchedule n (2 ^ e) (2 ^ d)) b
      ((q * 2 ^ (e + 1 - d) + 2 * s + 1) * 2 ^ d + c) = false ↔
        2 * s + 1 < zeros c + zeros (c + 2 ^ d) := by
  have hspread := h.spread c hc
  have hbound := h.bound c (by rw [Nat.pow_succ]; omega)
  have hodd := h.line_eq_false_iff hd c hc s hs 1 (by omega)
  rw [Nat.one_mul] at hodd
  by_cases hlast : s + 1 < 2 ^ (e + 1 - (d + 1))
  · have hpair := (runBits_pass_joined n e d (Nat.le_of_lt hd) b hpad _ c hc
      (joined_odd hd (q := q) s hlast)).1
    have hnext : q * 2 ^ (e + 1 - d) + 2 * s + 1 + 1 = q * 2 ^ (e + 1 - d) + 2 * (s + 1) := by ring
    have heven := h.line_eq_false_iff hd c hc (s + 1) hlast 0 (by omega)
    rw [Nat.zero_mul, Nat.add_zero c, Nat.add_zero] at heven
    rw [hnext] at hpair
    rw [hpair, Bool.and_eq_false_iff, hodd, heven]
    omega
  · -- The last line of a block is left alone, and so is the line before it.
    have hnext : q * 2 ^ (e + 1 - d) + 2 * s + 1 + 1 = (q + 1) * 2 ^ (e + 1 - d) := by
      rw [Nat.add_mul, two_mul_lines hd]
      omega
    rw [runBits_pass_apart n e d (Nat.le_of_lt hd) b _ c hc (not_joined_before _ hnext.symm) ?_,
      hodd]
    · omega
    · rintro x hx ⟨hx', -⟩
      rw [parity_of_lt hd] at hx'
      rw [two_mul_lines hd, Nat.mul_left_comm] at hx
      omega

end Columns

theorem combed_pass (hpad : ∀ i, n ≤ i → b i = true) (hb : Combed b e (d + 1)) :
    Combed (runBits (passSchedule n (2 ^ e) (2 ^ d)) b) e d := by
  intro q
  obtain ⟨zeros, h⟩ := hb q
  have hwide : 2 ^ (d + 1) = 2 ^ d * 2 := Nat.pow_succ 2 d
  have hlines := two_mul_lines hd
  refine ⟨fun c => zeros c + zeros (c + 2 ^ d), ?_, ?_, ?_, ?_⟩
  · intro c hc
    have h₁ := h.bound c (by omega)
    have h₂ := h.bound (c + 2 ^ d) (by omega)
    omega
  · intro c c' hle hc'
    have h₁ := h.antitone c c' hle (by omega)
    have h₂ := h.antitone (c + 2 ^ d) (c' + 2 ^ d) (by omega) (by omega)
    omega
  · have hpos := Nat.two_pow_pos d
    have h₁ := h.antitone (2 ^ d - 1) (0 + 2 ^ d) (by omega) (by omega)
    have h₂ := h.fall
    have hlast : 2 ^ d - 1 + 2 ^ d = 2 ^ (d + 1) - 1 := by omega
    rw [hlast]
    omega
  · intro c hc r hr
    obtain ⟨s, rfl | rfl⟩ : ∃ s, r = 2 * s ∨ r = 2 * s + 1 := ⟨r / 2, by omega⟩
    · exact h.pass_even hd hpad c hc s (by omega)
    · exact h.pass_odd hd hpad c hc s (by omega)

end Halving

theorem runBits_passes (n e : Nat) (d : Nat) (hd : d ≤ e) (b : Nat → Bool)
    (hpad : ∀ i, n ≤ i → b i = true) (hb : Combed b e d) :
    Combed (runBits ((List.range d).reverse.flatMap fun d => passSchedule n (2 ^ e) (2 ^ d)) b) e 0
      ∧ ∀ i, n ≤ i →
        runBits ((List.range d).reverse.flatMap fun d => passSchedule n (2 ^ e) (2 ^ d)) b i = true := by
  induction d generalizing b with
  | zero => exact ⟨hb, hpad⟩
  | succ d ih =>
    rw [List.range_succ, List.reverse_concat, List.flatMap_cons, runBits_append]
    exact ih (by omega) _ (runBits_pass_pad n e d (by omega) b hpad)
      (combed_pass hd hpad hb)

theorem runBits_phase (n e : Nat) (b : Nat → Bool) (hpad : ∀ i, n ≤ i → b i = true)
    (hb : Blocks b (2 ^ e)) :
    Blocks (runBits (phaseSchedule n e) b) (2 ^ (e + 1)) ∧
      ∀ i, n ≤ i → runBits (phaseSchedule n e) b i = true := by
  rw [phaseSchedule, List.range_succ, List.reverse_concat, List.flatMap_cons, runBits_append]
  obtain ⟨hcombed, hpad'⟩ := runBits_passes n e e (Nat.le_refl e) _
    (runBits_pass_pad n e e (Nat.le_refl e) b hpad) (combed_of_blocks n e b hpad hb)
  refine ⟨fun q => ?_, hpad'⟩
  obtain ⟨zeros, -, -, -, hcol⟩ := hcombed q
  refine ⟨zeros 0, fun i hi => ?_⟩
  simpa using hcol 0 (by simp) i (by simpa using hi)

theorem runBits_phases (n t : Nat) (b : Nat → Bool) (hpad : ∀ i, n ≤ i → b i = true) :
    Blocks (runBits ((List.range t).flatMap (phaseSchedule n)) b) (2 ^ t) ∧
      ∀ i, n ≤ i → runBits ((List.range t).flatMap (phaseSchedule n)) b i = true := by
  induction t with
  | zero =>
    refine ⟨fun q => ⟨if b q = false then 1 else 0, fun i hi => ?_⟩, hpad⟩
    obtain rfl : i = 0 := by omega
    cases hq : b q <;> simp [hq]
  | succ t ih =>
    rw [List.range_succ, List.flatMap_append, List.flatMap_singleton, runBits_append]
    exact runBits_phase n t _ ih.2 ih.1

theorem sortsBits_oddEvenSchedule (n : Nat) : SortsBits n (oddEvenSchedule n) := by
  intro b hpad i j hij hj hi
  obtain ⟨hblocks, -⟩ := runBits_phases n (ceilLog2 n) b hpad
  obtain ⟨zeros, hz⟩ := hblocks 0
  have hn : n ≤ 2 ^ ceilLog2 n := (ceilLog2_le_iff n _).1 (Nat.le_refl _)
  have hzi := hz i (by omega)
  have hzj := hz j (by omega)
  rw [Nat.zero_mul, Nat.zero_add] at hzi hzj
  rw [oddEvenSchedule] at hi ⊢
  by_contra hfalse
  have := hzi.2 (by have := hzj.1 (by simpa using hfalse); omega)
  simp [this] at hi

end ObliviousRam.SortNetwork
