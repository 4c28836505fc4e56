import Mathlib.Order.Interval.Finset.Nat
import ObliviousRam.Proofs.Stash.Arrangement
import ObliviousRam.Proofs.Tree.Bounds

namespace ObliviousRam.Stash

variable {w : Nat}

/-- A way to send blocks to the levels of a path or to none. No level gets more of them than a bucket
holds, and each only gets blocks whose positions its node stands over. -/
structure Placement (p : Path) (blocks : List (Block w)) (placed : List (Block w × Option Nat)) :
    Prop where
  perm : (placed.map Prod.fst).Perm blocks
  room : ∀ l, share placed l ≤ Bucket.capacity
  routed : ∀ e ∈ placed, ∀ l, e.2 = some l →
    ∃ node, p.nodes[l]? = some node ∧ Node.Encloses node e.1.position

def leftOver (placed : List (Block w × Option Nat)) : Nat := placed.countP fun e => e.2.isNone

/-- No block could move down. The levels below its own that could take it are full, and so are all
levels that could take a block without one. -/
def Leafmost (p : Path) (placed : List (Block w × Option Nat)) : Prop :=
  ∀ e ∈ placed, ∀ (k : Nat) (node : Word), (∀ l, e.2 = some l → k < l) → p.nodes[k]? = some node →
    Node.Encloses node e.1.position → share placed k = Bucket.capacity

def rises (k : Nat) (e : Block w × Option Nat) : Bool := e.2.all (k ≤ ·)

theorem rises_iff {k : Nat} {e : Block w × Option Nat} :
    rises k e = true ↔ ∀ l, e.2 = some l → k ≤ l := by
  rw [rises]
  cases e.2 <;> simp

theorem countP_rises (placed : List (Block w × Option Nat)) (k levels : Nat)
    (h : ∀ e ∈ placed, ∀ l, e.2 = some l → l < levels) :
    placed.countP (rises k) = leftOver placed + ∑ l ∈ Finset.Ico k levels, share placed l := by
  induction placed with
  | nil => simp [leftOver, share]
  | cons e rest ih =>
    have hrest := ih fun d hd => h d (by simp [hd])
    rw [leftOver] at hrest ⊢
    rw [share_cons, Finset.sum_add_distrib, List.countP_cons, List.countP_cons, hrest]
    cases he : e.2 with
    | none => simp [rises, he, unit]; omega
    | some l =>
      have hl := h e (by simp) l he
      by_cases hk : k ≤ l
      · simp [rises, he, unit, Finset.sum_ite_eq, hk, hl]; omega
      · simp [rises, he, unit, Finset.sum_ite_eq, hk]

section Path

variable {p : Path} {blocks : List (Block w)} {placed other : List (Block w × Option Nat)}

theorem Placement.lt_length (h : Placement p blocks placed) :
    ∀ e ∈ placed, ∀ l, e.2 = some l → l < p.length := by
  intro e he l hl
  obtain ⟨node, hnode, -⟩ := h.routed e he l hl
  exact (List.getElem?_eq_some_iff.1 hnode).1

theorem exists_full_above (placed : List (Block w × Option Nat)) (levels : Nat) :
    ∃ k ≤ levels, (∀ l, k ≤ l → l < levels → share placed l = Bucket.capacity) ∧
      ∀ j, k = j + 1 → share placed j ≠ Bucket.capacity := by
  induction levels with
  | zero => exact ⟨0, Nat.le_refl 0, fun l _ hl => absurd hl (Nat.not_lt_zero l), fun j hj => by cases hj⟩
  | succ levels ih =>
    by_cases hfull : share placed levels = Bucket.capacity
    · obtain ⟨k, hk, habove, hbelow⟩ := ih
      refine ⟨k, Nat.le_succ_of_le hk, fun l hkl hl => ?_, hbelow⟩
      obtain rfl | hlt := Nat.eq_or_lt_of_le (Nat.le_of_lt_succ hl)
      · exact hfull
      · exact habove l hkl hlt
    · refine ⟨levels + 1, Nat.le_refl _, fun l hkl hl => absurd hl (Nat.not_lt.2 hkl), fun j hj => ?_⟩
      cases hj
      exact hfull

def Barred (p : Path) (k : Nat) (position : Word) : Prop :=
  ∀ l < k, ∀ node, p.nodes[l]? = some node → ¬Node.Encloses node position

theorem Placement.rises_of_barred (h : Placement p blocks placed) {k : Nat} {e : Block w × Option Nat}
    (he : e ∈ placed) (hbarred : Barred p k e.1.position) : rises k e = true := by
  rw [rises_iff]
  intro l hl
  by_contra hlt
  obtain ⟨node, hnode, hencloses⟩ := h.routed e he l hl
  exact hbarred l (Nat.not_le.1 hlt) node hnode hencloses

/-- A block that stays out of the lowest levels cannot go to any of them, if the highest of these has
room. -/
theorem Leafmost.barred_of_rises {leaf root : Word} (hpath : Path.between leaf root = .ok p)
    (h : Leafmost p placed) {k : Nat} (hk : k ≤ p.length)
    (hroom : ∀ j, k = j + 1 → share placed j ≠ Bucket.capacity) {e : Block w × Option Nat}
    (he : e ∈ placed) (hrises : rises k e = true) : Barred p k e.1.position := by
  intro l hl node hnode hencloses
  obtain ⟨j, rfl⟩ := Nat.exists_eq_add_of_le' (Nat.zero_lt_of_lt hl)
  have hj := List.getElem?_eq_getElem (l := p.nodes) (i := j) hk
  refine hroom j rfl (h e he j _ (fun m hm => rises_iff.1 hrises m hm) hj ?_)
  exact Path.encloses_of_le hpath (Nat.le_of_lt_succ hl) hnode hj hencloses

open Classical in
/-- If each block lies as far down as there is room, then no other way leaves fewer blocks over. The
blocks above the highest level with room can go to no other level, whichever way is taken. -/
theorem Leafmost.leftOver_le {leaf root : Word} (hpath : Path.between leaf root = .ok p)
    (hplaced : Placement p blocks placed) (hleafmost : Leafmost p placed)
    (hother : Placement p blocks other) : leftOver placed ≤ leftOver other := by
  obtain ⟨k, hk, hfull, hroom⟩ := exists_full_above placed p.length
  have hsame : placed.countP (fun e => Barred p k e.1.position) =
      other.countP fun e => Barred p k e.1.position := by
    have h := (hplaced.perm.trans hother.perm.symm).countP_eq fun b => Barred p k b.position
    rwa [List.countP_map, List.countP_map] at h
  have hshare : ∑ l ∈ Finset.Ico k p.length, share other l ≤
      ∑ l ∈ Finset.Ico k p.length, share placed l := by
    apply Finset.sum_le_sum
    intro l hl
    rw [Finset.mem_Ico] at hl
    rw [hfull l hl.1 hl.2]
    exact hother.room l
  have hcount : leftOver placed + ∑ l ∈ Finset.Ico k p.length, share placed l ≤
      leftOver other + ∑ l ∈ Finset.Ico k p.length, share other l := by
    calc leftOver placed + ∑ l ∈ Finset.Ico k p.length, share placed l
      _ = placed.countP (rises k) := (countP_rises placed k _ hplaced.lt_length).symm
      _ ≤ placed.countP fun e => Barred p k e.1.position := List.countP_mono_left fun e he hrises =>
        decide_eq_true (hleafmost.barred_of_rises hpath hk hroom he hrises)
      _ = other.countP fun e => Barred p k e.1.position := hsame
      _ ≤ other.countP (rises k) := List.countP_mono_left fun e he hbarred =>
        hother.rises_of_barred he (of_decide_eq_true hbarred)
      _ = _ := countP_rises other k _ hother.lt_length
  omega

end Path

end ObliviousRam.Stash
