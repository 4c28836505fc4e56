import Mathlib.Order.Defs.Unbundled
import Mathlib.Tactic.ByContra
import ObliviousRam.Proofs.Sorting.Schedule

/- The 0-1 principle: a network that sorts every row of bits sorts every row. A row of bits has no
end here. What lies beyond the entries that are sorted is true. -/
namespace ObliviousRam.SortNetwork

def lowBit (ascending x y : Bool) : Bool := if ascending then x && y else x || y

def highBit (ascending x y : Bool) : Bool := lowBit (!ascending) x y

namespace Comparator

def onBits (b : Nat → Bool) (c : Comparator) (i : Nat) : Bool :=
  if i = c.low then lowBit c.ascending (b c.low) (b c.high)
  else if i = c.high then highBit c.ascending (b c.low) (b c.high)
  else b i

theorem onBits_low (b : Nat → Bool) (c : Comparator) :
    onBits b c c.low = lowBit c.ascending (b c.low) (b c.high) := by
  simp [onBits]

theorem onBits_high (b : Nat → Bool) (c : Comparator) (h : c.high ≠ c.low) :
    onBits b c c.high = highBit c.ascending (b c.low) (b c.high) := by
  simp [onBits, h]

theorem onBits_of_ne (b : Nat → Bool) (c : Comparator) (i : Nat) (hl : i ≠ c.low)
    (hh : i ≠ c.high) : onBits b c i = b i := by
  simp [onBits, hl, hh]

end Comparator

def runBits (cs : List Comparator) (b : Nat → Bool) : Nat → Bool := cs.foldl Comparator.onBits b

@[simp] theorem runBits_nil (b : Nat → Bool) : runBits [] b = b := rfl

@[simp] theorem runBits_cons (c : Comparator) (cs : List Comparator) (b : Nat → Bool) :
    runBits (c :: cs) b = runBits cs (c.onBits b) := rfl

@[simp] theorem runBits_append (cs ds : List Comparator) (b : Nat → Bool) :
    runBits (cs ++ ds) b = runBits ds (runBits cs b) := by
  simp [runBits]

theorem runBits_frame (cs : List Comparator) (b : Nat → Bool) (i : Nat)
    (h : ∀ c ∈ cs, i ≠ c.low ∧ i ≠ c.high) : runBits cs b i = b i := by
  induction cs generalizing b with
  | nil => rfl
  | cons c cs ih =>
    obtain ⟨hl, hh⟩ := h c (by simp)
    rw [runBits_cons, ih _ fun d hd => h d (by simp [hd]), Comparator.onBits_of_ne b c i hl hh]

theorem runBits_const (cs : List Comparator) (b : Nat → Bool) (region : Nat → Prop) (x : Bool)
    (hcs : ∀ c ∈ cs, region c.low ∧ region c.high) (hb : ∀ i, region i → b i = x) (i : Nat)
    (hi : region i) : runBits cs b i = x := by
  induction cs generalizing b with
  | nil => exact hb i hi
  | cons c cs ih =>
    apply ih _ fun d hd => hcs d (by simp [hd])
    intro j hj
    obtain ⟨hl, hh⟩ := hcs c (by simp)
    cases ha : c.ascending <;> cases x <;>
      simp [Comparator.onBits, lowBit, highBit, ha, hb _ hl, hb _ hh, hb j hj]

/-- Comparators that each join a place of one side to the place `k` further on the other side act as
if they were run at the same time. -/
theorem runBits_parallel (cs : List Comparator) (k : Nat) (side : Nat → Prop) (ascending : Bool)
    (hcs : ∀ c ∈ cs, c.high = c.low + k ∧ c.ascending = ascending ∧ side c.low ∧ ¬side c.high)
    (b : Nat → Bool) (i : Nat) (hi : side i) (hk : ¬side (i + k)) :
    runBits cs b i = (if ⟨i, i + k, ascending⟩ ∈ cs then lowBit ascending (b i) (b (i + k))
      else b i) ∧
    runBits cs b (i + k) = (if ⟨i, i + k, ascending⟩ ∈ cs then
      highBit ascending (b i) (b (i + k)) else b (i + k)) := by
  have hne : i + k ≠ i := fun h => hk (by rwa [h])
  induction cs generalizing b with
  | nil => simp
  | cons c cs ih =>
    obtain ⟨hhigh, hasc, hlow, hside⟩ := hcs c (by simp)
    obtain ⟨ih₁, ih₂⟩ := ih (fun d hd => hcs d (by simp [hd])) (c.onBits b)
    rw [runBits_cons, ih₁, ih₂]
    by_cases hc : c.low = i
    · -- The comparator of this pair is run, and running it again changes nothing.
      have h₁ : c.onBits b i = lowBit ascending (b i) (b (i + k)) := by
        rw [← hc, c.onBits_low, hasc, hhigh]
      have h₂ : c.onBits b (i + k) = highBit ascending (b i) (b (i + k)) := by
        rw [← hc, ← hhigh, c.onBits_high b (by omega), hasc]
      have hc : (⟨i, i + k, ascending⟩ : Comparator) = c := by
        rw [← hc, ← hhigh, ← hasc]
      rw [h₁, h₂, hc]
      cases ascending <;> cases b i <;> cases b (i + k) <;> simp [lowBit, highBit]
    · have hmem : (⟨i, i + k, ascending⟩ : Comparator) ∈ c :: cs ↔ ⟨i, i + k, ascending⟩ ∈ cs := by
        rw [List.mem_cons, or_iff_right]
        rintro rfl
        exact hc rfl
      have h₁ : c.onBits b i = b i :=
        c.onBits_of_ne b i (Ne.symm hc) fun h => hside (h ▸ hi)
      have h₂ : c.onBits b (i + k) = b (i + k) :=
        c.onBits_of_ne b (i + k) (fun h => hk (h ▸ hlow)) (by omega)
      simp only [hmem, h₁, h₂, and_self]

section Threshold

variable {β : Type} {n : Nat} (greater : β → β → Bool)

def Comparator.run (v : Vector β n) (c : Comparator) : Vector β n :=
  Id.run (c.runM (fun a b => pure (greater a b)) v)

theorem Comparator.run_eq (v : Vector β n) (c : Comparator) (hl : c.low < n) (hh : c.high < n) :
    c.run greater v = if greater v[c.low] v[c.high] = c.ascending then v.swap c.low c.high else v := by
  simp only [run, runM, exchange, hl, hh, and_self, ↓reduceDIte]
  rfl

theorem Comparator.run_perm (v : Vector β n) (c : Comparator) :
    (c.run greater v).toList.Perm v.toList := by
  by_cases h : c.low < n ∧ c.high < n
  · rw [run_eq greater v c h.1 h.2]
    split
    · exact Vector.perm_iff_toList_perm.1 (Vector.swap_perm h.1 h.2)
    · exact .rfl
  · simp only [run, runM, exchange, h, ↓reduceDIte]
    exact .rfl

theorem sort_eq_foldl (network : SortNetwork) (v : Vector β n) :
    network.sort greater v = (network.schedule n).foldl (Comparator.run greater) v := by
  rw [sort, sortM_eq_foldlM, List.idRun_foldlM]
  rfl

theorem sort_perm (network : SortNetwork) (v : Vector β n) :
    (network.sort greater v).toList.Perm v.toList := by
  rw [sort_eq_foldl]
  induction network.schedule n generalizing v with
  | nil => exact .rfl
  | cons c cs ih => exact (ih _).trans (c.run_perm greater v)

section Map

variable {γ : Type} {greater} {greater' : γ → γ → Bool} {f : β → γ}
  (h : ∀ a b, greater' (f a) (f b) = greater a b)
include h

theorem Comparator.run_map (v : Vector β n) (c : Comparator) :
    c.run greater' (v.map f) = (c.run greater v).map f := by
  by_cases hc : c.low < n ∧ c.high < n
  · rw [run_eq _ _ _ hc.1 hc.2, run_eq _ _ _ hc.1 hc.2, Vector.getElem_map, Vector.getElem_map, h]
    split
    · apply Vector.ext
      intro i hi
      simp only [Vector.getElem_map, Vector.getElem_swap, apply_ite f]
    · rfl
  · simp only [run, runM, exchange, hc, ↓reduceDIte]
    rfl

/-- Entries are sorted as their images are, if these compare alike. -/
theorem sort_map (network : SortNetwork) (v : Vector β n) :
    network.sort greater' (v.map f) = (network.sort greater v).map f := by
  rw [sort_eq_foldl, sort_eq_foldl]
  induction network.schedule n generalizing v with
  | nil => rfl
  | cons c cs ih => rw [List.foldl_cons, List.foldl_cons, c.run_map h, ih]

theorem toList_sort_map (network : SortNetwork) (l : List β) :
    (network.sort greater' (l.map f).toArray.toVector).toList =
      (network.sort greater l.toArray.toVector).toList.map f := by
  have hall : ∀ {m : Nat} (u : Vector γ m), m = l.toArray.size → u.toList = l.map f →
      (network.sort greater' u).toList = (network.sort greater l.toArray.toVector).toList.map f := by
    intro m u hm hu
    subst hm
    have hmap : u = l.toArray.toVector.map f := by
      apply Vector.toList_inj.1
      rw [hu, Vector.toList_map]
      rfl
    rw [hmap, sort_map h, Vector.toList_map]
  exact hall _ (by simp) rfl

end Map

def threshold (t : β) (v : Vector β n) (i : Nat) : Bool :=
  if h : i < n then greater v[i] t else true

variable {greater}

theorem greater_of_le (order : IsStrictWeakOrder β fun a b => greater a b = true) {a b t : β}
    (hab : greater a b = false) (ha : greater a t = true) : greater b t = true := by
  by_contra hb
  have hba : ¬greater b a = true := fun h => hb (order.trans _ _ _ h ha)
  have htb : ¬greater t b = true := fun h => by simp [order.trans _ _ _ ha h] at hab
  exact (order.incomp_trans a b t ⟨by simp [hab], hba⟩ ⟨hb, htb⟩).1 ha

theorem threshold_run (order : IsStrictWeakOrder β fun a b => greater a b = true) (t : β)
    (v : Vector β n) (c : Comparator) (hlt : c.low < c.high) (hn : c.high < n) :
    threshold greater t (c.run greater v) = c.onBits (threshold greater t v) := by
  funext i
  rw [c.run_eq greater v (by omega) hn]
  have hle : ∀ a b, greater a b = false → greater a t = true → greater b t = true :=
    fun a b => greater_of_le order
  have hasymm : ∀ a b, greater a b = true → greater b a = false := fun a b h => by
    by_contra hb
    exact order.irrefl _ (order.trans _ _ _ h (by simpa using hb))
  have hl : c.low < n := by omega
  have hgl := hle v[c.low] v[c.high]
  have hgh := hle v[c.high] v[c.low]
  have has := hasymm v[c.low] v[c.high]
  by_cases hi : i < n
  · simp only [threshold, Comparator.onBits, lowBit, highBit, hi, hl, hn, ↓reduceDIte]
    by_cases h₁ : i = c.low
    · subst h₁
      cases hg : greater v[c.low] v[c.high] <;> cases c.ascending <;>
        cases hx : greater v[c.low] t <;> cases hy : greater v[c.high] t <;> simp_all
    · by_cases h₂ : i = c.high
      · subst h₂
        cases hg : greater v[c.low] v[c.high] <;> cases c.ascending <;>
          cases hx : greater v[c.low] t <;> cases hy : greater v[c.high] t <;> simp_all
      · split <;> simp [h₁, h₂]
  · simp [threshold, Comparator.onBits, hi, show i ≠ c.low by omega, show i ≠ c.high by omega]

theorem threshold_foldl (order : IsStrictWeakOrder β fun a b => greater a b = true) (t : β)
    (cs : List Comparator) (hcs : ∀ c ∈ cs, c.low < c.high ∧ c.high < n) (v : Vector β n) :
    threshold greater t (cs.foldl (Comparator.run greater) v) =
      runBits cs (threshold greater t v) := by
  induction cs generalizing v with
  | nil => rfl
  | cons c cs ih =>
    obtain ⟨hlt, hn⟩ := hcs c (by simp)
    rw [List.foldl_cons, ih fun d hd => hcs d (by simp [hd]), threshold_run order t v c hlt hn]
    rfl

end Threshold

def SortsBits (n : Nat) (cs : List Comparator) : Prop :=
  ∀ b : Nat → Bool, (∀ i, n ≤ i → b i = true) →
    ∀ i j, i < j → j < n → runBits cs b i = true → runBits cs b j = true

theorem sorted_of_sortsBits {β : Type} {n : Nat} {greater : β → β → Bool}
    (order : IsStrictWeakOrder β fun a b => greater a b = true) (cs : List Comparator)
    (hcs : ∀ c ∈ cs, c.low < c.high ∧ c.high < n) (hsort : SortsBits n cs) (v : Vector β n)
    (i j : Nat) (hij : i < j) (hj : j < n) :
    greater (cs.foldl (Comparator.run greater) v)[i] (cs.foldl (Comparator.run greater) v)[j] =
      false := by
  by_contra hg
  have hi : i < n := by omega
  -- The bits above the entry at `j` would be out of order.
  have hbits := hsort (threshold greater (cs.foldl (Comparator.run greater) v)[j] v)
    (fun k hk => by simp [threshold, Nat.not_lt.2 hk]) i j hij hj
  rw [← threshold_foldl order _ cs hcs] at hbits
  simp only [threshold, hi, hj, ↓reduceDIte] at hbits
  exact order.irrefl _ (hbits (by simpa using hg))

end ObliviousRam.SortNetwork
