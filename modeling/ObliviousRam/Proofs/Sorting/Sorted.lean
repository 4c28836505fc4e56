import ObliviousRam.Proofs.Sorting.Bitonic
import ObliviousRam.Proofs.Sorting.OddEven

namespace ObliviousRam.SortNetwork

theorem schedule_bounds (network : SortNetwork) (n : Nat) (c : Comparator)
    (hc : c ∈ network.schedule n) : c.low < c.high ∧ c.high < n := by
  cases network with
  | bitonic =>
    have := bitonicSchedule_bounds true 0 n c hc
    omega
  | oddEvenMerge => exact oddEvenSchedule_bounds n c hc

theorem sortsBits_bitonicSchedule (n : Nat) : SortsBits n (bitonicSchedule true 0 n) := by
  intro b _ i j hij hj hi
  obtain ⟨count, hcount⟩ := runBits_bitonicSchedule true 0 n b
  have hci := hcount i (by omega)
  have hcj := hcount j hj
  rw [Nat.zero_add] at hci hcj
  by_contra hfalse
  have hjc := hcj.1 (by simpa using hfalse)
  simp [hci.2 (by omega)] at hi

theorem sortsBits_schedule (network : SortNetwork) (n : Nat) :
    SortsBits n (network.schedule n) := by
  cases network with
  | bitonic => exact sortsBits_bitonicSchedule n
  | oddEvenMerge => exact sortsBits_oddEvenSchedule n

theorem pairwise_sort {β : Type} {n : Nat} {greater : β → β → Bool} (network : SortNetwork)
    (order : IsStrictWeakOrder β fun a b => greater a b = true) (v : Vector β n) :
    (network.sort greater v).toList.Pairwise fun a b => greater a b = false := by
  rw [List.pairwise_iff_getElem]
  intro i j hi hj hij
  have hn : j < n := by simpa using hj
  simp only [Vector.getElem_toList, sort_eq_foldl]
  exact sorted_of_sortsBits order _ (schedule_bounds network n) (sortsBits_schedule network n) v
    i j hij hn

theorem sort_of_pairwise {β : Type} {n : Nat} {greater : β → β → Bool} (v : Vector β n)
    (h : v.toList.Pairwise fun a b => greater a b = false) : oddEvenMerge.sort greater v = v := by
  have hrun : ∀ cs : List Comparator, (∀ c ∈ cs, c ∈ oddEvenSchedule n) →
      cs.foldl (Comparator.run greater) v = v := by
    intro cs hcs
    induction cs with
    | nil => rfl
    | cons c cs ih =>
      obtain ⟨hlt, hn⟩ := oddEvenSchedule_bounds n c (hcs c List.mem_cons_self)
      have hhigh : c.high < v.toList.length := by rwa [Vector.length_toList]
      have hle := List.pairwise_iff_getElem.1 h c.low c.high (Nat.lt_trans hlt hhigh) hhigh hlt
      rw [Vector.getElem_toList, Vector.getElem_toList] at hle
      rw [List.foldl_cons, c.run_eq greater v (by omega) hn, hle,
        oddEvenSchedule_ascending n c (hcs c List.mem_cons_self), if_neg Bool.false_ne_true]
      exact ih fun d hd => hcs d (List.mem_cons_of_mem c hd)
  rw [sort_eq_foldl]
  exact hrun _ fun c hc => hc

end ObliviousRam.SortNetwork
