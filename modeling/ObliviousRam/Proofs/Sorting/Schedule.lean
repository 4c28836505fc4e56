import ObliviousRam.Sorting.Network

namespace ObliviousRam.SortNetwork

/-- Two places of a row whose entries are compared. The greater one goes to `high`, and to `low` if
the comparator is not ascending. -/
structure Comparator where
  low : Nat
  high : Nat
  ascending : Bool
  deriving DecidableEq

def cleaning (ascending : Bool) (lo len : Nat) : List Comparator :=
  (List.range' lo (len - half len)).map fun i => ⟨i, i + half len, ascending⟩

def merging (ascending : Bool) (lo len : Nat) : List Comparator :=
  if 1 < len then
    cleaning ascending lo len ++ (merging ascending lo (half len) ++
      merging ascending (lo + half len) (len - half len))
  else []
termination_by len
decreasing_by
  · exact half_lt ‹_›
  · have := half_pos len
    omega

def bitonicSchedule (ascending : Bool) (lo len : Nat) : List Comparator :=
  if 1 < len then
    bitonicSchedule (!ascending) lo (len / 2) ++
      (bitonicSchedule ascending (lo + len / 2) (len - len / 2) ++ merging ascending lo len)
  else []
termination_by len

def passSchedule (n p k : Nat) : List Comparator :=
  (progression (k % p) (n - k) (2 * k)).flatMap fun j =>
    ((List.range (min k (n - j - k))).filter fun i =>
      (i + j) / (2 * p) = (i + j + k) / (2 * p)).map fun i => ⟨i + j, i + j + k, true⟩

def phaseSchedule (n e : Nat) : List Comparator :=
  (List.range (e + 1)).reverse.flatMap fun d => passSchedule n (2 ^ e) (2 ^ d)

def oddEvenSchedule (n : Nat) : List Comparator :=
  (List.range (ceilLog2 n)).flatMap (phaseSchedule n)

def schedule : SortNetwork → Nat → List Comparator
  | bitonic, n => bitonicSchedule true 0 n
  | oddEvenMerge, n => oddEvenSchedule n

section Run

variable {m : Type → Type} [Monad m] {β : Type} {n : Nat}

def Comparator.runM (greater : β → β → m Bool) (v : Vector β n) (c : Comparator) :
    m (Vector β n) :=
  exchange greater c.ascending c.low c.high v

variable [LawfulMonad m] (greater : β → β → m Bool)

theorem foldlM_flatMap {ι γ δ : Type} (f : δ → γ → m δ) (g : ι → List γ) (l : List ι) (s : δ) :
    (l.flatMap g).foldlM f s = l.foldlM (fun s i => (g i).foldlM f s) s := by
  induction l generalizing s with
  | nil => rfl
  | cons i l ih => simp only [List.flatMap_cons, List.foldlM_append, List.foldlM_cons, ih]

theorem bitonicMerge_eq_foldlM (ascending : Bool) (lo len : Nat) (v : Vector β n) :
    bitonicMerge greater ascending lo len v =
      (merging ascending lo len).foldlM (Comparator.runM greater) v := by
  induction len using Nat.strongRecOn generalizing lo v with
  | ind len ih =>
    unfold bitonicMerge merging
    split
    next h =>
      have hpos := half_pos len
      rw [List.foldlM_append, cleaning, List.foldlM_map]
      congr 1
      funext u
      rw [List.foldlM_append, ih _ (half_lt h)]
      congr 1
      funext t
      exact ih _ (by omega) _ t
    next => rfl

theorem bitonicSort_eq_foldlM (ascending : Bool) (lo len : Nat) (v : Vector β n) :
    bitonicSort greater ascending lo len v =
      (bitonicSchedule ascending lo len).foldlM (Comparator.runM greater) v := by
  induction len using Nat.strongRecOn generalizing ascending lo v with
  | ind len ih =>
    unfold bitonicSort bitonicSchedule
    split
    next h =>
      rw [List.foldlM_append, ih _ (by omega)]
      congr 1
      funext u
      rw [List.foldlM_append, ih _ (by omega)]
      congr 1
      funext t
      exact bitonicMerge_eq_foldlM greater ascending lo len t
    next => rfl

theorem oddEvenPass_eq_foldlM (p k : Nat) (v : Vector β n) :
    oddEvenPass greater p k v = (passSchedule n p k).foldlM (Comparator.runM greater) v := by
  rw [passSchedule, foldlM_flatMap]
  unfold oddEvenPass
  congr 1
  funext u j
  rw [List.foldlM_map, List.foldlM_filter]
  simp only [decide_eq_true_eq]
  rfl

theorem oddEvenMergeSort_eq_foldlM (v : Vector β n) :
    oddEvenMergeSort greater v = (oddEvenSchedule n).foldlM (Comparator.runM greater) v := by
  rw [oddEvenSchedule, foldlM_flatMap]
  unfold oddEvenMergeSort
  congr 1
  funext u e
  rw [phaseSchedule, foldlM_flatMap]
  congr 1
  funext t d
  exact oddEvenPass_eq_foldlM greater _ _ t

theorem sortM_eq_foldlM (network : SortNetwork) (v : Vector β n) :
    network.sortM greater v = (network.schedule n).foldlM (Comparator.runM greater) v := by
  cases network with
  | bitonic => exact bitonicSort_eq_foldlM greater true 0 n v
  | oddEvenMerge => exact oddEvenMergeSort_eq_foldlM greater v

end Run

end ObliviousRam.SortNetwork
