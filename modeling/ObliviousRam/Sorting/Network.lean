import ObliviousRam.Word

namespace ObliviousRam

inductive SortNetwork where
  | bitonic
  | oddEvenMerge
  deriving DecidableEq

namespace SortNetwork

def name : SortNetwork → String
  | bitonic => "Bitonic"
  | oddEvenMerge => "OddEvenMerge"

variable {m : Type → Type} [Monad m] {β : Type} {n : Nat}

/-- Entries `i` and `j` change places exactly if `greater` answers `ascending` for them. -/
@[specialize] def exchange (greater : β → β → m Bool) (ascending : Bool) (i j : Nat)
    (v : Vector β n) : m (Vector β n) :=
  if h : i < n ∧ j < n then do
    let answer ← greater v[i] v[j]
    return if answer = ascending then v.swap i j else v
  else pure v

/-- The greatest power of two below `len`, if `len` is at least two. -/
def half (len : Nat) : Nat := 2 ^ (len - 1).log2

theorem half_pos (len : Nat) : 0 < half len := Nat.two_pow_pos _

theorem half_lt {len : Nat} (h : 1 < len) : half len < len := by
  have := Nat.log2_self_le (n := len - 1) (by omega)
  unfold half
  omega

@[specialize] def bitonicMerge (greater : β → β → m Bool) (ascending : Bool) (lo len : Nat)
    (v : Vector β n) : m (Vector β n) :=
  if 1 < len then do
    let v ← (List.range' lo (len - half len)).foldlM
      (fun v i => exchange greater ascending i (i + half len) v) v
    let v ← bitonicMerge greater ascending lo (half len) v
    bitonicMerge greater ascending (lo + half len) (len - half len) v
  else pure v
termination_by len
decreasing_by
  · exact half_lt ‹_›
  · have := half_pos len
    omega

/-- Batcher's bitonic sorter for any length. The lower half is sorted the other way round first. -/
@[specialize] def bitonicSort (greater : β → β → m Bool) (ascending : Bool) (lo len : Nat)
    (v : Vector β n) : m (Vector β n) :=
  if 1 < len then do
    let v ← bitonicSort greater (!ascending) lo (len / 2) v
    let v ← bitonicSort greater ascending (lo + len / 2) (len - len / 2) v
    bitonicMerge greater ascending lo len v
  else pure v
termination_by len

def progression (start stop step : Nat) : List Nat :=
  List.range' start (ceilDiv (stop - start) step) step

@[specialize] def oddEvenPass (greater : β → β → m Bool) (p k : Nat) (v : Vector β n) :
    m (Vector β n) :=
  (progression (k % p) (n - k) (2 * k)).foldlM (fun v j =>
    (List.range (min k (n - j - k))).foldlM (fun v i =>
      if (i + j) / (2 * p) = (i + j + k) / (2 * p) then
        exchange greater true (i + j) (i + j + k) v
      else pure v) v) v

/-- Batcher's odd-even merge sort for any length. Sorted blocks of `2 ^ e` entries are merged in
pairs, with distances that are halved from `2 ^ e` down to one. -/
@[specialize] def oddEvenMergeSort (greater : β → β → m Bool) (v : Vector β n) : m (Vector β n) :=
  (List.range (ceilLog2 n)).foldlM (fun v e =>
    (List.range (e + 1)).reverse.foldlM (fun v d => oddEvenPass greater (2 ^ e) (2 ^ d) v) v) v

@[specialize] def sortM (network : SortNetwork) (greater : β → β → m Bool) (v : Vector β n) :
    m (Vector β n) :=
  match network with
  | bitonic => bitonicSort greater true 0 n v
  | oddEvenMerge => oddEvenMergeSort greater v

def sort (network : SortNetwork) (greater : β → β → Bool) (v : Vector β n) : Vector β n :=
  Id.run (network.sortM (fun a b => pure (greater a b)) v)

@[specialize] def sortByM {ι κ : Type} (network : SortNetwork)
    (greater : ι × κ → ι × κ → m Bool) (items : List ι) (keys : List κ) :
    m (Except Fault (List ι × List κ)) :=
  if items.length = keys.length then do
    let sorted ← network.sortM greater (items.zip keys).toArray.toVector
    return .ok sorted.toList.unzip
  else return .error (.unpairedKeys items.length keys.length)

def sortByKeys {ι : Type} (items : List ι) (keys : List Word) : Except Fault (List ι × List Word) :=
  let greater (a b : ι × Word) : Id Bool := pure (decide (b.2 < a.2))
  Id.run (bitonic.sortByM greater items keys)

end SortNetwork

end ObliviousRam
