import ObliviousRam.Proofs.Sorting.Sorted

namespace ObliviousRam.SortNetwork

variable {ι κ : Type} {n : Nat}

def pairs (rows : Vector ι n × Vector κ n) : Vector (ι × κ) n := rows.1.zip rows.2

theorem getElem_pairs (rows : Vector ι n × Vector κ n) (i : Nat) (hi : i < n) :
    (pairs rows)[i] = (rows.1[i], rows.2[i]) := Vector.getElem_zip

theorem swap_pairs (rows : Vector ι n × Vector κ n) (i j : Nat) (hi : i < n) (hj : j < n) :
    (pairs rows).swap i j = pairs (rows.1.swap i j, rows.2.swap i j) := by
  apply Vector.ext
  intro k hk
  simp only [getElem_pairs, Vector.getElem_swap]
  split
  · rfl
  · split <;> rfl

theorem unzip_toList_pairs (rows : Vector ι n × Vector κ n) :
    (pairs rows).toList.unzip = (rows.1.toList, rows.2.toList) := by
  rw [pairs, Vector.toList_zip, List.unzip_zip]
  rw [Vector.length_toList, Vector.length_toList]

section Monadic

variable {m : Type → Type} [Monad m]

/-- Runs a comparator on a row of items and the row of their keys. Entries change places in both rows
or in neither. -/
def Comparator.runPairedM (greater : ι × κ → ι × κ → m Bool) (rows : Vector ι n × Vector κ n)
    (c : Comparator) : m (Vector ι n × Vector κ n) :=
  if h : c.low < n ∧ c.high < n then do
    let answer ← greater (rows.1[c.low], rows.2[c.low]) (rows.1[c.high], rows.2[c.high])
    return if answer = c.ascending then
      (rows.1.swap c.low c.high, rows.2.swap c.low c.high) else rows
  else pure rows

theorem sortM_congr {β γ : Type} {k : Nat} (network : SortNetwork) (greater : β → β → m Bool)
    (f : List β → γ) {u : Vector β k} {v : Vector β n} (h : u.toList = v.toList) :
    (do let sorted ← network.sortM greater u; return f sorted.toList) =
      (do let sorted ← network.sortM greater v; return f sorted.toList) := by
  obtain rfl : k = n := by
    simpa only [Vector.length_toList] using congrArg List.length h
  rw [Vector.toList_inj.1 h]

variable [LawfulMonad m] (greater : ι × κ → ι × κ → m Bool)

theorem Comparator.runM_pairs (rows : Vector ι n × Vector κ n) (c : Comparator) :
    c.runM greater (pairs rows) = pairs <$> c.runPairedM greater rows := by
  unfold runM exchange runPairedM
  by_cases h : c.low < n ∧ c.high < n
  · simp only [h, and_self, ↓reduceDIte, map_bind, map_pure, getElem_pairs, swap_pairs, apply_ite]
  · simp only [h, ↓reduceDIte, map_pure]

theorem foldlM_pairs (cs : List Comparator) (rows : Vector ι n × Vector κ n) :
    cs.foldlM (Comparator.runM greater) (pairs rows) =
      pairs <$> cs.foldlM (Comparator.runPairedM greater) rows := by
  induction cs generalizing rows with
  | nil => exact (map_pure _ _).symm
  | cons c cs ih => simp only [List.foldlM_cons, c.runM_pairs, bind_map_left, map_bind, ih]

theorem sortByM_eq_foldlM (network : SortNetwork) (items : Vector ι n) (keys : Vector κ n) :
    network.sortByM greater items.toList keys.toList = do
      let rows ← (network.schedule n).foldlM (Comparator.runPairedM greater) (items, keys)
      return .ok (rows.1.toList, rows.2.toList) := by
  have hlength : items.toList.length = keys.toList.length := by
    rw [Vector.length_toList, Vector.length_toList]
  have hrow : (items.toList.zip keys.toList).toArray.toVector.toList =
      (pairs (items, keys)).toList := Vector.toList_zip.symm
  rw [sortByM, if_pos hlength,
    sortM_congr network greater (fun sorted => Except.ok sorted.unzip) hrow,
    sortM_eq_foldlM, foldlM_pairs, bind_map_left]
  simp only [unzip_toList_pairs]

end Monadic

section Questions

variable (greater : ι × κ → ι × κ → Bool)

def noting (a b : ι × κ) : StateM (List ((ι × κ) × (ι × κ))) Bool := do
  modify (· ++ [(a, b)])
  return greater a b

def Comparator.runPaired (rows : Vector ι n × Vector κ n) (c : Comparator) :
    Vector ι n × Vector κ n :=
  Id.run (c.runPairedM (fun a b => pure (greater a b)) rows)

def Comparator.question (rows : Vector ι n × Vector κ n) (c : Comparator) :
    List ((ι × κ) × (ι × κ)) :=
  if h : c.low < n ∧ c.high < n then
    [((rows.1[c.low], rows.2[c.low]), (rows.1[c.high], rows.2[c.high]))]
  else []

def questions : List Comparator → Vector ι n × Vector κ n → List ((ι × κ) × (ι × κ))
  | [], _ => []
  | c :: cs, rows => c.question rows ++ questions cs (c.runPaired greater rows)

theorem Comparator.run_noting (rows : Vector ι n × Vector κ n) (c : Comparator)
    (asked : List ((ι × κ) × (ι × κ))) : (c.runPairedM (noting greater) rows).run asked =
      (c.runPaired greater rows, asked ++ c.question rows) := by
  unfold runPaired runPairedM question
  by_cases h : c.low < n ∧ c.high < n
  · simp only [h, and_self, ↓reduceDIte]
    rfl
  · simp only [h, ↓reduceDIte]
    exact congrArg (rows, ·) (List.append_nil asked).symm

theorem run_foldlM_noting (cs : List Comparator) (rows : Vector ι n × Vector κ n)
    (asked : List ((ι × κ) × (ι × κ))) :
    (cs.foldlM (Comparator.runPairedM (noting greater)) rows).run asked =
      (cs.foldl (Comparator.runPaired greater) rows, asked ++ questions greater cs rows) := by
  induction cs generalizing rows asked with
  | nil => exact congrArg (rows, ·) (List.append_nil asked).symm
  | cons c cs ih =>
    rw [List.foldlM_cons, StateT.run_bind, c.run_noting, List.foldl_cons, questions,
      ← List.append_assoc]
    exact ih _ _

theorem run_sortByM_noting (network : SortNetwork) (items : Vector ι n) (keys : Vector κ n) :
    (network.sortByM (noting greater) items.toList keys.toList).run [] =
      (.ok (((network.schedule n).foldl (Comparator.runPaired greater) (items, keys)).1.toList,
          ((network.schedule n).foldl (Comparator.runPaired greater) (items, keys)).2.toList),
        questions greater (network.schedule n) (items, keys)) := by
  rw [sortByM_eq_foldlM, StateT.run_bind, run_foldlM_noting]
  rfl

end Questions

/-- For each length a network is one list of comparators, each of which joins two different places of
the rows. It is these that are run, one after the other, whatever the items, the keys and the rule.
Each asks the rule once about the pairs at its places, and moves items together with their keys. So it
is if asking has any effect, and if the questions are written down these are all of them, in order. -/
theorem sortByM_scheduled (network : SortNetwork) (n : Nat) :
    (∀ c ∈ network.schedule n, c.low < c.high ∧ c.high < n) ∧
    (∀ {m : Type → Type} [Monad m] [LawfulMonad m] {ι κ : Type}
      (greater : ι × κ → ι × κ → m Bool) (items : Vector ι n) (keys : Vector κ n),
      network.sortByM greater items.toList keys.toList = do
        let rows ← (network.schedule n).foldlM (Comparator.runPairedM greater) (items, keys)
        return .ok (rows.1.toList, rows.2.toList)) ∧
    ∀ {ι κ : Type} (greater : ι × κ → ι × κ → Bool) (items : Vector ι n) (keys : Vector κ n),
      (network.sortByM (noting greater) items.toList keys.toList).run [] =
        (.ok (((network.schedule n).foldl (Comparator.runPaired greater) (items, keys)).1.toList,
            ((network.schedule n).foldl (Comparator.runPaired greater) (items, keys)).2.toList),
          questions greater (network.schedule n) (items, keys)) := by
  refine ⟨network.schedule_bounds n, ?_, ?_⟩
  · intro m _ _ ι κ greater items keys
    exact sortByM_eq_foldlM greater network items keys
  · intro ι κ greater items keys
    exact run_sortByM_noting greater network items keys

/-- Three pairs under a rule that is no order. The last two questions are about pairs that the ones
before have moved. -/
theorem sortByM_scheduled_three :
    bitonic.schedule 3 = [⟨1, 2, true⟩, ⟨0, 2, true⟩, ⟨0, 1, true⟩] ∧
    (bitonic.sortByM (noting fun _ _ => true) ['a', 'b', 'c'] [0, 1, 2]).run [] =
      (.ok (['c', 'b', 'a'], [2, 1, 0]),
        [(('b', 1), ('c', 2)), (('a', 0), ('b', 1)), (('b', 1), ('c', 2))]) := by
  have hschedule : bitonic.schedule 3 = [⟨1, 2, true⟩, ⟨0, 2, true⟩, ⟨0, 1, true⟩] := by
    decide +kernel
  obtain ⟨-, hrun, -⟩ := sortByM_scheduled bitonic 3
  have hrows := hrun (noting fun _ _ => true) #v['a', 'b', 'c'] #v[0, 1, 2]
  rw [hschedule] at hrows
  exact ⟨hschedule, (congrArg (StateT.run · []) hrows).trans rfl⟩

end ObliviousRam.SortNetwork
