import ObliviousRam.Proofs.Stash.EvictionOrder

namespace ObliviousRam.Stash

variable {w : Nat}

theorem length_regroup (count : Nat) (bs : List (Block w)) : (regroup count bs).length = count := by
  induction count generalizing bs with
  | zero => rfl
  | succ count ih => rw [regroup, List.length_cons, ih]

theorem toList_ofList_take (bs : List (Block w)) (h : Bucket.capacity ≤ bs.length) :
    (Bucket.ofList bs).toList = bs.take Bucket.capacity := by
  match bs, h with
  | _ :: _ :: _ :: _, _ => rfl

theorem flatMap_regroup (count : Nat) (bs : List (Block w)) (h : Bucket.capacity * count ≤ bs.length) :
    (regroup count bs).flatMap Bucket.toList = bs.take (Bucket.capacity * count) := by
  induction count generalizing bs with
  | zero => rw [Nat.mul_zero, List.take_zero]; rfl
  | succ count ih =>
    rw [Nat.mul_succ] at h ⊢
    rw [regroup, List.flatMap_cons, toList_ofList_take bs (by omega),
      ih _ (by rw [List.length_drop]; omega), Nat.add_comm, List.take_add]

theorem getElem_regroup (count : Nat) (bs : List (Block w)) (l : Nat)
    (hl : l < (regroup count bs).length) :
    (regroup count bs)[l] = Bucket.ofList (bs.drop (Bucket.capacity * l)) := by
  induction count generalizing bs l with
  | zero => cases hl
  | succ count ih =>
    cases l with
    | zero => simp [regroup]
    | succ l =>
      simp only [regroup, List.getElem_cons_succ]
      rw [ih, List.drop_drop, Nat.mul_succ, Nat.add_comm]

def sentTo (level : Option Nat) (placed : List (Block w × Option Nat)) : List (Block w × Option Nat) :=
  placed.filter (·.2 == level)

theorem mem_sentTo {level : Option Nat} {placed : List (Block w × Option Nat)}
    {e : Block w × Option Nat} : e ∈ sentTo level placed ↔ e ∈ placed ∧ e.2 = level := by
  rw [sentTo, List.mem_filter, beq_iff_eq]

theorem sentTo_eq_slice {level : Option Nat} {placed : List (Block w × Option Nat)} (start count : Nat)
    (h : ∀ i e, placed[i]? = some e → (e.2 = level ↔ start ≤ i ∧ i < start + count)) :
    sentTo level placed = (placed.drop start).take count := by
  have hfront : (placed.take start).filter (·.2 == level) = [] := by
    rw [List.filter_eq_nil_iff]
    intro e he
    obtain ⟨i, hi, rfl⟩ := List.mem_take_iff_getElem.1 he
    rw [beq_iff_eq, h i _ (List.getElem?_eq_getElem _)]
    omega
  have hslice : ((placed.drop start).take count).filter (·.2 == level) =
      (placed.drop start).take count := by
    rw [List.filter_eq_self]
    intro e he
    obtain ⟨i, hi, rfl⟩ := List.mem_take_iff_getElem.1 he
    rw [List.getElem_drop, beq_iff_eq, h (start + i) _ (List.getElem?_eq_getElem _)]
    omega
  have hback : ((placed.drop start).drop count).filter (·.2 == level) = [] := by
    rw [List.filter_eq_nil_iff]
    intro e he
    rw [List.drop_drop] at he
    obtain ⟨i, hi, rfl⟩ := List.mem_drop_iff_getElem.1 he
    rw [beq_iff_eq, h _ _ (List.getElem?_eq_getElem _)]
    omega
  rw [sentTo]
  conv_lhs => rw [← List.take_append_drop start placed, ← List.take_append_drop count (placed.drop start),
    List.filter_append, List.filter_append, hfront, hslice, hback, List.nil_append, List.append_nil]

section Rows

variable {placed : List (Block w × Option Nat)} {count rest : Nat}
  (hlevels : placed.map Prod.snd = rows count ++ List.replicate rest none)
include hlevels

theorem level_of_rows {i : Nat} {e : Block w × Option Nat} (he : placed[i]? = some e) :
    e.2 = if i < Bucket.capacity * count then some (i / Bucket.capacity) else none := by
  have hlevel : (rows count ++ List.replicate rest none)[i]? = some e.2 := by
    rw [← hlevels, List.getElem?_map, he, Option.map_some]
  split
  next hlt =>
    rw [List.getElem?_append_left (by rwa [length_rows]), getElem?_rows _ _ hlt] at hlevel
    exact (Option.some.inj hlevel).symm
  next hge =>
    rw [List.getElem?_append_right (by rw [length_rows]; omega)] at hlevel
    exact List.eq_of_mem_replicate (List.mem_of_getElem? hlevel)

theorem sentTo_some_of_rows {l : Nat} (hl : l < count) :
    sentTo (some l) placed = (placed.drop (Bucket.capacity * l)).take Bucket.capacity := by
  apply sentTo_eq_slice
  intro i e he
  rw [level_of_rows hlevels he]
  have hroom := Nat.mul_le_mul_left Bucket.capacity (Nat.succ_le_of_lt hl)
  rw [Nat.mul_succ] at hroom
  have hsplit := Nat.div_add_mod i Bucket.capacity
  have hmod := Nat.mod_lt i (show 0 < Bucket.capacity by decide)
  split
  · rw [Option.some.injEq, Nat.div_eq_iff (by decide), Nat.mul_comm]
    omega
  · simp only [reduceCtorEq, false_iff]
    omega

theorem sentTo_none_of_rows : sentTo none placed = placed.drop (Bucket.capacity * count) := by
  rw [← List.take_length (l := placed.drop (Bucket.capacity * count))]
  apply sentTo_eq_slice
  intro i e he
  have hi := (List.getElem?_eq_some_iff.1 he).1
  rw [level_of_rows hlevels he, List.length_drop]
  split
  · simp only [reduceCtorEq, false_iff]
    omega
  · simp only [true_iff]
    omega

theorem toList_regroup {l : Nat} (hl : l < count) :
    ∃ bucket, (regroup count (placed.map Prod.fst))[l]? = some bucket ∧
      bucket.toList = (sentTo (some l) placed).map Prod.fst := by
  have hlength := congrArg List.length hlevels
  rw [List.length_map, List.length_append, length_rows, List.length_replicate] at hlength
  have hroom := Nat.mul_le_mul_left Bucket.capacity (Nat.succ_le_of_lt hl)
  rw [Nat.mul_succ] at hroom
  refine ⟨_, List.getElem?_eq_getElem (by rwa [length_regroup]), ?_⟩
  rw [getElem_regroup, toList_ofList_take _ (by rw [List.length_drop, List.length_map]; omega),
    sentTo_some_of_rows hlevels hl, List.map_take, List.map_drop]

end Rows

end ObliviousRam.Stash
