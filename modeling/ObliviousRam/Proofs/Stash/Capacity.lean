import Mathlib.Order.Bounds.Basic
import ObliviousRam.Proofs.Stash.Arrangement

namespace ObliviousRam.Stash

open Slots

variable {w : Nat}

theorem place_of_any (block : Block w) {bs : List (Block w)} (h : bs.any Block.isEmpty = true) :
    place block bs = bs.set (bs.findIdx Block.isEmpty) block := by
  induction bs with
  | nil => cases h
  | cons slot rest ih =>
    rw [place, List.findIdx_cons]
    cases hslot : slot.isEmpty with
    | true => rfl
    | false =>
      rw [List.any_cons, hslot, Bool.false_or] at h
      rw [if_neg Bool.false_ne_true, ih h, cond_false, List.set_cons_succ]

theorem place_of_full (block : Block w) {bs : List (Block w)} (h : bs.any Block.isEmpty = false) :
    place block bs = place block (bs ++ List.replicate growth Block.empty) := by
  induction bs with
  | nil => rfl
  | cons slot rest ih =>
    rw [List.any_cons, Bool.or_eq_false_iff] at h
    rw [List.cons_append, place, place, if_neg (by simp [h.1]), if_neg (by simp [h.1]), ih h.2]

theorem overflow_insert (s : Stash w) (block : Block w) : (s.insert block).overflow =
    (s.overflow ++ List.replicate (if s.isFull then growth else 0) Block.empty).set
      (s.overflow.findIdx Block.isEmpty) block := by
  have hfull : s.isFull = !s.overflow.any Block.isEmpty := by rw [isFull, List.not_any_eq_all_not]
  rw [insert, hfull]
  cases h : s.overflow.any Block.isEmpty with
  | true => rw [Bool.not_true, if_neg Bool.false_ne_true, List.replicate_zero, List.append_nil,
      place_of_any block h]
  | false =>
    have hnone : s.overflow.findIdx Block.isEmpty = s.overflow.length := by
      rw [List.findIdx_eq_length]
      simpa using h
    have hgrown : (s.overflow ++ List.replicate growth (Block.empty : Block w)).any Block.isEmpty =
        true := by
      rw [List.any_append, List.any_replicate, Block.isEmpty_empty]
      exact Bool.or_true _
    rw [Bool.not_false, if_pos rfl, place_of_full block h, place_of_any block hgrown,
      List.findIdx_append, if_neg (by rw [hnone]; exact Nat.lt_irrefl _), hnone, growth,
      List.replicate_succ, List.findIdx_cons, Block.isEmpty_empty, cond_true, Nat.zero_add]

/-- What is done with a stash between two accesses and in the course of one. -/
inductive Step : Stash w → Stash w → Prop
  | load {s s' : Stash w} {level : Nat} {bucket : Bucket w} {id : Word} {target target' : Block w}
      (load : s.load level bucket id target = .ok (s', target')) : Step s s'
  | takeOverflow {s s' : Stash w} {id : Word} {target target' : Block w}
      (take : s.takeOverflow id target = .ok (s', target')) : Step s s'
  | insert {s : Stash w} {block : Block w} (real : block.isEmpty = false) : Step s (s.insert block)
  | evict {s s' : Stash w} {p : Path} (evict : s.evict p = .ok s') : Step s s'
  | clear {s : Stash w} : Step s s.clear

theorem overflowCount_le (s : Stash w) : s.overflowCount ≤ s.capacity := List.countP_le_length

theorem length_slots (s : Stash w) : s.slots.length = Bucket.capacity * s.levels + s.capacity := by
  rw [slots, List.length_append, length_flatMap_toList, levels, capacity]

theorem capacity_load {s s' : Stash w} {level : Nat} {bucket : Bucket w} {id : Word}
    {target target' : Block w} (h : s.load level bucket id target = .ok (s', target')) :
    s'.capacity = s.capacity := by
  rw [load] at h
  split at h
  next =>
    obtain ⟨blocks, -, h⟩ := Path.exists_of_bind h
    cases h
    rfl
  next => cases h

theorem capacity_takeOverflow {s s' : Stash w} {id : Word} {target target' : Block w}
    (h : s.takeOverflow id target = .ok (s', target')) : s'.capacity = s.capacity := by
  obtain ⟨blocks, hblocks, h⟩ := Path.exists_of_bind h
  cases h
  have hbound := s.overflowBound_le
  rw [capacity, List.length_append, length_of_extractAll hblocks, List.length_take, List.length_drop,
    capacity]
  omega

theorem capacity_evict {s s' : Stash w} {p : Path} (h : s.evict p = .ok s') :
    s'.capacity = s.capacity := by
  obtain ⟨placed, harrange, hevicted⟩ := evicted_of_evict h
  have hslots := congrArg List.length hevicted.slots
  have hbound := s.overflowBound_le
  rw [length_slots, hevicted.levels, List.length_append, List.length_map, length_of_arrange harrange,
    length_candidates, List.length_drop] at hslots
  rw [capacity] at hslots ⊢
  rw [capacity]
  omega

theorem capacity_insert (s : Stash w) (block : Block w) :
    (s.insert block).capacity = s.capacity + if s.isFull then growth else 0 := by
  rw [capacity, overflow_insert, List.length_set, List.length_append, List.length_replicate, capacity]

theorem overflowCount_insert (s : Stash w) {block : Block w} (hreal : block.isEmpty = false) :
    (s.insert block).overflowCount = s.overflowCount + 1 := by
  rw [overflowCount, overflowCount, List.countP_eq_length_filter, List.countP_eq_length_filter]
  exact (stored_place block hreal s.overflow).length_eq

theorem Step.capacity {s s' : Stash w} (h : Step s s') : s'.capacity = s.capacity ∨
    s'.capacity = s.capacity + growth ∧ s'.overflowCount = s.capacity + 1 := by
  cases h with
  | load h => exact .inl (capacity_load h)
  | takeOverflow h => exact .inl (capacity_takeOverflow h)
  | @insert block hreal =>
    rw [capacity_insert, s.overflowCount_insert hreal]
    cases hfull : s.isFull with
    | false => exact .inl rfl
    | true =>
      have hcount : s.overflowCount = s.capacity := by
        rw [overflowCount, Stash.capacity, List.countP_eq_length]
        exact List.all_eq_true.1 hfull
      exact .inr ⟨rfl, by rw [hcount]⟩
  | evict h => exact .inl (capacity_evict h)
  | clear => exact .inl List.length_replicate

/-- A capacity that slots were added to for as long as there were more blocks than slots. -/
structure Fitted (overflowSize : Nat) (states : List (Stash w)) (capacity : Nat) : Prop where
  holds : ∀ t ∈ states, t.overflowCount ≤ capacity
  grown : ∃ g, capacity = overflowSize + growth * g ∧
    (g = 0 ∨ ∃ t ∈ states, capacity < t.overflowCount + growth)

theorem Fitted.step {overflowSize : Nat} {states : List (Stash w)} {s s' : Stash w}
    (h : Fitted overflowSize states s.capacity) (hstep : Step s s') :
    Fitted overflowSize (s' :: states) s'.capacity := by
  obtain ⟨g, hg, hneeded⟩ := h.grown
  obtain hkept | ⟨hadded, hcount⟩ := hstep.capacity
  · refine ⟨List.forall_mem_cons.2 ⟨s'.overflowCount_le, fun t ht => ?_⟩, g, by rw [hkept, hg], ?_⟩
    · rw [hkept]
      exact h.holds t ht
    · refine hneeded.imp_right fun ⟨t, ht, hlt⟩ => ⟨t, List.mem_cons_of_mem _ ht, ?_⟩
      rwa [hkept]
  · refine ⟨List.forall_mem_cons.2 ⟨s'.overflowCount_le, fun t ht => ?_⟩, g + 1, ?_,
      .inr ⟨s', List.mem_cons_self, by omega⟩⟩
    · rw [hadded]
      exact Nat.le_add_right_of_le (h.holds t ht)
    · rw [hadded, hg, Nat.mul_succ, Nat.add_assoc]

end ObliviousRam.Stash
