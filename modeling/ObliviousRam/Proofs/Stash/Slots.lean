import Mathlib.Data.List.Induction
import Mathlib.Data.List.Nodup
import Mathlib.Data.List.TakeWhile
import Mathlib.Tactic.ByContra
import ObliviousRam.Stash

namespace ObliviousRam

namespace Slots

variable {w : Nat}

def stored (bs : List (Block w)) : List (Block w) := bs.filter fun b => !b.isEmpty

def ids (bs : List (Block w)) : List Word := (stored bs).map Block.id

/-- Nothing is left behind in an empty slot. -/
def Clean (bs : List (Block w)) : Prop := ∀ b ∈ bs, b.isEmpty = true → b = Block.empty

/-- No block comes after an empty slot. -/
def Compact (bs : List (Block w)) : Prop :=
  bs.Pairwise fun a b => a.isEmpty = true → b.isEmpty = true

def vacate (id : Word) (b : Block w) : Block w := if b.id = id then Block.empty else b

/-- Block `id`, which is empty if it is in no slot. -/
def pick (id : Word) (bs : List (Block w)) : Block w :=
  (bs.find? fun b => b.id == id).getD Block.empty

theorem mem_stored {b : Block w} {bs : List (Block w)} :
    b ∈ stored bs ↔ b ∈ bs ∧ b.isEmpty = false := by
  rw [stored, List.mem_filter, Bool.not_eq_true']

theorem ids_cons (b : Block w) (bs : List (Block w)) :
    ids (b :: bs) = if b.isEmpty then ids bs else b.id :: ids bs := by
  cases h : b.isEmpty <;> simp [ids, stored, h]

@[simp] theorem stored_append (as bs : List (Block w)) :
    stored (as ++ bs) = stored as ++ stored bs := List.filter_append ..

theorem append_right_comm (as bs cs : List (Block w)) : (as ++ bs ++ cs).Perm (as ++ cs ++ bs) := by
  rw [List.append_assoc, List.append_assoc]
  exact List.perm_append_comm.append_left as

theorem stored_perm {as bs : List (Block w)} (h : as.Perm bs) : (stored as).Perm (stored bs) :=
  h.filter _

theorem clean_append {as bs : List (Block w)} : Clean (as ++ bs) ↔ Clean as ∧ Clean bs :=
  List.forall_mem_append

theorem Clean.mono {as bs : List (Block w)} (h : Clean bs) (hsub : as ⊆ bs) : Clean as :=
  fun b hb => h b (hsub hb)

theorem stored_replicate (n : Nat) : stored (List.replicate n (Block.empty : Block w)) = [] := by
  simp [stored]

theorem vacate_of_ne {id : Word} {b : Block w} (h : b.id ≠ id) : vacate id b = b := if_neg h

theorem map_vacate_of_ne {id : Word} {bs : List (Block w)} (h : ∀ b ∈ bs, b.id ≠ id) :
    bs.map (vacate id) = bs := by
  rw [List.map_congr_left fun b hb => vacate_of_ne (h b hb), List.map_id']

theorem clean_map_vacate (id : Word) {bs : List (Block w)} (h : Clean bs) :
    Clean (bs.map (vacate id)) := by
  intro b hb hempty
  obtain ⟨a, ha, rfl⟩ := List.mem_map.1 hb
  by_cases hid : a.id = id
  · exact if_pos hid
  · rw [vacate_of_ne hid] at hempty ⊢
    exact h a ha hempty

theorem stored_map_vacate (id : Word) (bs : List (Block w)) :
    stored (bs.map (vacate id)) = (stored bs).filter fun b => b.id ≠ id := by
  induction bs with
  | nil => rfl
  | cons b bs ih =>
    by_cases hid : b.id = id
    · have hvacate : vacate id b = Block.empty := if_pos hid
      by_cases hempty : b.isEmpty
      · simpa [stored, hvacate, hempty] using ih
      · simpa [stored, hvacate, hempty, hid] using ih
    · by_cases hempty : b.isEmpty
      · simpa [stored, vacate_of_ne hid, hempty] using ih
      · simpa [stored, vacate_of_ne hid, hempty, hid] using ih

theorem pick_cons (id : Word) (b : Block w) (bs : List (Block w)) :
    pick id (b :: bs) = if b.id = id then b else pick id bs := by
  by_cases h : b.id = id
  · simp [pick, h]
  · simp [pick, h]

theorem pick_of_notMem {id : Word} {bs : List (Block w)} (h : ∀ b ∈ bs, b.id ≠ id) :
    pick id bs = Block.empty := by
  rw [pick, List.find?_eq_none.2 fun b hb => by simpa using h b hb, Option.getD_none]

theorem pick_append_left {id : Word} (as bs : List (Block w)) (h : ∀ b ∈ bs, b.id ≠ id) :
    pick id (as ++ bs) = pick id as := by
  rw [pick, List.find?_append, (List.find?_eq_none (l := bs)).2 fun b hb => by simpa using h b hb,
    Option.or_none, pick]

theorem pick_mem {id : Word} {bs : List (Block w)} {b : Block w} (hb : b ∈ bs) (hid : b.id = id)
    (hcount : bs.countP (fun b => b.id == id) ≤ 1) : pick id bs = b := by
  induction bs with
  | nil => cases hb
  | cons a bs ih =>
    rw [List.countP_cons] at hcount
    by_cases ha : a.id = id
    · have hzero : bs.countP (fun b => b.id == id) = 0 := by simpa [ha] using hcount
      rw [List.countP_eq_zero] at hzero
      obtain rfl | hb := List.mem_cons.1 hb
      · simp [pick, ha]
      · exact absurd (beq_iff_eq.2 hid) (hzero b hb)
    · obtain rfl | hb := List.mem_cons.1 hb
      · exact absurd hid ha
      · rw [← ih hb (by simpa [ha] using hcount)]
        simp [pick, ha]

theorem pick_perm {id : Word} {as bs : List (Block w)} (h : as.Perm bs)
    (hcount : bs.countP (fun b => b.id == id) ≤ 1) : pick id as = pick id bs := by
  by_cases hex : ∃ b ∈ bs, b.id = id
  · obtain ⟨b, hb, hid⟩ := hex
    rw [pick_mem hb hid hcount, pick_mem (h.mem_iff.2 hb) hid (by rwa [h.countP_eq])]
  · have hnone : ∀ b ∈ bs, b.id ≠ id := fun b hb hid => hex ⟨b, hb, hid⟩
    rw [pick_of_notMem hnone, pick_of_notMem fun b hb => hnone b (h.mem_iff.1 hb)]

theorem pick_stored {id : Word} (hid : id ≠ Word.allOnes) (bs : List (Block w)) :
    pick id (stored bs) = pick id bs := by
  induction bs with
  | nil => rfl
  | cons b bs ih =>
    rw [pick, pick] at ih
    by_cases hempty : b.isEmpty
    · have hne : b.id ≠ id := fun h => hid (h ▸ Block.isEmpty_iff.1 hempty)
      rw [pick, pick, stored, List.filter_cons_of_neg (by simpa using hempty),
        List.find?_cons_of_neg (by simpa using hne)]
      exact ih
    · by_cases hb : b.id = id
      · simp [pick, stored, hempty, hb]
      · simpa [pick, stored, hempty, hb] using ih

theorem pick_filter_ne {id id' : Word} (h : id' ≠ id) (bs : List (Block w)) :
    pick id' (bs.filter fun b => b.id ≠ id) = pick id' bs := by
  rw [pick, pick, List.find?_filter]
  congr 2
  funext b
  by_cases hb : b.id = id'
  · simp [hb, h]
  · simp [hb]

theorem countP_id (id : Word) (hid : id ≠ Word.allOnes) (bs : List (Block w)) :
    bs.countP (fun b => b.id == id) = (ids bs).count id := by
  rw [ids, List.count, List.countP_map, stored, List.countP_filter]
  apply List.countP_congr
  intro b _
  by_cases h : b.id = id
  · simp [h, Block.isEmpty, hid]
  · simp [h]

/-- If no id occurs twice, then a block is found by its id in any order of the slots. -/
theorem countP_id_le_one {id : Word} (hid : id ≠ Word.allOnes) {bs : List (Block w)}
    (h : (ids bs).Nodup) : bs.countP (fun b => b.id == id) ≤ 1 := by
  rw [countP_id id hid]
  exact List.nodup_iff_count_le_one.1 h id

end Slots

namespace Stash

open Slots

variable {w : Nat}

def slots (s : Stash w) : List (Block w) := s.path.flatMap Bucket.toList ++ s.overflow

theorem extractAll_cons (id : Word) (b : Block w) (bs : List (Block w)) (target : Block w) :
    extractAll id (b :: bs) target = do
      let (slot, target) ← extract id b target
      let (rest, target) ← extractAll id bs target
      return (slot :: rest, target) := rfl

theorem extractAll_of_notMem (id : Word) (bs : List (Block w)) (h : ∀ b ∈ bs, b.id ≠ id)
    (target : Block w) : extractAll id bs target = .ok (bs, target) := by
  induction bs with
  | nil => rfl
  | cons b bs ih =>
    simp only [extractAll_cons, extract, h b (by simp), ↓reduceIte, bind, Except.bind,
      ih fun a ha => h a (by simp [ha]), pure, Except.pure]

theorem extractAll_append (id : Word) (as bs : List (Block w)) (target : Block w) :
    extractAll id (as ++ bs) target = do
      let (front, target) ← extractAll id as target
      let (back, target) ← extractAll id bs target
      return (front ++ back, target) := by
  induction as generalizing target with
  | nil =>
    simp only [List.nil_append, extractAll.eq_1, bind, Except.bind, pure, Except.pure]
    cases extractAll id bs target <;> rfl
  | cons a as ih =>
    rw [List.cons_append, extractAll_cons, extractAll_cons]
    cases extract id a target with
    | error e => rfl
    | ok x =>
      simp only [bind, Except.bind, pure, Except.pure, ih]
      cases extractAll id as x.2 with
      | error e => rfl
      | ok y =>
        simp only
        cases extractAll id bs y.2 <;> rfl

theorem extractAll_eq (id : Word) (bs : List (Block w))
    (h : bs.countP (fun b => b.id == id) ≤ 1) :
    extractAll id bs Block.empty = .ok (bs.map (vacate id), pick id bs) := by
  induction bs with
  | nil => rfl
  | cons b bs ih =>
    rw [List.countP_cons] at h
    by_cases hid : b.id = id
    · have hnone : ∀ a ∈ bs, a.id ≠ id := by
        simpa [hid, List.countP_eq_zero] using h
      simp only [extractAll_cons, extract, hid, ↓reduceIte, Block.isEmpty_empty, bind, Except.bind,
        extractAll_of_notMem id bs hnone, List.map_cons, map_vacate_of_ne hnone, pure, Except.pure]
      simp [vacate, pick, hid]
    · simp only [extractAll_cons, extract, hid, ↓reduceIte, bind, Except.bind,
        ih (by simpa [hid] using h), pure, Except.pure]
      simp [vacate, pick, hid]

theorem length_of_extractAll {id : Word} {bs : List (Block w)} {target : Block w}
    {x : List (Block w) × Block w} (h : extractAll id bs target = .ok x) :
    x.1.length = bs.length := by
  induction bs generalizing target x with
  | nil =>
    cases h
    rfl
  | cons b bs ih =>
    rw [extractAll_cons] at h
    cases hb : extract id b target with
    | error e => simp [hb, bind, Except.bind] at h
    | ok y =>
      cases hbs : extractAll id bs y.2 with
      | error e => simp [hb, hbs, bind, Except.bind] at h
      | ok z =>
        simp [hb, hbs, bind, Except.bind, pure, Except.pure] at h
        rw [← h, List.length_cons, ih hbs, List.length_cons]

theorem stored_place (block : Block w) (hreal : block.isEmpty = false) (bs : List (Block w)) :
    (stored (place block bs)).Perm (block :: stored bs) := by
  induction bs with
  | nil => simp [place, stored, hreal]
  | cons b bs ih =>
    rw [place]
    by_cases hempty : b.isEmpty
    · simp [stored, hempty, hreal]
    · have hswap := (ih.cons b).trans (List.Perm.swap block b (stored bs))
      simpa [stored, hempty] using hswap

theorem clean_place (block : Block w) (hreal : block.isEmpty = false) {bs : List (Block w)}
    (h : Clean bs) : Clean (place block bs) := by
  induction bs with
  | nil =>
    intro b hb hempty
    obtain rfl | hb := List.mem_cons.1 hb
    · simp [hreal] at hempty
    · exact List.eq_of_mem_replicate hb
  | cons a bs ih =>
    have htail : Clean bs := h.mono (List.subset_cons_self a bs)
    rw [place]
    split
    · intro b hb hempty
      obtain rfl | hb := List.mem_cons.1 hb
      · simp [hreal] at hempty
      · exact htail b hb hempty
    · intro b hb hempty
      obtain rfl | hb := List.mem_cons.1 hb
      · exact h b (by simp) hempty
      · exact ih htail b hb hempty

section

variable {block : Block w} (hreal : block.isEmpty = false) {bs : List (Block w)}
  (hnodup : (ids bs).Nodup)
include hreal hnodup

/-- A block that comes back fills its own slot, and one that is new comes right after the others. -/
theorem compact_place (h : Compact bs) : Compact (place block (bs.map (vacate block.id))) := by
  induction bs with
  | nil =>
    apply List.pairwise_cons.2
    refine ⟨fun b _ hempty => ?_, List.pairwise_replicate.2 (.inr fun _ => Block.isEmpty_empty)⟩
    rw [hreal] at hempty
    cases hempty
  | cons b bs ih =>
    obtain ⟨hhead, htail⟩ := List.pairwise_cons.1 h
    rw [ids_cons] at hnodup
    rw [List.map_cons, place]
    by_cases hid : b.id = block.id
    · have hb : b.isEmpty = false := by rwa [Block.isEmpty, hid]
      rw [if_neg (by simp [hb]), List.nodup_cons] at hnodup
      have hne : ∀ c ∈ bs, c.id ≠ block.id := by
        intro c hc heq
        have hc' : c ∈ stored bs := mem_stored.2 ⟨hc, by rwa [Block.isEmpty, heq]⟩
        apply hnodup.1
        rw [hid, ← heq]
        exact List.mem_map_of_mem hc'
      have hvacate : vacate block.id b = Block.empty := if_pos hid
      rw [hvacate, Block.isEmpty_empty, if_pos rfl, map_vacate_of_ne hne]
      apply List.pairwise_cons.2
      refine ⟨fun c _ hempty => ?_, htail⟩
      rw [hreal] at hempty
      cases hempty
    · rw [vacate_of_ne hid]
      cases hempty : b.isEmpty with
      | false =>
        rw [if_neg (by simp [hempty])] at hnodup
        rw [if_neg (by decide)]
        apply List.pairwise_cons.2
        refine ⟨fun c _ h => ?_, ih (List.nodup_cons.1 hnodup).2 htail⟩
        rw [hempty] at h
        cases h
      | true =>
        -- All that follows is empty too.
        have hne : ∀ c ∈ bs, c.id ≠ block.id := by
          intro c hc heq
          have hc' := hhead c hc hempty
          rw [Block.isEmpty, heq] at hc'
          rw [Block.isEmpty, hc'] at hreal
          cases hreal
        rw [if_pos rfl, map_vacate_of_ne hne]
        apply List.pairwise_cons.2
        refine ⟨fun c _ h => ?_, htail⟩
        rw [hreal] at h
        cases h

theorem count_place : (place block (bs.map (vacate block.id))).countP (fun b => !b.isEmpty) =
    bs.countP (fun b => !b.isEmpty) + if block.id ∈ ids bs then 0 else 1 := by
  have hids : ((stored bs).filter fun b => b.id ≠ block.id).map Block.id = (ids bs).erase block.id := by
    rw [hnodup.erase_eq_filter, ids, List.filter_map]
    congr 2
    funext b
    by_cases hid : b.id = block.id <;> simp [hid]
  have hlength := congrArg List.length hids
  rw [List.length_map, List.length_erase] at hlength
  rw [List.countP_eq_length_filter, List.countP_eq_length_filter, ← stored, ← stored,
    (stored_place block hreal _).length_eq, List.length_cons, stored_map_vacate, hlength, ids,
    List.length_map]
  split
  next hmem =>
    have := List.length_pos_of_mem hmem
    rw [List.length_map] at this
    omega
  next => rfl

end

theorem isEmpty_of_mem_drop (s : Stash w) {b : Block w} (h : b ∈ s.overflow.drop s.overflowBound) :
    b.isEmpty = true := by
  have hsplit := List.takeWhile_append_dropWhile (p := Block.isEmpty)
    (l := s.overflow.reverse)
  have hrev := congrArg List.reverse hsplit
  rw [List.reverse_append, List.reverse_reverse] at hrev
  rw [← hrev, overflowBound, ← List.length_reverse, List.drop_left] at h
  rw [List.mem_reverse] at h
  exact List.mem_takeWhile_imp h

theorem overflowBound_le (s : Stash w) : s.overflowBound ≤ s.overflow.length := by
  have h := (List.dropWhile_suffix (l := s.overflow.reverse) Block.isEmpty).length_le
  rwa [List.length_reverse] at h

theorem isEmpty_of_mem_take {bs : List (Block w)} (h : Compact bs) {b : Block w}
    (hb : b ∈ bs.take (bs.countP fun b => !b.isEmpty)) : b.isEmpty = false := by
  induction bs with
  | nil => cases hb
  | cons a bs ih =>
    obtain ⟨hhead, htail⟩ := List.pairwise_cons.1 h
    rw [List.countP_cons] at hb
    cases hempty : a.isEmpty with
    | true =>
      have hnone : bs.countP (fun b => !b.isEmpty) = 0 := by
        rw [List.countP_eq_zero]
        intro c hc
        simp [hhead c hc hempty]
      rw [hnone, hempty] at hb
      cases hb
    | false =>
      rw [hempty, Bool.not_false, if_pos rfl, List.take_succ_cons] at hb
      obtain rfl | hb := List.mem_cons.1 hb
      · exact hempty
      · exact ih htail hb

theorem bound_of_compact {bs : List (Block w)} (h : Compact bs) :
    (bs.reverse.dropWhile Block.isEmpty).length = bs.countP fun b => !b.isEmpty := by
  induction bs using List.reverseRecOn with
  | nil => rfl
  | append_singleton bs b ih =>
    obtain ⟨hfront, -, hlast⟩ := List.pairwise_append.1 h
    rw [List.reverse_append, List.reverse_singleton, List.singleton_append, List.dropWhile_cons,
      List.countP_append, List.countP_singleton]
    by_cases hempty : b.isEmpty
    · simpa [hempty] using ih hfront
    · have hall : bs.countP (fun b => !b.isEmpty) = bs.length := by
        rw [List.countP_eq_length]
        intro a ha
        by_contra hne
        exact hempty (hlast a ha b (by simp) (by simpa using hne))
      simp [hempty, hall]

theorem overflowBound_of_compact {s : Stash w} (h : Compact s.overflow) :
    s.overflowBound = s.overflowCount := bound_of_compact h

end Stash

end ObliviousRam
