import ObliviousRam.Proofs.Stash.Eviction

namespace ObliviousRam

variable {w : Nat}

def Bucket.vacate (id : Word) (b : Bucket w) : Bucket w := ofList (b.toList.map (Slots.vacate id))

theorem Bucket.toList_vacate (id : Word) (b : Bucket w) :
    (b.vacate id).toList = b.toList.map (Slots.vacate id) := toList_ofList (by simp)

theorem Bucket.ofList_toList (b : Bucket w) : ofList b.toList = b := by
  have hblocks := Vector.toList_inj.1 (toList_ofList b.length_toList)
  rw [← mk.injEq] at hblocks
  exact hblocks

namespace Stash

open Slots

def loadBucket (id : Word) : Stash w × Block w → Bucket w × Nat →
    Except Fault (Stash w × Block w)
  | (s, target), (bucket, level) => s.load level bucket id target

/-- Loads the buckets of a path, the leaf's first, and takes block `id` out of them or out of the
overflow region. -/
def ingest (s : Stash w) (buckets : List (Bucket w)) (id : Word) :
    Except Fault (Stash w × Block w) := do
  let (s, target) ← buckets.zipIdx.foldlM (loadBucket id) (s, Block.empty)
  s.takeOverflow id target

theorem load_eq (s : Stash w) (level : Nat) (h : level < s.levels) (bucket : Bucket w) (id : Word)
    (target : Block w) : s.load level bucket id target = do
      let (blocks, target) ← extractAll id bucket.toList target
      return ({ s with path := s.path.set level (Bucket.ofList blocks) }, target) := by
  rw [load, if_pos h]

theorem takeOverflow_eq (s : Stash w) (id : Word) (hid : id ≠ Word.allOnes) (target : Block w) :
    s.takeOverflow id target = do
      let (blocks, target) ← extractAll id s.overflow target
      return ({ s with overflow := blocks }, target) := by
  have hback : ∀ b ∈ s.overflow.drop s.overflowBound, b.id ≠ id := by
    intro b hb h
    have hempty := isEmpty_of_mem_drop s hb
    rw [Block.isEmpty_iff, h] at hempty
    exact hid hempty
  have hsplit := extractAll_append id (s.overflow.take s.overflowBound)
    (s.overflow.drop s.overflowBound) target
  rw [List.take_append_drop] at hsplit
  rw [hsplit, takeOverflow]
  cases extractAll id (s.overflow.take s.overflowBound) target with
  | error e => rfl
  | ok x => simp only [bind, Except.bind, pure, Except.pure, extractAll_of_notMem id _ hback]

theorem regroup_append (count : Nat) (bs cs : List (Block w)) (h : bs.length = Bucket.capacity) :
    regroup (count + 1) (bs ++ cs) = Bucket.ofList bs :: regroup count cs := by
  obtain ⟨a, b, c, rfl⟩ := List.length_eq_three.1 h
  rfl

theorem regroup_append_of_length (count : Nat) (bs cs : List (Block w))
    (h : bs.length = Bucket.capacity * count) : regroup count (bs ++ cs) = regroup count bs := by
  induction count generalizing bs with
  | zero => rfl
  | succ count ih =>
    rw [Nat.mul_succ] at h
    have hsplit := List.take_append_drop Bucket.capacity bs
    have htake : (bs.take Bucket.capacity).length = Bucket.capacity := by
      rw [List.length_take]
      omega
    rw [← hsplit, List.append_assoc, regroup_append _ _ _ htake, regroup_append _ _ _ htake,
      ih _ (by rw [List.length_drop]; omega)]

theorem regroup_flatMap (buckets : List (Bucket w)) (bs : List (Block w)) :
    regroup buckets.length (buckets.flatMap Bucket.toList ++ bs) = buckets := by
  induction buckets with
  | nil => rfl
  | cons b buckets ih =>
    rw [List.flatMap_cons, List.append_assoc, List.length_cons, regroup_append _ _ _ (by simp), ih,
      Bucket.ofList_toList]

theorem drop_flatMap (buckets : List (Bucket w)) (bs : List (Block w)) :
    (buckets.flatMap Bucket.toList ++ bs).drop (Bucket.capacity * buckets.length) = bs :=
  List.drop_left' (length_flatMap_toList buckets)

/-- The buckets that are loaded take the place of those that stood there, from level `k` on. -/
theorem foldlM_loadBucket (id : Word) (buckets : List (Bucket w)) (k : Nat) (s : Stash w)
    (target : Block w) (hroom : k + buckets.length ≤ s.levels) :
    (buckets.zipIdx k).foldlM (loadBucket id) (s, target) = do
      let (blocks, target) ← extractAll id (buckets.flatMap Bucket.toList) target
      return ({ s with
        path := s.path.take k ++ regroup buckets.length blocks ++ s.path.drop (k + buckets.length) },
        target) := by
  induction buckets generalizing k s target with
  | nil => simp [extractAll, regroup, pure, Except.pure, bind, Except.bind]
  | cons bucket buckets ih =>
    rw [List.length_cons] at hroom
    have hk : k < s.path.length := by
      rw [levels] at hroom
      omega
    rw [List.zipIdx_cons, List.foldlM_cons, loadBucket, load_eq _ _ hk, List.flatMap_cons,
      extractAll_append]
    cases hbucket : extractAll id bucket.toList target with
    | error e => rfl
    | ok y =>
      have hlength := length_of_extractAll hbucket
      rw [Bucket.length_toList] at hlength
      have hfront : (s.path.set k (Bucket.ofList y.1)).take (k + 1) =
          s.path.take k ++ [Bucket.ofList y.1] := by
        rw [List.take_add_one, List.take_set_of_le (Nat.le_refl k), List.getElem?_set_self hk,
          Option.toList_some]
      have hback : (s.path.set k (Bucket.ofList y.1)).drop (k + 1 + buckets.length) =
          s.path.drop (k + (buckets.length + 1)) := by
        rw [List.drop_set_of_lt (by omega), Nat.add_assoc, Nat.add_comm 1]
      have hroom' : k + 1 + buckets.length ≤ (s.path.set k (Bucket.ofList y.1)).length := by
        rw [List.length_set]
        rw [levels] at hroom
        omega
      have hrest := ih (k + 1) { s with path := s.path.set k (Bucket.ofList y.1) } y.2 hroom'
      simp only [bind, Except.bind, pure, Except.pure] at hrest ⊢
      rw [hrest, hfront, hback]
      cases hnext : extractAll id (buckets.flatMap Bucket.toList) y.2 with
      | error e => rfl
      | ok z =>
        simp only [List.length_cons, regroup_append _ _ _ hlength, List.append_assoc,
          List.cons_append, List.nil_append]

def incoming (s : Stash w) (buckets : List (Bucket w)) : List (Block w) :=
  buckets.flatMap Bucket.toList ++ s.overflow

theorem map_vacate_incoming (s : Stash w) (buckets : List (Bucket w)) (id : Word) :
    (s.incoming buckets).map (vacate id) =
      (buckets.map (Bucket.vacate id)).flatMap Bucket.toList ++ s.overflow.map (vacate id) := by
  rw [incoming, List.map_append, List.map_flatMap, List.flatMap_map]
  congr 1
  exact List.flatMap_congr fun b _ => (b.toList_vacate id).symm

section

variable (s : Stash w) {buckets : List (Bucket w)} {id : Word} (hlevels : buckets.length = s.levels)
  (hid : id ≠ Word.allOnes)
include hlevels hid

theorem ingest_eq : s.ingest buckets id = do
    let (blocks, target) ← extractAll id (s.incoming buckets) Block.empty
    return ({ s with
      path := regroup s.levels blocks
      overflow := blocks.drop (Bucket.capacity * s.levels) }, target) := by
  have hload := foldlM_loadBucket id buckets 0 s Block.empty (by rw [Nat.zero_add, hlevels])
  have hdrop : s.path.drop (0 + buckets.length) = [] := by
    rw [Nat.zero_add, hlevels]
    exact List.drop_length
  rw [ingest, hload, incoming, extractAll_append, hdrop]
  cases hpath : extractAll id (buckets.flatMap Bucket.toList) Block.empty with
  | error e => rfl
  | ok x =>
    have hlength := length_of_extractAll hpath
    rw [length_flatMap_toList, hlevels] at hlength
    simp only [bind, Except.bind, pure, Except.pure, List.take_zero, List.nil_append,
      List.append_nil]
    rw [takeOverflow_eq _ id hid]
    cases extractAll id s.overflow x.2 with
    | error e => rfl
    | ok y =>
      simp only [bind, Except.bind, pure, Except.pure, hlevels,
        regroup_append_of_length _ _ _ hlength, List.drop_left' hlength]

theorem ingest_eq_ok (hcount : (s.incoming buckets).countP (fun b => b.id == id) ≤ 1) :
    s.ingest buckets id = .ok ({ s with
      path := buckets.map (Bucket.vacate id)
      overflow := s.overflow.map (vacate id) }, pick id (s.incoming buckets)) := by
  have hlength : (buckets.map (Bucket.vacate id)).length = s.levels := by
    rw [List.length_map, hlevels]
  have hregroup := regroup_flatMap (buckets.map (Bucket.vacate id)) (s.overflow.map (vacate id))
  have hdrop := drop_flatMap (buckets.map (Bucket.vacate id)) (s.overflow.map (vacate id))
  rw [hlength] at hregroup hdrop
  rw [s.ingest_eq hlevels hid, extractAll_eq id _ hcount]
  simp only [bind, Except.bind, pure, Except.pure, map_vacate_incoming, hregroup, hdrop]

theorem ingest_path {stale : List (Bucket w)} (hstale : stale.length = s.levels) :
    ({ s with path := stale } : Stash w).ingest buckets id = s.ingest buckets id := by
  have hsame : ({ s with path := stale } : Stash w).levels = s.levels := hstale
  rw [ingest_eq { s with path := stale } (hlevels.trans hsame.symm) hid, s.ingest_eq hlevels hid,
    hsame]
  rfl

end

theorem extractAll_of_taken {id : Word} {bs : List (Block w)} {b target : Block w} (hb : b ∈ bs)
    (hid : b.id = id) (htarget : target.isEmpty = false) :
    extractAll id bs target = .error .duplicateBlock := by
  induction bs with
  | nil => cases hb
  | cons a bs ih =>
    rw [extractAll_cons, extract]
    by_cases ha : a.id = id
    · rw [if_pos ha, htarget]
      rfl
    · obtain rfl | hb := List.mem_cons.1 hb
      · exact absurd hid ha
      · rw [if_neg ha]
        simp only [bind, Except.bind, ih hb]

/-- Once a block was found, its second copy is noticed. -/
theorem extractAll_of_two_le {id : Word} (hid : id ≠ Word.allOnes) {bs : List (Block w)}
    (hcount : 2 ≤ bs.countP (fun b => b.id == id)) :
    extractAll id bs Block.empty = .error .duplicateBlock := by
  induction bs with
  | nil => cases hcount
  | cons a bs ih =>
    rw [List.countP_cons] at hcount
    rw [extractAll_cons, extract]
    by_cases ha : a.id = id
    · have hreal : a.isEmpty = false := by simpa [Block.isEmpty, ha] using hid
      have hrest : 0 < bs.countP (fun b => b.id == id) := by
        rw [beq_iff_eq.2 ha, if_pos rfl] at hcount
        omega
      obtain ⟨b, hb, hbid⟩ := List.countP_pos_iff.1 hrest
      rw [if_pos ha, Block.isEmpty_empty, if_pos rfl]
      simp only [bind, Except.bind, extractAll_of_taken hb (beq_iff_eq.1 hbid) hreal]
    · rw [if_neg (by simpa using ha), Nat.add_zero] at hcount
      rw [if_neg ha]
      simp only [bind, Except.bind, ih hcount]

/-- As a path is loaded, the one copy of block `id` is taken from its slot, wherever that is, and
nothing else changes. A second copy ends the run. What the path region held before plays no part. -/
theorem ingest_takes (s : Stash w) (buckets : List (Bucket w)) (id : Word)
    (hlevels : buckets.length = s.levels) (hid : id ≠ Word.allOnes) :
    ((∀ b ∈ s.incoming buckets, b.id ≠ id) →
      s.ingest buckets id = .ok ({ s with path := buckets }, Block.empty)) ∧
    (∀ front b back, s.incoming buckets = front ++ b :: back → b.id = id →
      (∀ c ∈ front ++ back, c.id ≠ id) → ∃ s', s.ingest buckets id = .ok (s', b) ∧
        s'.slots = front ++ Block.empty :: back ∧ s'.levels = s.levels ∧
        s'.capacity = s.capacity ∧ s'.network = s.network) ∧
    (2 ≤ (s.incoming buckets).countP (fun b => b.id == id) → ∃ fault,
      s.ingest buckets id = .error fault ∧
        fault.message? = some "block found in more than one slot") ∧
    ∀ stale, stale.length = s.levels →
      ({ s with path := stale } : Stash w).ingest buckets id = s.ingest buckets id := by
  refine ⟨fun hnone => ?_, fun front b back hsplit hb hothers => ?_, fun htwo => ?_,
    fun stale hstale => s.ingest_path hlevels hid hstale⟩
  · have hregroup := regroup_flatMap buckets s.overflow
    have hdrop := drop_flatMap buckets s.overflow
    rw [hlevels] at hregroup hdrop
    rw [s.ingest_eq hlevels hid, extractAll_of_notMem id _ hnone]
    simp only [bind, Except.bind, pure, Except.pure, incoming, hregroup, hdrop]
  · obtain ⟨hfront, hback⟩ := List.forall_mem_append.1 hothers
    have hcount : (s.incoming buckets).countP (fun b => b.id == id) ≤ 1 := by
      have hnone : ∀ bs : List (Block w), (∀ c ∈ bs, c.id ≠ id) →
          bs.countP (fun b => b.id == id) = 0 := fun bs h => by
        rw [List.countP_eq_zero]
        exact fun c hc => by simpa using h c hc
      rw [hsplit, List.countP_append, List.countP_cons, hnone front hfront, hnone back hback]
      split <;> omega
    have hb' : b ∈ s.incoming buckets := hsplit ▸ List.mem_append_right front List.mem_cons_self
    have hingest := s.ingest_eq_ok hlevels hid hcount
    rw [pick_mem hb' hb hcount] at hingest
    refine ⟨_, hingest, ?_, ?_, ?_, rfl⟩
    · rw [slots, ← map_vacate_incoming, hsplit, List.map_append, List.map_cons,
        map_vacate_of_ne hfront, map_vacate_of_ne hback, vacate, if_pos hb]
    · rw [levels, List.length_map, hlevels]
    · rw [capacity, List.length_map, capacity]
  · refine ⟨.duplicateBlock, ?_, rfl⟩
    rw [s.ingest_eq hlevels hid, extractAll_of_two_le hid htwo]
    rfl

/-- The path region still holds block 7 from an access before, and the overflow region has it now. -/
def stale : Stash 1 where
  network := .bitonic
  path := [Bucket.ofList [⟨7, 0, #v[11]⟩]]
  overflow := [⟨5, 0, #v[12]⟩, Block.empty, ⟨7, 2, #v[13]⟩]

theorem ingest_takes_stale : stale.levels = 1 ∧ (6 : Word) ≠ Word.allOnes ∧
    stale.ingest [Bucket.ofList [⟨4, 0, #v[14]⟩]] 6 =
      .ok ({ stale with path := [Bucket.ofList [⟨4, 0, #v[14]⟩]] }, Block.empty) ∧
    (∃ s', stale.ingest [Bucket.ofList [⟨4, 0, #v[14]⟩]] 7 = .ok (s', ⟨7, 2, #v[13]⟩) ∧ s'.slots =
      [⟨4, 0, #v[14]⟩, Block.empty, Block.empty, ⟨5, 0, #v[12]⟩, Block.empty, Block.empty]) ∧
    ∃ fault, stale.ingest [Bucket.ofList [Block.empty, ⟨7, 2, #v[13]⟩]] 7 = .error fault ∧
      fault.message? = some "block found in more than one slot" := by
  obtain ⟨hnone, -⟩ := ingest_takes stale [Bucket.ofList [⟨4, 0, #v[14]⟩]] 6 rfl (by decide)
  obtain ⟨-, hone, -⟩ := ingest_takes stale [Bucket.ofList [⟨4, 0, #v[14]⟩]] 7 rfl (by decide)
  obtain ⟨-, -, htwo, -⟩ := ingest_takes stale [Bucket.ofList [Block.empty, ⟨7, 2, #v[13]⟩]] 7 rfl
    (by decide)
  obtain ⟨s', hingest, hslots, -⟩ := hone
    [⟨4, 0, #v[14]⟩, Block.empty, Block.empty, ⟨5, 0, #v[12]⟩, Block.empty] ⟨7, 2, #v[13]⟩ [] rfl rfl
    (by decide)
  exact ⟨rfl, by decide, hnone (by decide), ⟨s', hingest, hslots⟩, htwo (by decide)⟩

end Stash

end ObliviousRam
