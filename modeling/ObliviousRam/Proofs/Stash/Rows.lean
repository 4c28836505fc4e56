import ObliviousRam.Proofs.Stash.Ingest
import ObliviousRam.Proofs.Stash.Ties

namespace ObliviousRam.Stash

variable {w : Nat}

def slotsAt (buckets : List (Bucket w)) (l : Nat) : List (Block w) :=
  (buckets[l]?.map Bucket.toList).getD []

theorem slotsAt_of_getElem? {buckets : List (Bucket w)} {l : Nat} {bucket : Bucket w}
    (h : buckets[l]? = some bucket) : slotsAt buckets l = bucket.toList := by
  rw [slotsAt, h, Option.map_some, Option.getD_some]

theorem slotsAt_of_le {buckets : List (Bucket w)} {l : Nat} (h : buckets.length ≤ l) :
    slotsAt buckets l = [] := by
  rw [slotsAt, List.getElem?_eq_none h, Option.map_none, Option.getD_none]

theorem slotsAt_concat_self (buckets : List (Bucket w)) (b : Bucket w) :
    slotsAt (buckets ++ [b]) buckets.length = b.toList :=
  slotsAt_of_getElem? List.getElem?_concat_length

theorem slotsAt_concat_of_ne (buckets : List (Bucket w)) (b : Bucket w) {l : Nat}
    (h : l ≠ buckets.length) : slotsAt (buckets ++ [b]) l = slotsAt buckets l := by
  by_cases hlt : l < buckets.length
  · rw [slotsAt, List.getElem?_append_left hlt, slotsAt]
  · rw [slotsAt_of_le (Nat.not_lt.1 hlt), slotsAt_of_le]
    rw [List.length_append, List.length_singleton]
    omega

theorem length_slotsAt {buckets : List (Bucket w)} {l : Nat} (h : l < buckets.length) :
    (slotsAt buckets l).length = Bucket.capacity := by
  rw [slotsAt_of_getElem? (List.getElem?_eq_getElem h), Bucket.length_toList]

theorem exists_of_mem_slotsAt {buckets : List (Bucket w)} {l : Nat} {b : Block w}
    (h : b ∈ slotsAt buckets l) : ∃ bucket, buckets[l]? = some bucket ∧ b ∈ bucket.toList := by
  cases hbucket : buckets[l]? with
  | none =>
    rw [slotsAt_of_le (List.getElem?_eq_none_iff.1 hbucket)] at h
    cases h
  | some bucket =>
    rw [slotsAt_of_getElem? hbucket] at h
    exact ⟨bucket, rfl, h⟩

/-- The slots of a row of buckets, each made into something that depends on its level. -/
def spread {α : Type} (f : Nat → Block w → α) (buckets : List (Bucket w)) : List α :=
  buckets.zipIdx.flatMap fun (bucket, level) => bucket.toList.map (f level)

section Spread

variable {α β : Type} (f : Nat → Block w → α)

theorem spread_concat (buckets : List (Bucket w)) (b : Bucket w) :
    spread f (buckets ++ [b]) = spread f buckets ++ b.toList.map (f buckets.length) := by
  rw [spread, List.zipIdx_append, List.flatMap_append, List.zipIdx_singleton, List.flatMap_singleton,
    Nat.zero_add, spread]

theorem map_spread (g : α → β) (buckets : List (Bucket w)) :
    (spread f buckets).map g = spread (fun l b => g (f l b)) buckets := by
  simp only [spread, List.map_flatMap, List.map_map]
  rfl

theorem spread_blocks (buckets : List (Bucket w)) :
    spread (fun _ b => b) buckets = buckets.flatMap Bucket.toList := by
  induction buckets using List.reverseRecOn with
  | nil => rfl
  | append_singleton buckets b ih =>
    rw [spread_concat, ih, List.map_id', List.flatMap_append, List.flatMap_singleton]

theorem spread_levels (buckets : List (Bucket w)) :
    spread (fun l _ => some l) buckets = rows buckets.length := by
  induction buckets using List.reverseRecOn with
  | nil => rfl
  | append_singleton buckets b ih =>
    rw [spread_concat, ih, List.length_append, List.length_singleton, rows_succ, List.map_const',
      Bucket.length_toList]

theorem filter_spread (q : α → Bool) (l : Nat) (hq : ∀ k b, q (f k b) = true → k = l)
    (buckets : List (Bucket w)) :
    (spread f buckets).filter q = ((slotsAt buckets l).map (f l)).filter q := by
  induction buckets using List.reverseRecOn with
  | nil => rfl
  | append_singleton buckets b ih =>
    rw [spread_concat, List.filter_append, ih]
    by_cases hl : l = buckets.length
    · rw [hl, slotsAt_of_le (Nat.le_refl _), slotsAt_concat_self]
      rfl
    · have hnone : (b.toList.map (f buckets.length)).filter q = [] := by
        rw [List.filter_eq_nil_iff]
        intro a ha hqa
        obtain ⟨c, -, rfl⟩ := List.mem_map.1 ha
        exact hl (hq _ _ hqa).symm
      rw [hnone, List.append_nil, slotsAt_concat_of_ne buckets b hl]

end Spread

def lying (l : Nat) (b : Block w) : Block w × Option Nat := (b, some l)

/-- All slots, each with the level where it lies. -/
def row (s : Stash w) : List (Block w × Option Nat) := spread lying s.path ++ s.overflow.map (·, none)

theorem row_blocks (s : Stash w) : s.row.map Prod.fst = s.slots := by
  have hpath : (spread lying s.path).map Prod.fst = s.path.flatMap Bucket.toList :=
    (map_spread lying Prod.fst s.path).trans (spread_blocks s.path)
  rw [row, List.map_append, hpath, List.map_map, slots]
  simp [Function.comp_def]

theorem row_levels (s : Stash w) :
    s.row.map Prod.snd = rows s.levels ++ List.replicate s.capacity none := by
  have hpath : (spread lying s.path).map Prod.snd = rows s.levels :=
    (map_spread lying Prod.snd s.path).trans (spread_levels s.path)
  rw [row, List.map_append, hpath, List.map_map]
  simp [Function.comp_def, capacity]

theorem row_evicted {s s' : Stash w} {placed : List (Block w × Option Nat)} {rest : Nat}
    (h : Evicted s s' placed) (hrows : placed.map Prod.snd = rows s.levels ++ List.replicate rest none) :
    s'.row = s.outcome placed := by
  have hblocks : s'.row.map Prod.fst = (s.outcome placed).map Prod.fst := by
    rw [row_blocks, outcome_blocks, h.slots]
  have hlevels : (s.outcome placed).map Prod.snd =
      rows s.levels ++ List.replicate (rest + (s.overflow.drop s.overflowBound).length) none := by
    rw [outcome, List.map_append, hrows, List.map_map, List.append_assoc, List.replicate_add]
    simp [Function.comp_def]
  have hlength : s'.capacity = rest + (s.overflow.drop s.overflowBound).length := by
    have hlength := congrArg List.length hblocks
    have hrow := congrArg List.length s'.row_levels
    have hplaced := congrArg List.length hlevels
    simp only [List.length_map, List.length_append, List.length_replicate, h.levels] at hlength hrow hplaced
    omega
  rw [← hlength, ← h.levels, ← row_levels] at hlevels
  rw [← List.zip_unzip s'.row, ← List.zip_unzip (s.outcome placed), List.unzip_fst, List.unzip_snd,
    List.unzip_fst, List.unzip_snd, hblocks, hlevels]

theorem sentTo_row_some {s : Stash w} {l : Nat} {bucket : Bucket w} (h : s.path[l]? = some bucket) :
    (sentTo (some l) s.row).map Prod.fst = bucket.toList := by
  have hpath : (spread lying s.path).filter (·.2 == some l) = bucket.toList.map (lying l) := by
    rw [filter_spread lying _ l fun k b hk => Option.some.inj (beq_iff_eq.1 hk), slotsAt_of_getElem? h,
      List.filter_eq_self]
    intro e he
    obtain ⟨b, -, rfl⟩ := List.mem_map.1 he
    exact beq_self_eq_true _
  have hoverflow : (s.overflow.map (·, (none : Option Nat))).filter (·.2 == some l) = [] := by
    rw [List.filter_eq_nil_iff]
    intro e he
    obtain ⟨b, -, rfl⟩ := List.mem_map.1 he
    exact Bool.false_ne_true
  rw [sentTo, row, List.filter_append, hpath, hoverflow, List.append_nil, List.map_map]
  exact List.map_id' _

theorem sentTo_row_none (s : Stash w) : (sentTo none s.row).map Prod.fst = s.overflow := by
  rw [sentTo_none_of_rows s.row_levels, List.map_drop, row_blocks, slots]
  exact drop_flatMap s.path s.overflow

theorem perm_of_row {s s' : Stash w} (hlevels : s'.levels = s.levels) (h : s.row.Perm s'.row) :
    (∀ l < s.levels, ∃ bucket bucket', s.bucketAt l = .ok bucket ∧ s'.bucketAt l = .ok bucket' ∧
      bucket.toList.Perm bucket'.toList) ∧ s.overflow.Perm s'.overflow := by
  have hsent : ∀ level, ((sentTo level s.row).map Prod.fst).Perm ((sentTo level s'.row).map Prod.fst) :=
    fun level => (h.filter _).map _
  refine ⟨fun l hl => ?_, ?_⟩
  · have hbucket := List.getElem?_eq_getElem (l := s.path) (i := l) hl
    have hbucket' := List.getElem?_eq_getElem (l := s'.path) (i := l) (by rw [← hlevels] at hl; exact hl)
    refine ⟨_, _, (bucketAt_eq_ok_iff s l _).2 hbucket, (bucketAt_eq_ok_iff s' l _).2 hbucket', ?_⟩
    rw [← sentTo_row_some hbucket, ← sentTo_row_some hbucket']
    exact hsent (some l)
  · rw [← s.sentTo_row_none, ← s'.sentTo_row_none]
    exact hsent none

theorem mem_row_of_mem_slotsAt {s : Stash w} {l : Nat} {b : Block w} (h : b ∈ slotsAt s.path l) :
    (b, some l) ∈ s.row := by
  obtain ⟨bucket, hbucket, hb⟩ := exists_of_mem_slotsAt h
  rw [← sentTo_row_some hbucket] at hb
  obtain ⟨e, he, rfl⟩ := List.mem_map.1 hb
  obtain ⟨hmem, hlevel⟩ := mem_sentTo.1 he
  rwa [← hlevel]

end ObliviousRam.Stash
