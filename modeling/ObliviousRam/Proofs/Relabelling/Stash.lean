import ObliviousRam.Proofs.Stash.Eviction

namespace ObliviousRam

variable {w v : Nat}

/-- A change of the ids and of the data of all blocks, which tells the ids apart as before and does
not change empty slots. -/
structure Relabelling (w v : Nat) where
  id : Word → Word
  data : Vector Word w → Vector Word v
  id_injective : Function.Injective id
  id_empty : id Word.allOnes = Word.allOnes
  data_empty : data (Vector.replicate w Word.allOnes) = Vector.replicate v Word.allOnes

theorem bind_map_congr {m : Type → Type} [Monad m] [LawfulMonad m] {α α' β β' : Type} {x : m α}
    {x' : m α'} {g : α → α'} {h : β → β'} {f : α → m β} {f' : α' → m β'} (hx : x' = g <$> x)
    (hf : ∀ a, f' (g a) = h <$> f a) : x' >>= f' = h <$> (x >>= f) := by
  rw [hx, map_bind, bind_map_left]
  exact bind_congr hf

theorem foldlM_map_congr {m : Type → Type} [Monad m] [LawfulMonad m] {ι α α' : Type} {g : α → α'}
    {f : α → ι → m α} {f' : α' → ι → m α'} (h : ∀ a i, f' (g a) i = g <$> f a i) (l : List ι) (a : α) :
    l.foldlM f' (g a) = g <$> l.foldlM f a := by
  induction l generalizing a with
  | nil => rw [List.foldlM_nil, List.foldlM_nil, map_pure]
  | cons i l ih =>
    rw [List.foldlM_cons, List.foldlM_cons]
    exact bind_map_congr (h a i) ih

namespace Relabelling

variable (r : Relabelling w v)

def block (b : Block w) : Block v := ⟨r.id b.id, b.position, r.data b.data⟩

def bucket (b : Bucket w) : Bucket v := ⟨b.blocks.map r.block⟩

def stash (s : Stash w) : Stash v := ⟨s.network, s.path.map r.bucket, s.overflow.map r.block⟩

theorem id_eq_iff {i j : Word} : r.id i = r.id j ↔ i = j := r.id_injective.eq_iff

@[simp] theorem isEmpty_block (b : Block w) : (r.block b).isEmpty = b.isEmpty := by
  have h : r.id b.id = Word.allOnes ↔ b.id = Word.allOnes := by
    rw [← r.id_eq_iff (i := b.id) (j := Word.allOnes), r.id_empty]
  rw [Bool.eq_iff_iff, Block.isEmpty_iff, Block.isEmpty_iff]
  exact h

@[simp] theorem block_empty : r.block Block.empty = Block.empty := by
  rw [block, Block.empty, Block.empty, r.id_empty, r.data_empty]

theorem isEmpty_comp : Block.isEmpty ∘ r.block = Block.isEmpty := funext r.isEmpty_block

@[simp] theorem toList_bucket (b : Bucket w) : (r.bucket b).toList = b.toList.map r.block :=
  Vector.toList_map

theorem bucket_ofList (bs : List (Block w)) :
    r.bucket (Bucket.ofList bs) = Bucket.ofList (bs.map r.block) := by
  have h : ∀ i, (bs.map r.block).getD i Block.empty = r.block (bs.getD i Block.empty) := by
    intro i
    rw [List.getD_eq_getElem?_getD, List.getElem?_map, ← r.block_empty, Option.getD_map,
      List.getD_eq_getElem?_getD]
  rw [Bucket.ofList, Bucket.ofList, h, h, h, bucket]
  simp only [Vector.map_mk, List.map_toArray, List.map_cons, List.map_nil]

@[simp] theorem bucket_empty : r.bucket Bucket.empty = Bucket.empty := by
  rw [bucket, Bucket.empty, Bucket.empty, Vector.map_replicate, r.block_empty]

section Loading

@[simp] theorem levels_stash (s : Stash w) : (r.stash s).levels = s.levels := List.length_map ..

theorem extract_block (id : Word) (slot target : Block w) :
    Stash.extract (r.id id) (r.block slot) (r.block target) =
      Prod.map r.block r.block <$> Stash.extract id slot target := by
  have hid : (r.block slot).id = r.id id ↔ slot.id = id := r.id_eq_iff
  rw [Stash.extract, Stash.extract, r.isEmpty_block]
  simp only [hid]
  split
  · split <;> rfl
  · rfl

theorem extractAll_map (id : Word) (bs : List (Block w)) (target : Block w) :
    Stash.extractAll (r.id id) (bs.map r.block) (r.block target) =
      Prod.map (List.map r.block) r.block <$> Stash.extractAll id bs target := by
  induction bs generalizing target with
  | nil => rfl
  | cons b bs ih =>
    rw [List.map_cons, Stash.extractAll_cons, Stash.extractAll_cons]
    apply bind_map_congr (r.extract_block id b target)
    rintro ⟨slot, target⟩
    apply bind_map_congr (ih target)
    rintro ⟨rest, target⟩
    rfl

theorem overflowBound_stash (s : Stash w) : (r.stash s).overflowBound = s.overflowBound := by
  rw [Stash.overflowBound, Stash.overflowBound, stash, ← List.map_reverse, List.dropWhile_map,
    r.isEmpty_comp, List.length_map]

theorem load_stash (s : Stash w) (level : Nat) (bucket : Bucket w) (id : Word) (target : Block w) :
    (r.stash s).load level (r.bucket bucket) (r.id id) (r.block target) =
      Prod.map r.stash r.block <$> s.load level bucket id target := by
  rw [Stash.load, Stash.load, r.levels_stash, r.toList_bucket]
  by_cases h : level < s.levels
  · simp only [if_pos h]
    apply bind_map_congr (r.extractAll_map id bucket.toList target)
    rintro ⟨blocks, target⟩
    simp only [Prod.map, map_pure, stash, List.map_set, bucket_ofList]
  · simp only [if_neg h]
    rfl

theorem takeOverflow_stash (s : Stash w) (id : Word) (target : Block w) :
    (r.stash s).takeOverflow (r.id id) (r.block target) =
      Prod.map r.stash r.block <$> s.takeOverflow id target := by
  rw [Stash.takeOverflow, Stash.takeOverflow, r.overflowBound_stash]
  have htake : (r.stash s).overflow.take s.overflowBound =
      (s.overflow.take s.overflowBound).map r.block := List.map_take.symm
  rw [htake]
  apply bind_map_congr (r.extractAll_map id _ target)
  rintro ⟨blocks, target⟩
  simp only [Prod.map, map_pure, stash, List.map_append, List.map_drop]

theorem isFull_stash (s : Stash w) : (r.stash s).isFull = s.isFull := by
  rw [Stash.isFull, Stash.isFull, stash, List.all_map]
  congr 1
  funext b
  rw [Function.comp_apply, r.isEmpty_block]

theorem capacity_stash (s : Stash w) : (r.stash s).capacity = s.capacity := List.length_map ..

theorem overflowCount_stash (s : Stash w) : (r.stash s).overflowCount = s.overflowCount := by
  rw [Stash.overflowCount, Stash.overflowCount, stash, List.countP_map]
  congr 1
  funext b
  rw [Function.comp_apply, r.isEmpty_block]

theorem place_map (block : Block w) (bs : List (Block w)) :
    Stash.place (r.block block) (bs.map r.block) = (Stash.place block bs).map r.block := by
  induction bs with
  | nil => rw [List.map_nil, Stash.place, Stash.place, List.map_cons, List.map_replicate, r.block_empty]
  | cons b bs ih =>
    rw [List.map_cons, Stash.place, Stash.place, r.isEmpty_block]
    split
    · rfl
    · rw [ih, List.map_cons]

theorem insert_stash (s : Stash w) (block : Block w) :
    (r.stash s).insert (r.block block) = r.stash (s.insert block) := by
  rw [Stash.insert, Stash.insert, stash, r.place_map, stash]

theorem bucketAt_stash (s : Stash w) (level : Nat) :
    (r.stash s).bucketAt level = r.bucket <$> s.bucketAt level := by
  rw [Stash.bucketAt, Stash.bucketAt, stash, List.getElem?_map]
  cases s.path[level]? <;> rfl

end Loading

section Eviction

open Stash

def candidate (c : Nat × Block w) : Nat × Block v := (c.1, r.block c.2)

def entry (e : Block w × Option Nat) : Block v × Option Nat := (r.block e.1, e.2)

theorem candidates_stash (s : Stash w) :
    (r.stash s).candidates = s.candidates.map r.candidate := by
  rw [candidates, candidates, r.overflowBound_stash, r.levels_stash, List.map_append,
    List.map_flatMap, stash, List.zipIdx_map, List.flatMap_map, List.map_map, ← List.map_take,
    List.map_map]
  congr 1
  apply List.flatMap_congr
  rintro ⟨bucket, level⟩ -
  rw [List.map_map]
  exact (congrArg (List.map _) (r.toList_bucket bucket)).trans (List.map_map ..)

theorem choose_block (reach : Nat) (b : Block w) (tiers : List Tier) :
    choose reach (r.block b) tiers = choose reach b tiers := by
  rw [choose, choose, r.isEmpty_block]
  rfl

theorem assign_map (cs : List (Nat × Block w)) (tiers : List Tier) :
    assign (cs.map r.candidate) tiers =
      Prod.map (List.map r.entry) (fun tiers => tiers) (assign cs tiers) := by
  induction cs generalizing tiers with
  | nil => rfl
  | cons c cs ih =>
    rw [List.map_cons, candidate, assign_cons, assign_cons, r.choose_block, ih]
    rfl

theorem refill_entry (e : Block w × Option Nat) (tiers : List Tier) :
    refill (r.entry e) tiers = refill e tiers := by
  rw [refill, refill, entry, r.isEmpty_block]

theorem pad_map (placed : List (Block w × Option Nat)) (tiers : List Tier) :
    pad (placed.map r.entry) tiers =
      Prod.map (List.map r.entry) (fun tiers => tiers) (pad placed tiers) := by
  induction placed generalizing tiers with
  | nil => rfl
  | cons e placed ih =>
    rw [List.map_cons, pad_cons, pad_cons, r.refill_entry, ih]
    rfl

theorem regroup_map (count : Nat) (bs : List (Block w)) :
    regroup count (bs.map r.block) = (regroup count bs).map r.bucket := by
  induction count generalizing bs with
  | zero => rfl
  | succ count ih =>
    rw [regroup, regroup, List.map_cons, r.bucket_ofList, ← ih, List.map_drop]

theorem arrange_stash (s : Stash w) (p : Path) :
    (r.stash s).arrange p = List.map r.entry <$> s.arrange p := by
  have hsort : ∀ placed, ((r.stash s).network.sort evictedAfter
      (List.map r.entry placed).toArray.toVector).toList = List.map r.entry
        (s.network.sort evictedAfter placed.toArray.toVector).toList := fun placed =>
    SortNetwork.toList_sort_map (fun _ _ => rfl) s.network placed
  rw [arrange, arrange, r.levels_stash, r.candidates_stash]
  by_cases hlen : p.length = s.levels
  · simp only [if_pos hlen]
    cases p.nodes.mapM Tier.ofNode with
    | error e => rfl
    | ok tiers =>
      have hplaced : (pad (assign (s.candidates.map r.candidate) tiers).1
          (assign (s.candidates.map r.candidate) tiers).2).1 =
            (pad (assign s.candidates tiers).1 (assign s.candidates tiers).2).1.map r.entry := by
        rw [r.assign_map]
        exact congrArg Prod.fst (r.pad_map _ _)
      have htiers : (pad (assign (s.candidates.map r.candidate) tiers).1
          (assign (s.candidates.map r.candidate) tiers).2).2 =
            (pad (assign s.candidates tiers).1 (assign s.candidates tiers).2).2 := by
        rw [r.assign_map]
        exact congrArg Prod.snd (r.pad_map _ _)
      simp only [bind, Except.bind, pure, Except.pure, htiers]
      split
      · rw [hplaced, hsort]
        rfl
      · rfl
  · simp only [if_neg hlen]
    rfl

theorem evict_stash (s : Stash w) (p : Path) : (r.stash s).evict p = r.stash <$> s.evict p := by
  rw [evict, evict, r.overflowBound_stash, r.levels_stash]
  apply bind_map_congr (r.arrange_stash s p)
  intro placed
  have hblocks : (placed.map r.entry).map Prod.fst = (placed.map Prod.fst).map r.block := by
    rw [List.map_map, List.map_map]
    rfl
  rw [hblocks]
  simp only [r.regroup_map, map_pure, stash, List.map_append, List.map_drop]

end Eviction

end Relabelling

end ObliviousRam
