import ObliviousRam.Proofs.Layer.Counters
import ObliviousRam.Proofs.Lockstep.Engine

namespace ObliviousRam

variable {w : Nat} {σ : Type}

namespace Slots

def Padded (as bs : List (Block w)) : Prop :=
  ∃ core m n, as = core ++ List.replicate m Block.empty ∧ bs = core ++ List.replicate n Block.empty

theorem bound_append_replicate (core : List (Block w)) (n : Nat) :
    (core ++ List.replicate n Block.empty).reverse.dropWhile Block.isEmpty =
      core.reverse.dropWhile Block.isEmpty := by
  rw [List.reverse_append, List.reverse_replicate]
  induction n with
  | zero => rfl
  | succ n ih =>
    rw [List.replicate_succ, List.cons_append, List.dropWhile_cons_of_pos Block.isEmpty_empty, ih]

namespace Padded

variable {as bs : List (Block w)}

theorem refl (as : List (Block w)) : Padded as as := by
  have has : as = as ++ List.replicate 0 Block.empty := (List.append_nil as).symm
  exact ⟨as, 0, 0, has, has⟩

theorem replicate (m n : Nat) :
    Padded (List.replicate m (Block.empty (w := w))) (List.replicate n Block.empty) :=
  ⟨[], m, n, rfl, rfl⟩

variable (h : Padded as bs)
include h

theorem append (cs : List (Block w)) : Padded (cs ++ as) (cs ++ bs) := by
  obtain ⟨core, m, n, rfl, rfl⟩ := h
  exact ⟨cs ++ core, m, n, (List.append_assoc ..).symm, (List.append_assoc ..).symm⟩

theorem drop (k : Nat) : Padded (as.drop k) (bs.drop k) := by
  obtain ⟨core, m, n, rfl, rfl⟩ := h
  rw [List.drop_append, List.drop_append, List.drop_replicate, List.drop_replicate]
  exact ⟨core.drop k, _, _, rfl, rfl⟩

theorem bound_eq : (bs.reverse.dropWhile Block.isEmpty).length =
    (as.reverse.dropWhile Block.isEmpty).length := by
  obtain ⟨core, m, n, rfl, rfl⟩ := h
  rw [bound_append_replicate, bound_append_replicate]

theorem take_bound : bs.take (as.reverse.dropWhile Block.isEmpty).length =
    as.take (as.reverse.dropWhile Block.isEmpty).length := by
  obtain ⟨core, m, n, rfl, rfl⟩ := h
  have hle : (core.reverse.dropWhile Block.isEmpty).length ≤ core.length := by
    rw [← core.length_reverse]
    exact (List.dropWhile_sublist _).length_le
  rw [bound_append_replicate, List.take_append_of_le_length hle, List.take_append_of_le_length hle]

theorem count_eq : bs.countP (fun b => !b.isEmpty) = as.countP fun b => !b.isEmpty := by
  obtain ⟨core, m, n, rfl, rfl⟩ := h
  simp only [List.countP_append, List.countP_replicate, Block.isEmpty_empty, Bool.not_true,
    Bool.false_eq_true, ↓reduceIte]

theorem place (block : Block w) : Padded (Stash.place block as) (Stash.place block bs) := by
  obtain ⟨core, m, n, rfl, rfl⟩ := h
  induction core with
  | nil =>
    have hplace : ∀ k, ∃ k', Stash.place block (List.replicate k Block.empty) =
        [block] ++ List.replicate k' Block.empty := by
      intro k
      cases k with
      | zero => exact ⟨Stash.growth - 1, rfl⟩
      | succ k =>
        refine ⟨k, ?_⟩
        rw [List.replicate_succ, Stash.place, if_pos Block.isEmpty_empty]
        rfl
    obtain ⟨m', hm⟩ := hplace m
    obtain ⟨n', hn⟩ := hplace n
    exact ⟨[block], m', n', hm, hn⟩
  | cons b core ih =>
    rw [List.cons_append, List.cons_append, Stash.place, Stash.place]
    split
    · exact ⟨block :: core, m, n, rfl, rfl⟩
    · exact ih.append [b]

end Padded

end Slots

namespace Stash

open Slots

/-- The same stash, with more or less room. -/
def Alike (s s' : Stash w) : Prop := ∃ overflow, Padded s.overflow overflow ∧ s' = { s with overflow }

namespace Alike

theorem refl (s : Stash w) : s.Alike s := ⟨s.overflow, .refl _, rfl⟩

theorem create {network : SortNetwork} {levels m n : Nat} {excuse : Prop}
    (hroom : 2 ^ 64 ≤ Bucket.capacity * levels + n → excuse) :
    Engine.Follows excuse Alike (liftM (Stash.create network levels m) : Engine σ (Stash w))
      (liftM (Stash.create network levels n)) := by
  intro before before' env env' env₁ s henv hrun
  rw [Engine.run_lift, Prod.mk.injEq] at hrun
  obtain ⟨hcreate, rfl⟩ := hrun
  rw [Stash.of_create hcreate, Engine.run_lift, Stash.create, Word.fits]
  split
  · exact .inl ⟨_, env', rfl, ⟨_, .replicate m n, rfl⟩, henv⟩
  next hge => exact .inr ⟨hroom (Nat.not_lt.1 hge), _, env', rfl⟩

variable {s s' : Stash w} (h : s.Alike s')
include h

theorem overflowBound_eq : s'.overflowBound = s.overflowBound := by
  obtain ⟨overflow, hpadded, rfl⟩ := h
  exact hpadded.bound_eq

theorem overflowCount_eq : s'.overflowCount = s.overflowCount := by
  obtain ⟨overflow, hpadded, rfl⟩ := h
  exact hpadded.count_eq

theorem load (level : Nat) (bucket : Bucket w) (id : Word) (target : Block w) :
    Agree (fun x y => Alike x.1 y.1 ∧ x.2 = y.2) (s.load level bucket id target)
      (s'.load level bucket id target) := by
  obtain ⟨overflow, hpadded, rfl⟩ := h
  by_cases hlevel : level < s.levels
  · have hlevel' : level < levels { s with overflow } := hlevel
    simp only [Stash.load, if_pos hlevel, if_pos hlevel']
    apply (Agree.refl _).bind
    rintro ⟨blocks, target⟩ _ rfl
    exact .ok ⟨⟨overflow, hpadded, rfl⟩, rfl⟩
  · have hlevel' : ¬level < levels { s with overflow } := hlevel
    simp only [Stash.load, if_neg hlevel, if_neg hlevel']
    exact .error _

theorem takeOverflow (id : Word) (target : Block w) :
    Agree (fun x y => Alike x.1 y.1 ∧ x.2 = y.2) (s.takeOverflow id target)
      (s'.takeOverflow id target) := by
  have hbound := h.overflowBound_eq
  obtain ⟨overflow, hpadded, rfl⟩ := h
  have htake : overflow.take s.overflowBound = s.overflow.take s.overflowBound := hpadded.take_bound
  rw [Stash.takeOverflow, Stash.takeOverflow, hbound, htake]
  apply (Agree.refl _).bind
  rintro ⟨blocks, target⟩ _ rfl
  exact .ok ⟨⟨_, (hpadded.drop _).append blocks, rfl⟩, rfl⟩

theorem keep (block : Block w) {excuse : Prop} :
    Engine.Follows (σ := σ) excuse Alike (s.keep block) (s'.keep block) := by
  obtain ⟨overflow, hpadded, rfl⟩ := h
  intro before before' env env' env₁ s₁ henv hrun
  rw [Layer.run_keep] at hrun
  cases hrun
  rw [Layer.run_keep]
  refine .inl ⟨_, _, rfl, ⟨_, hpadded.place block, rfl⟩, ?_⟩
  rw [Layer.told, Layer.told]
  split <;> split
  · exact (henv.grow_left _).grow_right _
  · exact henv.grow_left _
  · exact henv.grow_right _
  · exact henv

theorem arrange_eq (p : Path) : s'.arrange p = s.arrange p := by
  have hbound := h.overflowBound_eq
  obtain ⟨overflow, hpadded, rfl⟩ := h
  have hcandidates : candidates { s with overflow } = s.candidates := by
    have htake : overflow.take s.overflowBound = s.overflow.take s.overflowBound := hpadded.take_bound
    rw [candidates, hbound, htake]
    rfl
  rw [arrange, hcandidates]
  rfl

theorem evict {p p' : Path} (hp : p' = p) : Agree Alike (s.evict p) (s'.evict p') := by
  subst hp
  rw [Stash.evict, Stash.evict, h.arrange_eq, h.overflowBound_eq]
  obtain ⟨overflow, hpadded, rfl⟩ := h
  apply (Agree.refl _).bind
  rintro placed _ rfl
  exact .ok ⟨_, (hpadded.drop _).append _, rfl⟩

end Alike

end Stash

end ObliviousRam
