import ObliviousRam.Proofs.Oram.Run

namespace ObliviousRam

open LeafSource

variable {w : Nat} {σ α : Type} [LeafSource σ]

/-- The memories that a map is packed into, down to the map that is scanned. -/
def PositionMap.memories : PositionMap w → List (Oram w)
  | scan _ => []
  | packed layer below _ _ => ⟨layer, below⟩ :: below.memories

namespace Oram

/-- A memory that clients can come to have. -/
inductive Reachable (σ : Type) [LeafSource σ] : Oram w → Prop
  | created {config : Config} {request : Request} {o : Oram w} {env env' : Env σ}
      (create : Creation.run (request.create config) env = (.ok (.ok o), env')) : Reachable σ o
  | step {α : Type} {o o' : Oram w} {command : Command w α} {answer : Answer w α} {env env' : Env σ}
      (reachable : Reachable σ o)
      (step : (o.step command).run env = (.ok (answer, o'), env')) : Reachable σ o'

variable {o o' : Oram w} {env env' : Env σ}

theorem Reachable.run (h : o.Reachable σ) {commands : List (Command w α)}
    {answers : List (Answer w α)} (hrun : (o.run commands).run env = (.ok (answers, o'), env')) :
    o'.Reachable σ :=
  run_induction (P := fun _ o _ => o.Reachable σ) (fun h hstep => h.step hstep) h hrun

def Request.leads (config : Config) (request : Request) (commands : List (Command w α))
    (env : Env σ) (wanted : Oram w → Env σ → Oram w → Env σ → Bool) : Bool :=
  match Creation.run (request.create config) env with
  | (.ok (.ok o₀), env₀) =>
    match (o₀.run commands).run env₀ with
    | (.ok (_, o), env₁) => wanted o₀ env₀ o env₁
    | _ => false
  | _ => false

def Request.reaches (config : Config) (request : Request) (commands : List (Command w α))
    (env : Env σ) (wanted : Oram w → Bool) : Bool :=
  request.leads config commands env fun _ _ o _ => wanted o

theorem exists_of_leads {config : Config} {request : Request} {commands : List (Command w α)}
    {wanted : Oram w → Env σ → Oram w → Env σ → Bool}
    (h : request.leads config commands env wanted = true) :
    ∃ (o₀ o : Oram w) (env₀ env₁ : Env σ) (answers : List (Answer w α)),
      Creation.run (request.create config) env = (.ok (.ok o₀), env₀) ∧
        (o₀.run commands).run env₀ = (.ok (answers, o), env₁) ∧ wanted o₀ env₀ o env₁ = true := by
  rw [Request.leads] at h
  split at h
  next hcreate =>
    split at h
    next hrun => exact ⟨_, _, _, _, _, hcreate, hrun, h⟩
    next => cases h
  next => cases h

theorem exists_of_reaches {config : Config} {request : Request} {commands : List (Command w α)}
    {wanted : Oram w → Bool} (h : request.reaches config commands env wanted = true) :
    ∃ (o₀ o : Oram w) (env₀ env₁ : Env σ) (answers : List (Answer w α)),
      Creation.run (request.create config) env = (.ok (.ok o₀), env₀) ∧
        (o₀.run commands).run env₀ = (.ok (answers, o), env₁) ∧ wanted o = true :=
  exists_of_leads h

end Oram

theorem PositionMap.layers_eq (m : PositionMap w) : m.layers = m.memories.map Oram.layer := by
  induction m with
  | scan => rfl
  | packed layer below first size ih => rw [layers, ih, memories, List.map_cons]

theorem PositionMap.Sound.memories {m : PositionMap w} (h : m.Sound) : ∀ o ∈ m.memories, o.Sound := by
  induction m with
  | scan => exact fun _ ho => absurd ho List.not_mem_nil
  | packed layer below first size ih =>
    obtain ⟨-, -, -, -, hsize, hlayer, hbelow⟩ := h
    intro o ho
    rw [PositionMap.memories, List.mem_cons] at ho
    obtain rfl | ho := ho
    · exact ⟨hsize, hlayer, hbelow⟩
    · exact ih hbelow o ho

section

variable {R : Oram w → Oram w → Prop}
  (hR : ∀ (o o' : Oram w) (id : Word) (draws : List Word) (data : Vector Word w), o.Sound →
    id.toNat < o.layer.allocated → o.Accessed id draws data o' → R o o')
include hR

theorem PositionMap.Relocated.memories {m m' : PositionMap w} {id position : Word}
    {draws : List Word} (h : m.Relocated id position draws m') (hm : m.Sound)
    (hid : id.toNat < m.size) : List.Forall₂ R m.memories m'.memories := by
  induction h with
  | scan => exact .nil
  | @packed layer layer' below below' block first id position next size rest hblock hbelow hlayer ih =>
    have hallocated := blockOf_lt hm hid
    rw [← hblock] at hallocated
    obtain ⟨-, -, -, -, hsize, hlayerSound, hbelowSound⟩ := hm
    have hlt : block.toNat < below.size :=
      hsize ▸ Nat.lt_of_lt_of_le hallocated hlayerSound.allocated_le
    apply List.Forall₂.cons
    · exact hR ⟨layer, below⟩ ⟨layer', below'⟩ _ _ _ ⟨hsize, hlayerSound, hbelowSound⟩ hallocated
        (.intro hbelow hlayer)
    · exact ih hbelowSound hlt

theorem Oram.Accessed.memories {o o' : Oram w} {id : Word} {draws : List Word} {data : Vector Word w}
    (h : o.Accessed id draws data o') (ho : o.Sound) (hid : id.toNat < o.layer.allocated) :
    List.Forall₂ R (o :: o.positions.memories) (o' :: o'.positions.memories) := by
  apply List.Forall₂.cons
  · exact hR o o' id draws data ho hid h
  · cases h with
    | intro hpositions hlayer =>
      apply hpositions.memories hR ho.positions
      rw [ho.size]
      exact Nat.lt_of_lt_of_le hid ho.layer.allocated_le

end

namespace Oram

variable [LawfulLeafSource σ] {o : Oram w}

/-- A call for an allocated block succeeds, and does nothing but access it. -/
theorem Sound.exists_accessed (h : o.Sound) {command : Command w α} {id : Word}
    (hid : command.target? o.layer.allocated = some id) (env : Env σ) :
    ∃ answer o' env' data, (o.step command).run env = (.ok (answer, o'), env') ∧
      id.toNat < o.layer.allocated ∧ env'.source = (drawAll o.leafCounts env.source).2 ∧
      o.Accessed id (drawAll o.leafCounts env.source).1 data o' := by
  obtain ⟨memory, hshows⟩ := h.exists_shows
  obtain ⟨o', env', hrun, -, hstepped⟩ := hshows.exists_step command env
  rw [hid] at hstepped
  cases hstepped with
  | accessed hlt hsource haccess => exact ⟨_, o', env', _, hrun, hlt, hsource, haccess⟩

theorem Reachable.sound (h : o.Reachable σ) : o.Sound := by
  induction h with
  | created hcreate =>
    obtain ⟨bounds, slot, -, hcreated⟩ := exists_of_create hcreate
    exact hcreated.sound
  | step _ hstep ih => exact (ih.stepped hstep).1

theorem Reachable.counted (h : o.Reachable σ) : o.positions.Counted := by
  induction h with
  | created hcreate =>
    obtain ⟨bounds, slot, -, hcreated⟩ := exists_of_create hcreate
    exact hcreated.counted
  | @step _ o o' command _ env env' hreachable hstep ih =>
    obtain ⟨-, hstepped⟩ := hreachable.sound.stepped hstep
    generalize command.target? o.layer.allocated = target at hstepped
    cases hstepped with
    | kept | allocated | cleared => exact ih
    | accessed hid hsource ha =>
      cases ha with
      | intro hpositions hlayer => exact hpositions.counted ih

theorem Reachable.current (h : o.Reachable σ) : ∀ p ∈ o :: o.positions.memories,
    p.layer.statistics.stash.current = p.layer.stash.overflowCount := by
  intro p hp
  obtain rfl | hp := List.mem_cons.1 hp
  · clear hp
    induction h with
    | created hcreate =>
      obtain ⟨bounds, slot, -, hcreated⟩ := exists_of_create hcreate
      exact (hcreated.fresh.counted _).current
    | @step _ o o' command _ env env' hreachable hstep ih =>
      obtain ⟨-, hstepped⟩ := hreachable.sound.stepped hstep
      generalize command.target? o.layer.allocated = target at hstepped
      cases hstepped with
      | kept | allocated => exact ih
      | cleared =>
        obtain ⟨n, hslots⟩ := o.layer.exists_slots_clear
        exact (Layer.overflowCount_of_slots hslots).symm
      | accessed hid hsource ha =>
        cases ha with
        | intro hpositions hlayer => exact hlayer.current_eq
  · apply Layer.Counted.current
    apply h.counted
    rw [PositionMap.layers_eq]
    exact List.mem_map_of_mem hp

/-- In a memory and in those of its map, no call leaves a block twice, off its path or without an
entry that says where it is, and the overflow region is filled from its start. -/
theorem sound_of_reachable (h : o.Reachable σ) : ∀ p ∈ o :: o.positions.memories,
    p.Sound ∧ p.layer.stash.overflowBound = p.layer.stash.overflowCount := by
  intro p hp
  have hsound : p.Sound := by
    obtain rfl | hp := List.mem_cons.1 hp
    · exact h.sound
    · exact h.sound.positions.memories p hp
  exact ⟨hsound, Stash.overflowBound_of_compact hsound.layer.compact⟩

/-- Every block is drawn to the leftmost leaf when its entry is filled in. Those that are put then are
sent to the right half of their tree, and so are the blocks of the map that hold their entries. -/
def tilted : Env WordStream :=
  ⟨⟨0, Array.replicate 24 0 ++
    (Array.replicate 4 #[0x8000000000000000, 0x8000000000000000, 0]).flatten, false, 0⟩, #[]⟩

/-- In the memory and in the first one of its map, three blocks are in the root and one finds no
place. -/
theorem sound_tilted : ∃ (o₀ o : Oram 2) (env₀ env₁ : Env WordStream)
    (answers : List (Answer 2 Unit)),
    Creation.run (Request.create ⟨0, 2, .bitonic⟩ (.words 16)) tilted = (.ok (.ok o₀), env₀) ∧
    (o₀.run [.allocate 8, .put 0 #v[1, 2], .put 2 #v[3, 4], .put 4 #v[5, 6],
      .put 6 #v[7, 8]]).run env₀ = (.ok (answers, o), env₁) ∧ o.Reachable WordStream ∧
    (o :: o.positions.memories).map (fun p => (Slots.stored p.layer.tree.slots).length) = [3, 3, 2] ∧
    (o :: o.positions.memories).map (fun p => p.layer.stash.overflowCount) = [1, 1, 0] ∧
    ∀ p ∈ o :: o.positions.memories,
      p.Sound ∧ p.layer.stash.overflowBound = p.layer.stash.overflowCount := by
  have hreaches : Request.reaches (w := 2) (α := Unit) ⟨0, 2, .bitonic⟩ (.words 16)
      [.allocate 8, .put 0 #v[1, 2], .put 2 #v[3, 4], .put 4 #v[5, 6], .put 6 #v[7, 8]] tilted
      (fun o => (o :: o.positions.memories).map (fun p => (Slots.stored p.layer.tree.slots).length) ==
          [3, 3, 2] &&
        (o :: o.positions.memories).map (fun p => p.layer.stash.overflowCount) == [1, 1, 0]) = true := by
    decide +kernel
  obtain ⟨o₀, o, env₀, env₁, answers, hcreate, hrun, hwanted⟩ := exists_of_reaches hreaches
  rw [Bool.and_eq_true, beq_iff_eq, beq_iff_eq] at hwanted
  have hreachable := (Reachable.created hcreate).run hrun
  exact ⟨o₀, o, env₀, env₁, answers, hcreate, hrun, hreachable, hwanted.1, hwanted.2,
    sound_of_reachable hreachable⟩

end Oram

end ObliviousRam
