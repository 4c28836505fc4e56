import ObliviousRam.Proofs.Oram.Reachable

namespace ObliviousRam

open Slots

variable {w : Nat} {σ α β μ : Type}

inductive Shape where
  | allocate (n : Nat)
  | access (id : Word)
  | refused
  | clear

def Command.shape : Command w α → Shape
  | .get id | .put id _ | .access id _ => .access id
  | .putPartial id start words buffer =>
    match Oram.windowRefusal? w start words.length (buffer.map List.length) with
    | some _ => .refused
    | none => .access id
  | .allocate n => .allocate n
  | .clear => .clear

namespace Layer

/-- Visits a block, and answers the number of slots that are sorted on the way. These are all that
take part in the eviction (`Stash.length_of_arrange`). -/
def visitSized (layer : Layer w) (id previous next : Word) (use : Accessor w α) :
    Engine σ (Except Refusal α × Layer w × Nat) := do
  let (answer, layer) ← layer.gather id previous next use
  return (answer, ← layer.flush, layer.stash.candidates.length)

def accessSized [LeafSource σ] (layer : Layer w) (positions : μ)
    (relocate : Word → Word → Engine σ (Except Refusal Word × μ × List Nat)) (id : Word)
    (use : Accessor w α) : Engine σ (Except Refusal α × Layer w × μ × List Nat) := do
  if id.toNat < layer.allocated then
    let next ← Engine.draw layer.tree.leaves
    match ← relocate id next with
    | (.ok previous, positions, sizes) =>
      let (answer, layer, size) ← layer.visitSized id previous next use
      return (answer, layer, positions, size :: sizes)
    | (.error refusal, positions, sizes) => return (.error refusal, layer, positions, sizes)
  else return (.error .unallocatedBlock, layer, positions, [])

theorem visitSized_erase (layer : Layer w) (id previous next : Word) (use : Accessor w α) :
    (fun x => (x.1, x.2.1)) <$> layer.visitSized (σ := σ) id previous next use =
      layer.visit id previous next use := by
  simp only [visitSized, visit, map_bind, map_pure]

theorem accessSized_erase [LeafSource σ] (layer : Layer w) (positions : μ)
    (relocate : Word → Word → Engine σ (Except Refusal Word × μ))
    (relocateSized : Word → Word → Engine σ (Except Refusal Word × μ × List Nat))
    (h : ∀ id next, (fun x => (x.1, x.2.1)) <$> relocateSized id next = relocate id next) (id : Word)
    (use : Accessor w α) :
    (fun x => (x.1, x.2.1, x.2.2.1)) <$> layer.accessSized positions relocateSized id use =
      layer.access positions relocate id use := by
  rw [accessSized, access]
  split
  · rw [map_bind]
    apply bind_congr
    intro next
    rw [← h, map_bind, bind_map_left]
    apply bind_congr
    rintro ⟨_ | previous, positions, sizes⟩
    · rw [map_pure]
    · simp only [← visitSized_erase, map_bind, map_pure, bind_map_left]
  · rw [map_pure]

end Layer

namespace PositionMap

variable [LeafSource σ]

def relocateSized : PositionMap w → Word → Word →
    Engine σ (Except Refusal Word × PositionMap w × List Nat)
  | scan map, id, position =>
    let (answer, map) := map.relocate id position
    return (answer, scan map, [])
  | packed layer below first size, id, position => do
    if id.toNat < size then
      let (answer, layer, below, sizes) ← layer.accessSized below (fun i p => relocateSized below i p)
        (blockOf w first id) (exchangeWord (id.toNat % w) position)
      return (answer, packed layer below first size, sizes)
    else return (.error .addressOutOfBounds, packed layer below first size, [])

theorem relocateSized_erase (m : PositionMap w) (id position : Word) :
    (fun x => (x.1, x.2.1)) <$> m.relocateSized (σ := σ) id position = m.relocate id position := by
  induction m generalizing id position with
  | scan map => rfl
  | packed layer below first size ih =>
    rw [relocateSized, relocate]
    split
    · rw [← layer.accessSized_erase below below.relocate below.relocateSized ih]
      simp only [map_bind, map_pure, bind_map_left]
    · rw [map_pure]

end PositionMap

namespace Oram

variable [LeafSource σ]

def accessSized (o : Oram w) (id : Word) (use : Accessor w α) :
    Engine σ (Except Refusal α × Oram w × List Nat) := do
  let (answer, layer, positions, sizes) ←
    o.layer.accessSized o.positions o.positions.relocateSized id use
  return (answer, ⟨layer, positions⟩, sizes)

theorem accessSized_erase (o : Oram w) (id : Word) (use : Accessor w α) :
    (fun x => (x.1, x.2.1)) <$> o.accessSized (σ := σ) id use = o.access id use := by
  rw [accessSized, access, ← o.layer.accessSized_erase o.positions o.positions.relocate
    o.positions.relocateSized o.positions.relocateSized_erase]
  simp only [map_bind, map_pure, bind_map_left]

def stepSized (o : Oram w) : Command w α → Engine σ (Answer w α × Oram w × List Nat)
  | .get id => do
    let (answer, o, sizes) ← o.accessSized id fun data => (.ok data, data)
    return (.block answer, o, sizes)
  | .put id data => do
    let (answer, o, sizes) ← o.accessSized id fun _ => (.ok (), data)
    return (.stored answer, o, sizes)
  | .putPartial id start words buffer =>
    match windowRefusal? w start words.length (buffer.map List.length) with
    | some refusal => return (.replaced (.error refusal), o, [])
    | none => do
      let (answer, o, sizes) ← o.accessSized id fun data =>
        (.ok (buffer.map (Window.read start words.length data)), Window.write start words data)
      return (.replaced answer, o, sizes)
  | .access id use => do
    let (answer, o, sizes) ← o.accessSized id use
    return (.used answer, o, sizes)
  | .allocate n => return (.allocated (o.allocate n).1, (o.allocate n).2, [])
  | .clear => do
    let o ← o.clear
    return (.cleared, o, [])

def runSized (o : Oram w) : List (Command w α) → Engine σ (List (Answer w α) × Oram w × List (List Nat))
  | [] => return ([], o, [])
  | command :: rest => do
    let (answer, o, sizes) ← o.stepSized command
    let (answers, o, more) ← o.runSized rest
    return (answer :: answers, o, sizes :: more)

/-- What can be told of a call from the time its evictions take. -/
def sizes? (o : Oram w) (command : Command w α) (env : Env σ) : Option (List Nat) :=
  match (o.stepSized command).run env with
  | (.ok (_, _, sizes), _) => some sizes
  | _ => none

theorem stepSized_erase (o : Oram w) (command : Command w α) :
    (fun x => (x.1, x.2.1)) <$> o.stepSized (σ := σ) command = o.step command := by
  cases command with
  | get | put | access =>
    simp only [stepSized, step, get, put, ← accessSized_erase, map_bind, map_pure, bind_map_left]
  | putPartial id start words buffer =>
    rw [stepSized, step, putPartial]
    cases windowRefusal? w start words.length (buffer.map List.length) with
    | some refusal => rfl
    | none => simp only [← accessSized_erase, map_bind, map_pure, bind_map_left]
  | allocate n => rfl
  | clear => simp only [stepSized, step, map_bind, map_pure]

theorem runSized_erase (o : Oram w) (commands : List (Command w α)) :
    (fun x => (x.1, x.2.1)) <$> o.runSized (σ := σ) commands = o.run commands := by
  induction commands generalizing o with
  | nil => rfl
  | cons command rest ih =>
    simp only [runSized, run, ← stepSized_erase, ← ih, map_bind, map_pure, bind_map_left]

end Oram

namespace Command

theorem shape_of_target? {command : Command w α} {allocated : Nat} {id : Word}
    (h : command.target? allocated = some id) : command.shape = .access id ∧ id.toNat < allocated := by
  cases command with
  | get | put | access =>
    rw [target?, Option.ite_none_right_eq_some, Option.some.injEq] at h
    exact ⟨congrArg Shape.access h.2, h.2 ▸ h.1⟩
  | putPartial id' start words buffer =>
    rw [target?] at h
    rw [shape]
    cases hwindow : Oram.windowRefusal? w start words.length (buffer.map List.length) with
    | some refusal =>
      rw [hwindow] at h
      cases h
    | none =>
      simp only [hwindow, Option.ite_none_right_eq_some, Option.some.injEq] at h
      exact ⟨congrArg Shape.access h.2, h.2 ▸ h.1⟩
  | allocate | clear => cases h

theorem exists_use [LeafSource σ] {command : Command w α} {id : Word}
    (h : command.shape = .access id) : ∃ (β : Type) (use : Accessor w β)
    (wrap : Except Refusal β → Answer w α), ∀ o : Oram w,
      o.stepSized (σ := σ) command = (fun x => (wrap x.1, x.2)) <$> o.accessSized id use := by
  cases command with
  | get =>
    cases h
    refine ⟨_, fun data => (.ok data, data), .block, fun o => ?_⟩
    rw [← bind_pure_comp]
    rfl
  | put id data =>
    cases h
    refine ⟨_, fun _ => (.ok (), data), .stored, fun o => ?_⟩
    rw [← bind_pure_comp]
    rfl
  | access id use =>
    cases h
    refine ⟨_, use, .used, fun o => ?_⟩
    rw [← bind_pure_comp]
    rfl
  | putPartial id' start words buffer =>
    rw [shape] at h
    split at h
    next => cases h
    next hwindow =>
      cases h
      refine ⟨_, fun data => (.ok (buffer.map (Window.read start words.length data)),
        Window.write start words data), .replaced, fun o => ?_⟩
      rw [Oram.stepSized, hwindow, ← bind_pure_comp]
  | allocate | clear => cases h

end Command

/-- The number of slots that the eviction of an access to block `id` sorts. It is one less if the
block is taken from the overflow region, because the block then fills its own slot again. -/
def Layer.evictionSize (layer : Layer w) (id : Word) : Nat :=
  Bucket.capacity * layer.tree.levels + layer.stash.overflowCount +
    if id ∈ ids layer.stash.overflow then 0 else 1

def PositionMap.evictionSizes : PositionMap w → Word → List Nat
  | scan _, _ => []
  | packed layer below first _, id =>
    layer.evictionSize (blockOf w first id) :: below.evictionSizes (blockOf w first id)

def Oram.evictionSizes (o : Oram w) (id : Word) : List Nat :=
  o.layer.evictionSize id :: o.positions.evictionSizes id

namespace Layer

variable {layer : Layer w} {entry : Nat → Word} (h : layer.Sound entry)
include h

theorem length_candidates_gathered (block : Block w) (hid : block.id.toNat < layer.allocated)
    (n : Word) : (layer.gathered (layer.tree.pathTo n) block).stash.candidates.length =
      layer.evictionSize block.id := by
  have hreal : block.isEmpty = false := by simpa [Block.isEmpty] using h.ne_allOnes hid
  have hnodup : (ids layer.stash.overflow).Nodup := by
    have h := h.ids_nodup
    rw [ids, slots, stored_append, List.map_append] at h
    exact h.of_append_right
  have hlevels : (layer.gathered (layer.tree.pathTo n) block).stash.levels = layer.tree.levels := by
    rw [gathered, Stash.insert, loaded, Stash.levels, List.length_map, List.length_map,
      Path.length_nodes, BucketTree.length_pathTo]
  have hbound : (layer.gathered (layer.tree.pathTo n) block).stash.overflowBound =
      layer.stash.overflowCount + if block.id ∈ ids layer.stash.overflow then 0 else 1 := by
    rw [Stash.overflowBound_of_compact (Stash.compact_place hreal hnodup h.compact)]
    exact Stash.count_place hreal hnodup
  rw [Stash.length_candidates, hlevels, hbound, evictionSize, Nat.add_assoc]

variable {id : Word} (hid : id.toNat < layer.allocated)
include hid

theorem size_of_visitSized {next : Word} {use : Accessor w α} {env env' : Env σ}
    {answer : Except Refusal α} {layer' : Layer w} {size : Nat}
    (hnext : next.toNat < 2 ^ (layer.tree.levels - 1))
    (hrun : (layer.visitSized id (entry id.toNat) next use).run env =
      (.ok (answer, layer', size), env')) : size = layer.evictionSize id := by
  rw [visitSized, Engine.run_bind_ok (run_gather h hid next hnext use env)] at hrun
  obtain ⟨flushed, env₁, hflush, hpure⟩ := Engine.exists_of_run_bind hrun
  cases hpure
  exact length_candidates_gathered h ⟨id, 2 * next, _⟩ hid _

end Layer

variable [LeafSource σ] [LawfulLeafSource σ]

theorem Layer.sizes_of_accessSized {layer layer' : Layer w} {below below' : PositionMap w}
    (h : layer.Sound below.entry) (hsize : below.size = layer.capacity) (hbelow : below.Sound)
    {id : Word} (hid : id.toNat < layer.allocated)
    (hsizes : ∀ {position : Word} {env env' : Env σ} {answer below' sizes},
      (below.relocateSized id position).run env = (.ok (answer, below', sizes), env') →
        sizes = below.evictionSizes id)
    {use : Accessor w α} {env env' : Env σ} {answer : Except Refusal α} {sizes : List Nat}
    (hrun : (layer.accessSized below below.relocateSized id use).run env =
      (.ok (answer, layer', below', sizes), env')) :
    sizes = layer.evictionSize id :: below.evictionSizes id := by
  have hnext := LawfulLeafSource.draw_lt layer.tree.leaves env.source layer.tree.leaves_pos
  rw [UInt64.lt_iff_toNat_lt, layer.tree.toNat_leaves] at hnext
  rw [accessSized, if_pos hid, Engine.run_bind_ok (Engine.run_draw _ _)] at hrun
  obtain ⟨⟨previous, below₁, sizes₁⟩, env₁, hrelocate, hrun⟩ := Engine.exists_of_run_bind hrun
  have herased := Engine.run_map_ok hrelocate fun x => (x.1, x.2.1)
  obtain ⟨below₂, log, hknown, -⟩ := PositionMap.exists_relocate hbelow id
    (LeafSource.draw layer.tree.leaves env.source).1
    { env with source := (LeafSource.draw layer.tree.leaves env.source).2 }
    (Nat.lt_of_lt_of_le hid (hsize ▸ h.allocated_le))
  rw [PositionMap.relocateSized_erase, hknown, Prod.mk.injEq, Except.ok.injEq, Prod.mk.injEq] at herased
  obtain ⟨⟨rfl, -⟩, -⟩ := herased
  obtain ⟨⟨answer', layer₁, size⟩, env₂, hvisit, hpure⟩ := Engine.exists_of_run_bind hrun
  cases hpure
  rw [size_of_visitSized h hid hnext hvisit, hsizes hrelocate]

theorem PositionMap.sizes_of_relocateSized {m : PositionMap w} (hm : m.Sound) {id position : Word}
    (hid : id.toNat < m.size) {env env' : Env σ} {answer : Except Refusal Word} {m' : PositionMap w}
    {sizes : List Nat}
    (h : (m.relocateSized id position).run env = (.ok (answer, m', sizes), env')) :
    sizes = m.evictionSizes id := by
  induction m generalizing id position env env' answer m' sizes with
  | scan map =>
    cases h
    rfl
  | packed layer below first size ih =>
    have hallocated := blockOf_lt hm hid
    have hid : id.toNat < size := hid
    obtain ⟨-, -, -, -, hsize, hlayer, hbelow⟩ := hm
    have hlt := Nat.lt_of_lt_of_le hallocated (hsize ▸ hlayer.allocated_le)
    rw [relocateSized, if_pos hid] at h
    obtain ⟨⟨answer', layer', below', sizes'⟩, env₁, haccess, hpure⟩ := Engine.exists_of_run_bind h
    cases hpure
    exact Layer.sizes_of_accessSized hlayer hsize hbelow hallocated (ih hbelow hlt) haccess

namespace Oram

variable {o : Oram w} {env env' : Env σ}

theorem Sound.sizes_of_accessSized (h : o.Sound) {id : Word} (hid : id.toNat < o.layer.allocated)
    {use : Accessor w α} {answer : Except Refusal α} {o' : Oram w} {sizes : List Nat}
    (hrun : (o.accessSized id use).run env = (.ok (answer, o', sizes), env')) :
    sizes = o.evictionSizes id := by
  have hlt := Nat.lt_of_lt_of_le hid (h.size ▸ h.layer.allocated_le)
  obtain ⟨⟨answer', layer', positions', sizes'⟩, env₁, haccess, hpure⟩ :=
    Engine.exists_of_run_bind hrun
  cases hpure
  exact Layer.sizes_of_accessSized h.layer h.size h.positions hid
    (fun hrun => PositionMap.sizes_of_relocateSized h.positions hlt hrun) haccess

theorem Sound.exists_stepSized (h : o.Sound) {command : Command w α} {id : Word}
    (hid : command.target? o.layer.allocated = some id) (env : Env σ) :
    ∃ answer o' env', (o.step command).run env = (.ok (answer, o'), env') ∧
      (o.stepSized command).run env = (.ok (answer, o', o.evictionSizes id), env') := by
  obtain ⟨hshape, hlt⟩ := command.shape_of_target? hid
  obtain ⟨β, use, wrap, hsized⟩ := command.exists_use (σ := σ) hshape
  obtain ⟨_, _, env', -, hrun, -⟩ := h.exists_accessed hid env
  rw [← stepSized_erase] at hrun
  obtain ⟨⟨answer, o', sizes⟩, hstep, -⟩ := Engine.exists_of_run_map hrun
  have hplain := Engine.run_map_ok hstep fun x => (x.1, x.2.1)
  rw [stepSized_erase] at hplain
  have hmapped := hstep
  rw [hsized] at hmapped
  obtain ⟨⟨r, o₁, sizes₁⟩, haccess, heq⟩ := Engine.exists_of_run_map hmapped
  cases heq
  rw [← h.sizes_of_accessSized hlt haccess]
  exact ⟨_, _, env', hplain, hstep⟩

/-- How many slots a call sorts in each layer does not only show what the statistics publish. In each
layer it also shows whether the block that is accessed there was in the overflow region. -/
theorem sizes_of_reachable (h : o.Reachable σ) {a b : Word} {call : Command w α}
    {call' : Command w β} (ha : call.target? o.layer.allocated = some a)
    (hb : call'.target? o.layer.allocated = some b) (env : Env σ) :
    o.sizes? call env = some (o.evictionSizes a) ∧ o.sizes? call' env = some (o.evictionSizes b) ∧
      (∀ p ∈ o :: o.positions.memories,
        p.layer.statistics.stash.current = p.layer.stash.overflowCount) ∧
      (o.layer.evictionSize a = o.layer.evictionSize b ↔
        (a ∈ ids o.layer.stash.overflow ↔ b ∈ ids o.layer.stash.overflow)) := by
  refine ⟨?_, ?_, h.current, ?_⟩
  · obtain ⟨_, _, _, -, hrun⟩ := h.sound.exists_stepSized ha env
    rw [sizes?, hrun]
  · obtain ⟨_, _, _, -, hrun⟩ := h.sound.exists_stepSized hb env
    rw [sizes?, hrun]
  · rw [Layer.evictionSize, Layer.evictionSize, Nat.add_left_cancel_iff]
    by_cases hina : a ∈ ids o.layer.stash.overflow <;>
      by_cases hinb : b ∈ ids o.layer.stash.overflow <;> simp [hina, hinb]

/-- Three of four blocks are at the root, the last one is in the overflow region. -/
def crowded : Env WordStream :=
  ⟨⟨0, #[0, 0, 0, 0, 0x8000000000000000, 0x8000000000000000, 0x8000000000000000, 0x8000000000000000],
    false, 0⟩, #[]⟩

theorem exists_crowded : ∃ o : Oram 1, o.Reachable WordStream ∧
    Command.target? (w := 1) (α := Unit) o.layer.allocated (.get 0) = some 0 ∧
    Command.target? (w := 1) (α := Unit) o.layer.allocated (.get 3) = some 3 ∧
    o.sizes? (α := Unit) (.get 0) crowded = some [8] ∧
    o.sizes? (α := Unit) (.get 3) crowded = some [7] := by
  have hreaches : Request.reaches (w := 1) (α := Unit) ⟨1, 4, .bitonic⟩ (.words 4)
      [.allocate 4, .get 0, .get 1, .get 2, .get 3] crowded (fun o => o.layer.allocated == 4 &&
        o.sizes? (α := Unit) (.get 0) crowded == some [8] &&
        o.sizes? (α := Unit) (.get 3) crowded == some [7]) = true := by
    decide +kernel
  obtain ⟨o₀, o, env₀, env₁, answers, hcreate, hrun, hwanted⟩ := exists_of_reaches hreaches
  rw [Bool.and_eq_true, Bool.and_eq_true, beq_iff_eq, beq_iff_eq, beq_iff_eq] at hwanted
  obtain ⟨⟨hallocated, hfirst⟩, hlast⟩ := hwanted
  refine ⟨o, (Reachable.created hcreate).run hrun, ?_, ?_, hfirst, hlast⟩ <;>
    · rw [hallocated]
      rfl

/-- With the same draws, a read of block 0 sorts more slots than one of block 3. -/
theorem sizes_crowded : ¬∀ (o : Oram 1) (a b : Word) (call call' : Command 1 Unit),
    o.Reachable WordStream → call.target? o.layer.allocated = some a →
    call'.target? o.layer.allocated = some b →
      ∀ env : Env WordStream, o.sizes? call env = o.sizes? call' env := by
  intro h
  obtain ⟨o, ho, ha, hb, hfirst, hlast⟩ := exists_crowded
  have hsame := h o 0 3 _ _ ho ha hb crowded
  rw [hfirst, hlast] at hsame
  cases hsame

theorem sizes_of_crowded : ∃ o : Oram 1, o.Reachable WordStream ∧
    Command.target? (w := 1) (α := Unit) o.layer.allocated (.get 0) = some 0 ∧
    Command.target? (w := 1) (α := Unit) o.layer.allocated (.get 3) = some 3 ∧
    o.sizes? (α := Unit) (.get 0) crowded = some (o.evictionSizes 0) ∧
    o.sizes? (α := Unit) (.get 3) crowded = some (o.evictionSizes 3) ∧
    (∀ p ∈ o :: o.positions.memories,
      p.layer.statistics.stash.current = p.layer.stash.overflowCount) ∧
    (o.layer.evictionSize 0 = o.layer.evictionSize 3 ↔
      (0 ∈ ids o.layer.stash.overflow ↔ 3 ∈ ids o.layer.stash.overflow)) := by
  obtain ⟨o, ho, ha, hb, -⟩ := exists_crowded
  exact ⟨o, ho, ha, hb, sizes_of_reachable ho ha hb crowded⟩

end Oram

end ObliviousRam
