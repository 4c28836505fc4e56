import Mathlib.Algebra.Group.End
import ObliviousRam.Proofs.Oram.View

namespace ObliviousRam

variable {w n capacity : Nat} {σ α : Type}

def Relabelling.permuting (hn : n < 2 ^ 64) (π : Equiv.Perm {i : Word // i.toNat < n}) :
    Relabelling w w where
  id := Equiv.Perm.ofSubtype π
  data := fun data => data
  id_injective := (Equiv.Perm.ofSubtype π).injective
  id_empty := by
    apply Equiv.Perm.ofSubtype_apply_of_not_mem
    rw [Word.toNat_allOnes]
    omega
  data_empty := rfl

namespace ScanMap

/-- The entry of each id goes to the id that takes its place. -/
def permute (π : Equiv.Perm Word) (m : ScanMap) : ScanMap :=
  ⟨Array.ofFn fun i : Fin m.size => m.entries.getD (π.symm (UInt64.ofNat i)).toNat 0⟩

variable {π : Equiv.Perm Word} {m : ScanMap} (hπ : ∀ i, (π i).toNat < m.size ↔ i.toNat < m.size)

@[simp] theorem size_permute : (m.permute π).size = m.size := Array.size_ofFn

include hπ

theorem lt_size_permute (id : Word) : (π id).toNat < (m.permute π).size ↔ id.toNat < m.size := by
  rw [size_permute]
  exact hπ id

theorem getElem?_permute (id : Word) :
    (m.permute π).entries[(π id).toNat]? = m.entries[id.toNat]? := by
  by_cases hid : id.toNat < m.size
  · have hid' : (π id).toNat < (m.permute π).entries.size := (lt_size_permute hπ id).2 hid
    have hentry : m.entries[id.toNat]? = some m.entries[id.toNat] := Array.getElem?_eq_getElem hid
    rw [Array.getElem?_eq_getElem hid', hentry]
    simp only [permute, Array.getElem_ofFn, UInt64.ofNat_toNat, Equiv.symm_apply_apply,
      Array.getD_eq_getD_getElem?, hentry, Option.getD_some]
  · have hid' := Nat.not_lt.1 (mt (lt_size_permute hπ id).1 hid)
    exact (Array.getElem?_eq_none hid').trans (Array.getElem?_eq_none (Nat.not_lt.1 hid)).symm

theorem setIfInBounds_permute (hsize : m.size < 2 ^ 64) (id position : Word) :
    (m.permute π).entries.setIfInBounds (π id).toNat position =
      (permute π ⟨m.entries.setIfInBounds id.toNat position⟩).entries := by
  have hsame : (⟨m.entries.setIfInBounds id.toNat position⟩ : ScanMap).size = m.size :=
    Array.size_setIfInBounds
  apply Array.ext
  · rw [Array.size_setIfInBounds, ← size, ← size, size_permute, size_permute, hsame]
  intro j hj _
  have hj' : j < m.size := by
    rwa [Array.size_setIfInBounds, ← size, size_permute] at hj
  -- Slot `j` is that of some id, and each id has a slot of its own.
  obtain ⟨i, rfl⟩ : ∃ i : Word, j = (π i).toNat := by
    refine ⟨π.symm (UInt64.ofNat j), ?_⟩
    rw [Equiv.apply_symm_apply, UInt64.toNat_ofNat', Nat.mod_eq_of_lt (Nat.lt_trans hj' hsize)]
  have hi : i.toNat < m.entries.size := (hπ i).1 hj'
  have hslot : (π id).toNat = (π i).toNat ↔ id.toNat = i.toNat := by
    rw [UInt64.toNat_inj, UInt64.toNat_inj, π.apply_eq_iff_eq]
  have hlt : (π i).toNat < (m.permute π).entries.size := by rwa [← size, size_permute]
  have hentry := getElem?_permute hπ i
  rw [Array.getElem?_eq_getElem hi, Array.getElem?_eq_getElem hlt, Option.some.injEq] at hentry
  rw [Array.getElem_setIfInBounds hlt, hentry]
  simp only [permute, Array.getElem_ofFn, UInt64.ofNat_toNat, Equiv.symm_apply_apply,
    Array.getD_eq_getD_getElem?, Array.getElem?_setIfInBounds, Array.getElem?_eq_getElem hi, hslot]
  split
  next heq => rw [if_pos (heq ▸ hi), Option.getD_some]
  next => rfl

theorem relocate_permute (hsize : m.size < 2 ^ 64) (id position : Word) :
    (m.permute π).relocate (π id) position =
      Prod.map (fun answer => answer) (permute π) (m.relocate id position) := by
  by_cases hid : id.toNat < m.size
  · rw [relocate_of_lt hid, relocate_of_lt ((lt_size_permute hπ id).2 hid), setIfInBounds_permute hπ hsize,
      Array.getD_eq_getD_getElem?, getElem?_permute hπ, Array.getD_eq_getD_getElem?]
    rfl
  · have hid' := Nat.not_lt.1 (mt (lt_size_permute hπ id).1 hid)
    rw [relocate_of_le (Nat.not_lt.1 hid), relocate_of_le hid']
    rfl

end ScanMap

def PositionMap.permute (π : Equiv.Perm Word) : PositionMap w → PositionMap w
  | scan map => scan (map.permute π)
  | packed layer below first size => packed layer below first size

def Command.mapIds (f : Word → Word) : Command w α → Command w α
  | .allocate n => .allocate n
  | .get id => .get (f id)
  | .put id data => .put (f id) data
  | .putPartial id start words buffer => .putPartial (f id) start words buffer
  | .access id use => .access (f id) use
  | .clear => .clear

namespace Memory

variable {memory : Memory w capacity} (h : memory.allocated = capacity)
include h

theorem allocated_access (id : Word) (use : Accessor w α) :
    (memory.access id use).2.allocated = capacity := by
  rw [access]
  split <;> exact h

theorem allocated_step {command : Command w α} (hclear : command ≠ .clear) :
    (memory.step command).2.allocated = capacity := by
  cases command with
  | allocate n =>
    rw [step, allocate]
    split
    next hle => exact Nat.le_antisymm hle (h.ge.trans (Nat.le_add_right _ n))
    next => exact h
  | get id => exact allocated_access h id fun data => (.ok data, data)
  | put id data => exact allocated_access h id fun _ => (.ok (), data)
  | access id use => exact allocated_access h id use
  | putPartial id start words buffer =>
    rw [step, putPartial_eq]
    cases Oram.windowRefusal? w start words.length (buffer.map List.length) with
    | some refusal => exact h
    | none => exact allocated_access h id _
  | clear => exact absurd rfl hclear

end Memory

namespace Oram

/-- Each id is replaced by the one that `π` puts in its place, where a block holds it and where an
entry stands by it. -/
def permute (hn : n < 2 ^ 64) (π : Equiv.Perm {i : Word // i.toNat < n}) (o : Oram w) : Oram w :=
  ⟨(Relabelling.permuting hn π).layer o.layer, o.positions.permute (Equiv.Perm.ofSubtype π)⟩

variable {hn : n < 2 ^ 64} {π : Equiv.Perm {i : Word // i.toNat < n}} {o o' : Oram w}

theorem ofSubtype_lt_iff (π : Equiv.Perm {i : Word // i.toNat < n}) (i : Word) :
    (Equiv.Perm.ofSubtype π i).toNat < n ↔ i.toNat < n :=
  Equiv.Perm.ofSubtype_apply_mem_iff_mem π i

theorem entry_permute {map : ScanMap} (hscan : o.positions = .scan map) (hmap : map.size = n)
    (i : {i : Word // i.toNat < n}) :
    (o.permute hn π).positions.entry (π i : Word).toNat = o.positions.entry (i : Word).toNat := by
  subst hmap
  rw [permute, hscan, PositionMap.permute, PositionMap.entry, PositionMap.entry,
    ← Equiv.Perm.ofSubtype_apply_coe, Array.getD_eq_getD_getElem?,
    ScanMap.getElem?_permute (ofSubtype_lt_iff π), Array.getD_eq_getD_getElem?]

theorem report_permute (o : Oram w) : (o.permute hn π).report = o.report := by
  obtain ⟨layer, positions⟩ := o
  cases positions <;> rfl

theorem Sound.size_scan (h : o.Sound) {map : ScanMap} (hscan : o.positions = .scan map) :
    map.size = o.layer.capacity := by
  rw [← h.size, hscan, PositionMap.size]

variable [LeafSource σ]

theorem permute_accessSized (hallocated : o.layer.allocated = n) {map : ScanMap}
    (hscan : o.positions = .scan map) (hmap : map.size = n) (id : Word) (use : Accessor w α) :
    (o.permute hn π).accessSized (σ := σ) (Equiv.Perm.ofSubtype π id) use =
      (fun x => (x.1, x.2.1.permute hn π, x.2.2)) <$> o.accessSized id use := by
  obtain ⟨layer, positions⟩ := o
  subst hmap hscan
  have hmatches : (Relabelling.permuting hn π).Matches (fun answer => answer) (fun answer => answer)
      use use := ⟨fun _ => rfl, fun _ => rfl, fun _ => rfl⟩
  have hid : ((Relabelling.permuting (w := w) hn π).id id).toNat < layer.allocated ↔
      id.toNat < layer.allocated := by
    rw [hallocated]
    exact ofSubtype_lt_iff π id
  have hrelocate : ∀ next, ((PositionMap.scan map : PositionMap w).permute
      (Equiv.Perm.ofSubtype π)).relocateSized (σ := σ) ((Relabelling.permuting (w := w) hn π).id id)
        next = (fun x => (x.1, x.2.1.permute (Equiv.Perm.ofSubtype π), x.2.2)) <$>
          (PositionMap.scan map : PositionMap w).relocateSized id next := by
    intro next
    have hmap := ScanMap.relocate_permute (ofSubtype_lt_iff π) hn id next
    rw [PositionMap.permute, PositionMap.relocateSized, PositionMap.relocateSized, map_pure]
    exact congrArg (fun x : _ × ScanMap => pure (x.1, PositionMap.scan x.2, [])) hmap
  have haccess := hmatches.accessSized (σ := σ) layer hid (.scan map)
    (PositionMap.permute (Equiv.Perm.ofSubtype π)) hrelocate
  rw [accessSized, accessSized, map_bind]
  simp only [map_pure, bind_pure_comp]
  have hmap := congrArg (Functor.map fun x => (x.1, (⟨x.2.1, x.2.2.1⟩ : Oram w), x.2.2.2)) haccess
  rw [Functor.map_map, Functor.map_map] at hmap
  exact hmap

theorem permute_allocate (o : Oram w) (m : Nat) : (o.permute hn π).allocate m =
    Prod.map (fun first => first) (permute hn π) (o.allocate m) := by
  have hlayer := (Relabelling.permuting hn π).allocate_layer o.layer m
  exact congrArg (fun x : _ × Layer w =>
    (x.1, Oram.mk x.2 (o.positions.permute (Equiv.Perm.ofSubtype π)))) hlayer

omit [LeafSource σ] in
theorem permute_clear (o : Oram w) :
    (o.permute hn π).clear (σ := σ) = permute hn π <$> o.clear := by
  have hlayer := (Relabelling.permuting hn π).clear_layer o.layer
  rw [clear, clear, map_bind]
  simp only [map_pure, permute, hlayer]
  rfl

theorem permute_stepSized (hallocated : o.layer.allocated = n) {map : ScanMap}
    (hscan : o.positions = .scan map) (hmap : map.size = n) (command : Command w α) :
    (o.permute hn π).stepSized (σ := σ) (command.mapIds (Equiv.Perm.ofSubtype π)) =
      (fun x => (x.1, x.2.1.permute hn π, x.2.2)) <$> o.stepSized command := by
  have haccess : ∀ {β : Type} (id : Word) (use : Accessor w β),
      (o.permute hn π).accessSized (σ := σ) (Equiv.Perm.ofSubtype π id) use =
        (fun x => (x.1, x.2.1.permute hn π, x.2.2)) <$> o.accessSized id use := fun id use =>
    permute_accessSized hallocated hscan hmap id use
  cases command with
  | get | put | access =>
    simp only [Command.mapIds, stepSized, haccess, map_bind, map_pure, bind_map_left]
  | putPartial id start words buffer =>
    rw [Command.mapIds, stepSized, stepSized]
    cases windowRefusal? w start words.length (buffer.map List.length) with
    | some refusal => rfl
    | none => simp only [haccess, map_bind, map_pure, bind_map_left]
  | allocate m =>
    rw [Command.mapIds, stepSized, stepSized, permute_allocate, map_pure]
    rfl
  | clear => simp only [Command.mapIds, stepSized, permute_clear, map_bind, map_pure, bind_map_left]

theorem Stepped.exists_scan {env env' : Env σ} {target : Option Word}
    (h : Stepped env env' o target o') (hscan : ∃ map, o.positions = .scan map) :
    ∃ map, o'.positions = .scan map := by
  cases h with
  | kept | allocated | cleared => exact hscan
  | accessed hid hsource haccess =>
    cases haccess with
    | intro hpositions hlayer =>
      obtain ⟨map, hmap⟩ := hscan
      rw [hmap] at hpositions
      generalize o'.positions = positions at hpositions
      cases hpositions with
      | scan => exact ⟨_, rfl⟩

variable [LawfulLeafSource σ]

theorem Shows.permute_runSized {memory : Memory w n} (h : o.Shows memory)
    (hallocated : memory.allocated = n) (hscan : ∃ map, o.positions = .scan map)
    {commands : List (Command w α)} (hclear : .clear ∉ commands) {answers : List (Answer w α)}
    {sizes : List (List Nat)} {env env' : Env σ}
    (hrun : (o.runSized commands).run env = (.ok (answers, o', sizes), env')) :
    ((o.permute hn π).runSized (commands.map (.mapIds (Equiv.Perm.ofSubtype π)))).run env =
      (.ok (answers, o'.permute hn π, sizes), env') := by
  -- The step lemma applies again and again, as calls leave all blocks allocated and the map scanned.
  induction commands generalizing o memory answers sizes env with
  | nil =>
    cases hrun
    rfl
  | cons command rest ih =>
    rw [List.mem_cons, not_or] at hclear
    obtain ⟨⟨answer, o₁, size⟩, env₁, hfirst, hrun⟩ := Engine.exists_of_run_bind hrun
    obtain ⟨⟨answers, o₂, more⟩, env₂, hrest, hpure⟩ := Engine.exists_of_run_bind hrun
    cases hpure
    have hstep := Engine.run_map_ok hfirst fun x => (x.1, x.2.1)
    rw [stepSized_erase] at hstep
    obtain ⟨o₁', env₁', hstep', hshows, hstepped⟩ := h.exists_step command env
    cases hstep.symm.trans hstep'
    have hpermuted := ih hshows (Memory.allocated_step hallocated (Ne.symm hclear.1))
      (hstepped.exists_scan hscan) hclear.2 hrest
    obtain ⟨map, hmap⟩ := hscan
    have hsize : map.size = n := (h.sound.size_scan hmap).trans h.capacity_eq
    have hmapped := Engine.run_map_ok hfirst fun x => (x.1, x.2.1.permute hn π, x.2.2)
    rw [← permute_stepSized (h.allocated_eq.trans hallocated) hmap hsize] at hmapped
    rw [List.map_cons, runSized, Engine.run_bind_ok hmapped, Engine.run_bind_ok hpermuted]
    rfl

/-- Ids of blocks only tell the blocks apart. If all blocks are allocated and the map is scanned, then
a memory in which the ids are permuted answers the same, reads and writes the same nodes, sorts as
many slots and publishes the same, and the ids of what it becomes are permuted, slot by slot. -/
theorem permuted_of_reachable (h : o.Reachable σ) (hscan : ∃ map, o.positions = .scan map)
    (hallocated : o.layer.allocated = o.layer.capacity)
    (π : Equiv.Perm {i : Word // i.toNat < o.layer.capacity}) {commands : List (Command w α)}
    (hclear : .clear ∉ commands) (env : Env σ) :
    let permuted := permute h.sound.layer.capacity_lt π
    let permutedCommands := commands.map (.mapIds (Equiv.Perm.ofSubtype π))
    (∀ i, (permuted o).positions.entry (π i : Word).toNat = o.positions.entry (i : Word).toNat) ∧
    ∃ answers o' sizes env',
      (o.run commands).run env = (.ok (answers, o'), env') ∧
      ((permuted o).run permutedCommands).run env = (.ok (answers, permuted o'), env') ∧
      (o.runSized commands).run env = (.ok (answers, o', sizes), env') ∧
      ((permuted o).runSized permutedCommands).run env =
        (.ok (answers, permuted o', sizes), env') ∧
      (permuted o').layer.tree.history = o'.layer.tree.history ∧
      (permuted o').layer.stash.overflowCount = o'.layer.stash.overflowCount ∧
      (permuted o').layer.stash.capacity = o'.layer.stash.capacity ∧
      (permuted o').report = o'.report := by
  intro permuted permutedCommands
  obtain ⟨memory, hshows⟩ := h.sound.exists_shows
  obtain ⟨answers, o', sizes, env', hrun, hsized⟩ := h.sound.exists_runSized commands env
  have hpermuted : ((permuted o).runSized permutedCommands).run env =
      (.ok (answers, permuted o', sizes), env') :=
    hshows.permute_runSized (hshows.allocated_eq.symm.trans hallocated) hscan hclear hsized
  have herased := Engine.run_map_ok hpermuted fun x => (x.1, x.2.1)
  rw [runSized_erase] at herased
  obtain ⟨map, hmap⟩ := hscan
  exact ⟨entry_permute hmap (h.sound.size_scan hmap), answers, o', sizes, env', hrun, herased,
    hsized, hpermuted, rfl, Relabelling.overflowCount_stash _ _, Relabelling.capacity_stash _ _,
    report_permute o'⟩

theorem permuted_swapped : ∃ (o : Oram 2) (env : Env WordStream)
    (hn : o.layer.capacity < 2 ^ 64) (π : Equiv.Perm {i : Word // i.toNat < o.layer.capacity}),
    o.Reachable WordStream ∧ o.layer.contents 0 = #v[5, 6] ∧ o.layer.contents 1 = #v[7, 8] ∧
    Equiv.Perm.ofSubtype π 0 = 1 ∧ Equiv.Perm.ofSubtype π 1 = 0 ∧
    ∃ (answers : List (Answer 2 Unit)) (o' : Oram 2) (env' : Env WordStream),
      (o.run [.get 0, .put 1 #v[1, 2]]).run env = (.ok (answers, o'), env') ∧
      ((o.permute hn π).run [.get 1, .put 0 #v[1, 2]]).run env =
        (.ok (answers, o'.permute hn π), env') := by
  have hreaches : Request.reaches (w := 2) (α := Unit) ⟨0, 16, .bitonic⟩ (.words 8)
      [.allocate 4, .put 0 #v[5, 6], .put 1 #v[7, 8]] ⟨WordStream.ofSeed 1, #[]⟩ (fun o =>
        (o.positions matches .scan _) && o.layer.capacity == 4 && o.layer.allocated == 4 &&
          o.layer.contents 0 == #v[5, 6] && o.layer.contents 1 == #v[7, 8]) = true := by
    decide +kernel
  obtain ⟨o₀, o, env₀, env, answers, hcreate, hrun, hwanted⟩ := exists_of_reaches hreaches
  simp only [Bool.and_eq_true, beq_iff_eq] at hwanted
  obtain ⟨⟨⟨⟨hscanned, hcapacity⟩, hallocated⟩, hzero⟩, hone⟩ := hwanted
  have hreachable : o.Reachable WordStream := (Reachable.created hcreate).run hrun
  have hscan : ∃ map, o.positions = .scan map := by
    cases hpositions : o.positions with
    | scan map => exact ⟨map, rfl⟩
    | packed =>
      rw [hpositions] at hscanned
      cases hscanned
  have h₀ : (0 : Word).toNat < o.layer.capacity := by rw [hcapacity]; decide
  have h₁ : (1 : Word).toNat < o.layer.capacity := by rw [hcapacity]; decide
  let π : Equiv.Perm {i : Word // i.toNat < o.layer.capacity} := Equiv.swap ⟨0, h₀⟩ ⟨1, h₁⟩
  have hπ₀ : Equiv.Perm.ofSubtype π 0 = 1 := by
    rw [Equiv.Perm.ofSubtype_apply_of_mem π h₀, Equiv.swap_apply_left]
  have hπ₁ : Equiv.Perm.ofSubtype π 1 = 0 := by
    rw [Equiv.Perm.ofSubtype_apply_of_mem π h₁, Equiv.swap_apply_right]
  have hclear : Command.clear ∉ [Command.get (w := 2) (α := Unit) 0, .put 1 #v[1, 2]] := by simp
  obtain ⟨-, answers, o', sizes, env', hrun, hpermuted, -⟩ :=
    permuted_of_reachable hreachable hscan (hallocated.trans hcapacity.symm) π hclear env
  simp only [List.map_cons, List.map_nil, Command.mapIds, hπ₀, hπ₁] at hpermuted
  exact ⟨o, env, hreachable.sound.layer.capacity_lt, π, hreachable, hzero, hone, hπ₀, hπ₁, answers,
    o', env', hrun, hpermuted⟩

end Oram

end ObliviousRam
