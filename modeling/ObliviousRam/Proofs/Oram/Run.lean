import ObliviousRam.Proofs.Oram.Creation
import ObliviousRam.Proofs.Oram.Memory
import ObliviousRam.Random.Uniform

namespace ObliviousRam

open LeafSource

variable {w capacity : Nat} {σ α : Type}

/-- The block that a call accesses, if it is not turned down. -/
def Command.target? (allocated : Nat) : Command w α → Option Word
  | .get id | .put id _ | .access id _ => if id.toNat < allocated then some id else none
  | .putPartial id start words buffer =>
    match Oram.windowRefusal? w start words.length (buffer.map List.length) with
    | some _ => none
    | none => if id.toNat < allocated then some id else none
  | .allocate _ | .clear => none

namespace Memory

variable {memory : Memory w capacity}

theorem access_of_lt {id : Word} (hid : id.toNat < memory.allocated) (hlt : id.toNat < capacity)
    (use : Accessor w α) : memory.access id use = ((use memory.blocks[id.toNat]).1,
      { memory with blocks := memory.blocks.set id.toNat (use memory.blocks[id.toNat]).2 }) := by
  rw [access, dif_pos hid]

theorem access_of_le {id : Word} (hid : memory.allocated ≤ id.toNat) (use : Accessor w α) :
    memory.access id use = (.error .unallocatedBlock, memory) := by
  rw [access, dif_neg (Nat.not_lt.2 hid)]

theorem write_eq_splice (start : Nat) (words : List Word) (data : Vector Word w) :
    Window.write start words data = splice start words data := by
  apply Vector.ext
  intro i hi
  rw [Window.getElem_write, splice, Vector.getElem_ofFn]
  by_cases hlow : i < start
  · rw [if_neg (by omega), if_pos hlow]
    rfl
  · rw [if_neg hlow]
    by_cases hhigh : i < start + words.length
    · have hlt : i - start < words.length := by omega
      rw [if_pos ⟨by omega, hhigh⟩]
      simp only [List.getD_eq_getElem?_getD, List.getElem?_eq_getElem hlt, Option.getD_some]
    · have hnone : words[i - start]? = none := List.getElem?_eq_none (by omega)
      rw [if_neg (by omega), List.getD_eq_getElem?_getD, hnone]
      rfl

theorem putPartial_eq (memory : Memory w capacity) (id : Word) (start : Nat) (words : List Word)
    (buffer : Option (List Word)) : memory.putPartial id start words buffer =
      match Oram.windowRefusal? w start words.length (buffer.map List.length) with
      | some refusal => (.error refusal, memory)
      | none => memory.access id fun data =>
        (.ok (buffer.map (Window.read start words.length data)), Window.write start words data) := by
  unfold putPartial Oram.windowRefusal?
  by_cases hrange : words = [] ∨ w < start + words.length
  · rw [if_pos hrange, if_pos (by simpa only [List.length_eq_zero_iff] using hrange)]
  · rw [if_neg hrange, if_neg (by simpa only [List.length_eq_zero_iff] using hrange)]
    rw [not_or, Nat.not_lt] at hrange
    cases buffer with
    | none => simp only [Option.map_none, write_eq_splice]
    | some old =>
      by_cases hlength : old.length = words.length
      · simp only [Option.map_some, if_pos hlength, write_eq_splice,
          Window.read_eq start words.length _ old hlength hrange.2]
      · simp only [Option.map_some, if_neg hlength]

end Memory

namespace Oram

/-- A sound memory that clients take for the given array. -/
structure Shows (o : Oram w) (memory : Memory w capacity) : Prop where
  sound : o.Sound
  capacity_eq : o.layer.capacity = capacity
  allocated_eq : o.layer.allocated = memory.allocated
  blocks_eq : ∀ i (hi : i < capacity), o.layer.contents (UInt64.ofNat i) = memory.blocks[i]

variable [LeafSource σ] {o o' : Oram w} {memory : Memory w capacity} {env env' : Env σ}

/-- What holds of a memory with calls to come, and is kept by each of them, holds when all are made. -/
theorem run_induction {P : List (Command w α) → Oram w → Env σ → Prop}
    (hstep : ∀ {command rest o answer o' env env'}, P (command :: rest) o env →
      (o.step command).run env = (.ok (answer, o'), env') → P rest o' env')
    {commands : List (Command w α)} {answers : List (Answer w α)} (h : P commands o env)
    (hrun : (o.run commands).run env = (.ok (answers, o'), env')) : P [] o' env' := by
  induction commands generalizing o env answers with
  | nil =>
    cases hrun
    exact h
  | cons command rest ih =>
    obtain ⟨⟨answer, o₁⟩, env₁, hfirst, hrun⟩ := Engine.exists_of_run_bind hrun
    obtain ⟨⟨answers, o₂⟩, env₂, hrest, hpure⟩ := Engine.exists_of_run_bind hrun
    cases hpure
    exact ih (hstep h hfirst) hrest

/-- All that a call can do to a memory, and the draws that it makes. -/
inductive Stepped (env env' : Env σ) (o : Oram w) : Option Word → Oram w → Prop
  | kept (source : env'.source = env.source) : Stepped env env' o none o
  | allocated {n : Nat} (le : o.layer.allocated + n ≤ o.layer.capacity)
      (source : env'.source = env.source) : Stepped env env' o none
        { o with layer := { o.layer with allocated := o.layer.allocated + n } }
  | cleared (source : env'.source = env.source) :
      Stepped env env' o none { o with layer := o.layer.clear }
  | accessed {id : Word} {data : Vector Word w} {o' : Oram w} (lt : id.toNat < o.layer.allocated)
      (source : env'.source = (drawAll o.leafCounts env.source).2)
      (access : o.Accessed id (drawAll o.leafCounts env.source).1 data o') :
      Stepped env env' o (some id) o'

theorem shows_blank {n : Nat} (ho : o.Sound) (hslots : o.layer.slots = List.replicate n Block.empty)
    (hcapacity : o.layer.capacity = capacity) (hallocated : o.layer.allocated = 0) :
    o.Shows (Memory.blank w capacity) where
  sound := ho
  capacity_eq := hcapacity
  allocated_eq := hallocated
  blocks_eq := by
    intro i hi
    rw [Layer.contents_of_empty hslots, Memory.blank, Vector.getElem_replicate]

theorem Created.shows {bounds values : List Word} {slot : Nat → Nat}
    (h : o.Created σ bounds values slot) : o.Shows (Memory.blank w o.layer.capacity) := by
  obtain ⟨n, hslots⟩ := h.fresh.slots
  exact shows_blank h.sound hslots rfl h.fresh.allocated

theorem Shows.clear (h : o.Shows memory) :
    ({ o with layer := o.layer.clear } : Oram w).Shows (Memory.blank w capacity) := by
  obtain ⟨n, hslots⟩ := o.layer.exists_slots_clear
  exact shows_blank h.sound.clear hslots h.capacity_eq rfl

theorem Shows.allocate (h : o.Shows memory) {n : Nat} (hn : memory.allocated + n ≤ capacity) :
    ({ o with layer := { o.layer with allocated := o.layer.allocated + n } } : Oram w).Shows
      (⟨memory.allocated + n, hn, memory.blocks⟩ : Memory w capacity) where
  sound := h.sound.allocate (by rw [h.allocated_eq, h.capacity_eq]; exact hn)
  capacity_eq := h.capacity_eq
  allocated_eq := by rw [h.allocated_eq]
  blocks_eq := h.blocks_eq

theorem Shows.accessed (h : o.Shows memory) {id : Word} (hid : id.toNat < memory.allocated)
    (hlt : id.toNat < capacity) {draws : List Word} {data : Vector Word w}
    (ha : o.Accessed id draws data o') (hdraws : List.Forall₂ (· < ·) draws o.leafCounts) :
    o'.Shows { memory with blocks := memory.blocks.set id.toNat data } where
  sound := ha.sound h.sound (h.allocated_eq ▸ hid) hdraws
  capacity_eq := by rw [ha.capacity_eq, h.capacity_eq]
  allocated_eq := by rw [ha.allocated_eq, h.allocated_eq]
  blocks_eq := by
    intro i hi
    have hcapacity := h.sound.layer.capacity_lt
    rw [h.capacity_eq] at hcapacity
    have htoNat : (UInt64.ofNat i).toNat = i := by
      rw [UInt64.toNat_ofNat', Nat.mod_eq_of_lt (Nat.lt_trans hi hcapacity)]
    have hne : UInt64.ofNat i ≠ Word.allOnes := by
      intro heq
      rw [heq, Word.toNat_allOnes] at htoNat
      omega
    rw [ha.contents_eq h.sound hne, Vector.getElem_set, h.blocks_eq i hi]
    by_cases heq : id.toNat = i
    · rw [if_pos heq, if_pos (UInt64.toNat_inj.1 (htoNat.trans heq.symm))]
    · rw [if_neg heq, if_neg fun hid : UInt64.ofNat i = id => heq (hid ▸ htoNat)]

variable [LawfulLeafSource σ]

theorem Shows.exists_access (h : o.Shows memory) (id : Word) (use : Accessor w α) (env : Env σ) :
    ∃ o' env', (o.access id use).run env = (.ok ((memory.access id use).1, o'), env') ∧
      o'.Shows (memory.access id use).2 ∧
      Stepped env env' o (if id.toNat < o.layer.allocated then some id else none) o' := by
  by_cases hid : id.toNat < o.layer.allocated
  · have hlt : id.toNat < capacity :=
      h.capacity_eq ▸ Nat.lt_of_lt_of_le hid h.sound.layer.allocated_le
    have hblock := h.blocks_eq id.toNat hlt
    rw [UInt64.ofNat_toNat] at hblock
    obtain ⟨o', log, hrun, haccessed⟩ := Oram.exists_access h.sound hid use env
    rw [hblock] at hrun haccessed
    rw [if_pos hid, Memory.access_of_lt (h.allocated_eq ▸ hid) hlt]
    exact ⟨o', _, hrun, h.accessed (h.allocated_eq ▸ hid) hlt haccessed
      (o.forall₂_leafCounts env.source), .accessed hid rfl haccessed⟩
  · have hle := Nat.not_lt.1 hid
    rw [if_neg hid, Memory.access_of_le (h.allocated_eq ▸ hle)]
    exact ⟨o, env, access_of_le o id use env hle, h, .kept rfl⟩

/-- A call answers what the array answers, and leaves a memory that shows what is left of it. -/
theorem Shows.exists_step (h : o.Shows memory) (command : Command w α) (env : Env σ) :
    ∃ o' env', (o.step command).run env = (.ok ((memory.step command).1, o'), env') ∧
      o'.Shows (memory.step command).2 ∧
      Stepped env env' o (command.target? o.layer.allocated) o' := by
  cases command with
  | allocate n =>
    by_cases hn : memory.allocated + n ≤ capacity
    · have hle : o.layer.allocated + n ≤ o.layer.capacity := by
        rw [h.allocated_eq, h.capacity_eq]
        exact hn
      have hanswer : (o.allocate n).1 = some (UInt64.ofNat memory.allocated) := by
        rw [Oram.allocate, Layer.allocate, if_pos hle, h.allocated_eq]
      have hnext : (o.allocate n).2 =
          { o with layer := { o.layer with allocated := o.layer.allocated + n } } := by
        rw [Oram.allocate, Layer.allocate, if_pos hle]
      rw [step, Memory.step, Memory.allocate, dif_pos hn, hanswer, hnext]
      exact ⟨_, env, rfl, h.allocate hn, .allocated hle rfl⟩
    · have hgt : ¬o.layer.allocated + n ≤ o.layer.capacity := by
        rw [h.allocated_eq, h.capacity_eq]
        exact hn
      have hanswer : o.allocate n = (none, o) := by
        rw [Oram.allocate, Layer.allocate, if_neg hgt]
      rw [step, Memory.step, Memory.allocate, dif_neg hn, hanswer]
      exact ⟨o, env, rfl, h, .kept rfl⟩
  | get id =>
    obtain ⟨o', env', hrun, hshows, hstepped⟩ := h.exists_access id (fun data => (.ok data, data)) env
    refine ⟨o', env', ?_, hshows, hstepped⟩
    rw [step, get, Engine.run_bind_ok hrun]
    rfl
  | put id data =>
    obtain ⟨o', env', hrun, hshows, hstepped⟩ := h.exists_access id (fun _ => (.ok (), data)) env
    refine ⟨o', env', ?_, hshows, hstepped⟩
    rw [step, put, Engine.run_bind_ok hrun]
    rfl
  | putPartial id start words buffer =>
    rw [step, putPartial, Memory.step, Memory.putPartial_eq, Command.target?]
    cases windowRefusal? w start words.length (buffer.map List.length) with
    | some refusal => exact ⟨o, env, rfl, h, .kept rfl⟩
    | none =>
      obtain ⟨o', env', hrun, hshows, hstepped⟩ := h.exists_access id (fun data =>
        (.ok (buffer.map (Window.read start words.length data)), Window.write start words data)) env
      refine ⟨o', env', ?_, hshows, hstepped⟩
      rw [Engine.run_bind_ok hrun]
      rfl
  | access id use =>
    obtain ⟨o', env', hrun, hshows, hstepped⟩ := h.exists_access id use env
    refine ⟨o', env', ?_, hshows, hstepped⟩
    rw [step, Engine.run_bind_ok hrun]
    rfl
  | clear => exact ⟨_, _, rfl, h.clear, .cleared rfl⟩

omit [LeafSource σ] [LawfulLeafSource σ] in
theorem Sound.exists_shows (h : o.Sound) : ∃ memory : Memory w o.layer.capacity, o.Shows memory :=
  ⟨⟨o.layer.allocated, h.layer.allocated_le,
    Vector.ofFn fun i : Fin o.layer.capacity => o.layer.contents (UInt64.ofNat i)⟩, h, rfl, rfl,
    fun i hi => by rw [Vector.getElem_ofFn]⟩

theorem Sound.stepped (h : o.Sound) {command : Command w α} {answer : Answer w α}
    (hrun : (o.step command).run env = (.ok (answer, o'), env')) :
    o'.Sound ∧ Stepped env env' o (command.target? o.layer.allocated) o' := by
  obtain ⟨memory, hshows⟩ := h.exists_shows
  obtain ⟨o₁, env₁, hstep, hshows₁, hstepped⟩ := hshows.exists_step command env
  rw [hrun, Prod.mk.injEq, Except.ok.injEq, Prod.mk.injEq] at hstep
  obtain ⟨⟨-, rfl⟩, rfl⟩ := hstep
  exact ⟨hshows₁.sound, hstepped⟩

theorem Shows.exists_run (h : o.Shows memory) (commands : List (Command w α)) (env : Env σ) :
    ∃ o' env', (o.run commands).run env = (.ok (memory.answers commands, o'), env') := by
  induction commands generalizing o memory env with
  | nil => exact ⟨o, env, rfl⟩
  | cons command rest ih =>
    obtain ⟨o₁, env₁, hstep, hshows, -⟩ := h.exists_step command env
    obtain ⟨o', env', hrest⟩ := ih hshows env₁
    refine ⟨o', env', ?_⟩
    rw [run, Engine.run_bind_ok hstep, Engine.run_bind_ok hrest]
    rfl

/-- Whatever was asked for, clients cannot tell a memory from an array of blocks. -/
theorem answers_of_create {config : Config} {request : Request}
    (h : Creation.run (request.create config) env = (.ok (.ok o), env'))
    (commands : List (Command w α)) (env₁ : Env σ) : ∃ o' env₂, (o.run commands).run env₁ =
      (.ok ((Memory.blank w o.layer.capacity).answers commands, o'), env₂) := by
  obtain ⟨bounds, slot, -, hcreated⟩ := exists_of_create h
  exact hcreated.shows.exists_run commands env₁

theorem answers_packed : ∃ (o : Oram 2) (env env' : Env WordStream),
    Creation.run (Request.create ⟨0, 1, .bitonic⟩ (.words 8)) env = (.ok (.ok o), env') ∧
    ∃ o' env₂, (o.run [.allocate 3, .put 1 #v[5, 6], .putPartial 1 1 [9] (some [0]),
        .access 1 fun data => (.error .integerConversion, data.swap 0 1), .get 1, .clear,
        .get (α := Unit) 1]).run env' =
      (.ok ((Memory.blank 2 o.layer.capacity).answers [.allocate 3, .put 1 #v[5, 6],
        .putPartial 1 1 [9] (some [0]),
        .access 1 fun data => (.error .integerConversion, data.swap 0 1), .get 1, .clear,
        .get 1], o'), env₂) := by
  have hsucceeds : Creation.succeeds (Request.create (w := 2) ⟨0, 1, .bitonic⟩ (.words 8))
      ⟨WordStream.ofSeed 1, #[]⟩ = true := by decide +kernel
  obtain ⟨o, env', h⟩ := Creation.exists_of_succeeds hsucceeds
  exact ⟨o, _, env', h, answers_of_create h _ env'⟩

end Oram

end ObliviousRam
