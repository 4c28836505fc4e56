import ObliviousRam.Proofs.Engine

namespace ObliviousRam

variable {σ ε α β γ δ ι : Type}

inductive Agree (R : α → β → Prop) : Except ε α → Except ε β → Prop
  | ok {a : α} {b : β} (h : R a b) : Agree R (.ok a) (.ok b)
  | error (e : ε) : Agree R (.error e) (.error e)

namespace Agree

variable {R : α → β → Prop} {S : γ → δ → Prop}

theorem refl (x : Except ε α) : Agree Eq x x := by
  cases x with
  | ok a => exact .ok rfl
  | error e => exact .error e

theorem bind {x : Except ε α} {y : Except ε β} {f : α → Except ε γ} {g : β → Except ε δ}
    (h : Agree R x y) (hf : ∀ a b, R a b → Agree S (f a) (g b)) : Agree S (x >>= f) (y >>= g) := by
  cases h with
  | ok h => exact hf _ _ h
  | error e => exact .error e

theorem foldlM {f : α → ι → Except ε α} {g : β → ι → Except ε β}
    (h : ∀ a b i, R a b → Agree R (f a i) (g b i)) (l : List ι) {a : α} {b : β} (hab : R a b) :
    Agree R (l.foldlM f a) (l.foldlM g b) := by
  induction l generalizing a b with
  | nil => exact .ok hab
  | cons i l ih =>
    rw [List.foldlM_cons, List.foldlM_cons]
    exact (h a b i hab).bind fun a b => ih

end Agree

def Event.isGrowth : Event → Bool
  | overflowGrown _ => true
  | _ => false

def Env.story (env : Env σ) : List Event := env.log.toList.filter fun e => !e.isGrowth

/-- The draws to come are the same. Since `before` and `before'` the same was told, but for the growth
of stashes. -/
structure Env.Alike (before before' : List Event) (env env' : Env σ) : Prop where
  source : env.source = env'.source
  story : ∃ told, env.story = before ++ told ∧ env'.story = before' ++ told

namespace Env

variable {before before' : List Event} {env env' : Env σ}

theorem story_push (source : σ) (log : Array Event) (e : Event) :
    (⟨source, log.push e⟩ : Env σ).story =
      (⟨source, log⟩ : Env σ).story ++ if e.isGrowth then [] else [e] := by
  rw [story, story, Array.toList_push, List.filter_append]
  cases he : e.isGrowth <;> simp [he]

theorem Alike.of_source (h : env.source = env'.source) : Alike env.story env'.story env env' :=
  ⟨h, [], (List.append_nil _).symm, (List.append_nil _).symm⟩

variable (h : Alike before before' env env')
include h

theorem Alike.symm : Alike before' before env' env := by
  obtain ⟨told, hstory, hstory'⟩ := h.story
  exact ⟨h.source.symm, told, hstory', hstory⟩

theorem Alike.tell (e : Event) : Alike before before' { env with log := env.log.push e }
    { env' with log := env'.log.push e } := by
  obtain ⟨told, hstory, hstory'⟩ := h.story
  refine ⟨h.source, told ++ if e.isGrowth then [] else [e], ?_, ?_⟩
  · rw [story_push, ← List.append_assoc, ← hstory]
  · rw [story_push, ← List.append_assoc, ← hstory']

theorem Alike.grow_left (slots : Nat) :
    Alike before before' { env with log := env.log.push (.overflowGrown slots) } env' := by
  refine ⟨h.source, ?_⟩
  rw [story_push]
  simpa only [Event.isGrowth, ↓reduceIte, List.append_nil] using h.story

theorem Alike.grow_right (slots : Nat) :
    Alike before before' env { env' with log := env'.log.push (.overflowGrown slots) } :=
  (h.symm.grow_left slots).symm

end Env

namespace Engine

/-- If `x` ends well, then so does `y`, with a related result. Only with an excuse may `y` end with a
fault instead. -/
def Follows (excuse : Prop) (R : α → β → Prop) (x : Engine σ α) (y : Engine σ β) : Prop :=
  ∀ ⦃before before' : List Event⦄ ⦃env env' env₁ : Env σ⦄ ⦃a : α⦄, Env.Alike before before' env env' →
    x.run env = (.ok a, env₁) →
      (∃ b env₁', y.run env' = (.ok b, env₁') ∧ R a b ∧ Env.Alike before before' env₁ env₁') ∨
        excuse ∧ ∃ fault env₁', y.run env' = (.error fault, env₁')

namespace Follows

variable {excuse : Prop} {R : α → β → Prop} {S : γ → δ → Prop} {x : Engine σ α} {y : Engine σ β}

theorem pure {a : α} {b : β} (h : R a b) :
    Follows excuse R (pure a : Engine σ α) (pure b : Engine σ β) := by
  intro before before' env env' env₁ a' henv hrun
  cases hrun
  exact .inl ⟨b, env', rfl, h, henv⟩

theorem bind {f : α → Engine σ γ} {g : β → Engine σ δ} (h : Follows excuse R x y)
    (hf : ∀ a b, R a b → Follows excuse S (f a) (g b)) : Follows excuse S (x >>= f) (y >>= g) := by
  intro before before' env env' env₂ c henv hrun
  obtain ⟨a, env₁, hx, hfa⟩ := exists_of_run_bind hrun
  obtain ⟨b, env₁', hy, hab, henv₁⟩ | ⟨hexcuse, fault, env₁', hy⟩ := h henv hx
  · rw [run_bind_ok hy]
    exact hf a b hab henv₁ hfa
  · rw [run_bind, hy]
    exact .inr ⟨hexcuse, fault, env₁', rfl⟩

theorem lift {x : Except Fault α} {y : Except Fault β} (h : Agree R x y) :
    Follows excuse R (liftM x : Engine σ α) (liftM y : Engine σ β) := by
  intro before before' env env' env₁ a henv hrun
  cases h with
  | @ok _ b h =>
    cases hrun
    exact .inl ⟨b, env', rfl, h, henv⟩
  | error e => cases hrun

theorem tell (e : Event) : Follows excuse Eq (tell e : Engine σ Unit) (tell e) := by
  intro before before' env env' env₁ a henv hrun
  cases hrun
  exact .inl ⟨(), _, rfl, rfl, henv.tell e⟩

variable [LeafSource σ]

theorem draw (n : Word) : Follows excuse Eq (draw n : Engine σ Word) (draw n) := by
  intro before before' env env' env₁ a henv hrun
  rw [run_draw, henv.source] at hrun
  cases hrun
  exact .inl ⟨_, _, run_draw n env', rfl, rfl, henv.story⟩

theorem drawMany (n : Word) (count : Nat) :
    Follows excuse Eq (drawMany n count : Engine σ (List Word)) (drawMany n count) := by
  induction count with
  | zero => exact pure rfl
  | succ count ih =>
    apply (draw n).bind
    rintro x _ rfl
    apply ih.bind
    rintro rest _ rfl
    exact pure rfl

end Follows

end Engine

namespace Creation

def Follows (excuse : Prop) (R : α → β → Prop) (x : Creation σ α) (y : Creation σ β) : Prop :=
  Engine.Follows excuse (Agree R) (ExceptT.run x) (ExceptT.run y)

namespace Follows

variable {excuse : Prop} {R : α → β → Prop} {S : γ → δ → Prop} {x : Creation σ α} {y : Creation σ β}

theorem pure {a : α} {b : β} (h : R a b) :
    Follows excuse R (pure a : Creation σ α) (pure b : Creation σ β) := Engine.Follows.pure (.ok h)

theorem throw (e : Refusal) :
    Follows excuse R (throw e : Creation σ α) (throw e : Creation σ β) := Engine.Follows.pure (.error e)

theorem bind {f : α → Creation σ γ} {g : β → Creation σ δ} (h : Follows excuse R x y)
    (hf : ∀ a b, R a b → Follows excuse S (f a) (g b)) : Follows excuse S (x >>= f) (y >>= g) := by
  rw [Follows, ExceptT.run_bind, ExceptT.run_bind]
  refine Engine.Follows.bind h ?_
  intro a b hab
  cases hab with
  | ok hab => exact hf _ _ hab
  | error e => exact throw e

theorem lift {x : Engine σ α} {y : Engine σ β} (h : Engine.Follows excuse R x y) :
    Follows excuse R (liftM x : Creation σ α) (liftM y : Creation σ β) :=
  Engine.Follows.bind h fun _ _ hab => Engine.Follows.pure (.ok hab)

theorem except {x : Except Refusal α} {y : Except Refusal β} (h : Agree R x y) :
    Follows excuse R (liftM x : Creation σ α) (liftM y : Creation σ β) := Engine.Follows.pure h

end Follows

end Creation

end ObliviousRam
