import ObliviousRam.Engine

namespace ObliviousRam

namespace LeafSource

variable {σ : Type} [LeafSource σ]

def drawAll : List Word → σ → List Word × σ
  | [], s => ([], s)
  | n :: ns, s =>
    let (x, s) := draw n s
    let (xs, s) := drawAll ns s
    (x :: xs, s)

theorem drawAll_append (ms ns : List Word) (s : σ) :
    drawAll (ms ++ ns) s =
      ((drawAll ms s).1 ++ (drawAll ns (drawAll ms s).2).1, (drawAll ns (drawAll ms s).2).2) := by
  induction ms generalizing s with
  | nil => rfl
  | cons m ms ih =>
    rw [List.cons_append, drawAll, drawAll]
    simp only [ih, List.cons_append]

theorem length_drawAll (ns : List Word) (s : σ) : (drawAll ns s).1.length = ns.length := by
  induction ns generalizing s with
  | nil => rfl
  | cons n ns ih => simp only [drawAll, List.length_cons, ih]

end LeafSource

namespace Engine

variable {σ α β : Type}

@[simp] theorem run_pure (a : α) (env : Env σ) : (pure a : Engine σ α).run env = (.ok a, env) := rfl

@[simp] theorem run_throw (e : Fault) (env : Env σ) :
    (throw e : Engine σ α).run env = (.error e, env) := rfl

@[simp] theorem run_lift (x : Except Fault α) (env : Env σ) :
    (liftM x : Engine σ α).run env = (x, env) := rfl

@[simp] theorem run_tell (e : Event) (env : Env σ) :
    (tell e).run env = (.ok (), { env with log := env.log.push e }) := rfl

@[simp] theorem run_draw [LeafSource σ] (n : Word) (env : Env σ) :
    (draw n).run env = (.ok (LeafSource.draw n env.source).1,
      { env with source := (LeafSource.draw n env.source).2 }) := rfl

theorem run_bind (x : Engine σ α) (f : α → Engine σ β) (env : Env σ) :
    (x >>= f).run env = match x.run env with
      | (.ok a, env) => (f a).run env
      | (.error e, env) => (.error e, env) := by
  rcases h : x.run env with ⟨_ | _, _⟩
  all_goals
    rw [run] at h
    simp only [run, ExceptT.run_bind, StateT.run_bind, h]
    rfl

theorem run_bind_ok {x : Engine σ α} {env env' : Env σ} {a : α} (h : x.run env = (.ok a, env'))
    (f : α → Engine σ β) : (x >>= f).run env = (f a).run env' := by
  rw [run_bind, h]

theorem exists_of_run_bind {x : Engine σ α} {f : α → Engine σ β} {env env' : Env σ} {b : β}
    (h : (x >>= f).run env = (.ok b, env')) :
    ∃ a env₁, x.run env = (.ok a, env₁) ∧ (f a).run env₁ = (.ok b, env') := by
  rw [run_bind] at h
  split at h
  · exact ⟨_, _, ‹_›, h⟩
  · cases h

theorem run_map (f : α → β) (x : Engine σ α) (env : Env σ) : (f <$> x).run env =
    match x.run env with
    | (.ok a, env) => (.ok (f a), env)
    | (.error e, env) => (.error e, env) := by
  rw [← bind_pure_comp, run_bind]
  rfl

theorem exists_of_run_map {f : α → β} {x : Engine σ α} {b : β} {env env' : Env σ}
    (h : (f <$> x).run env = (.ok b, env')) : ∃ a, x.run env = (.ok a, env') ∧ f a = b := by
  rw [run_map] at h
  split at h
  next a env₁ hrun =>
    cases h
    exact ⟨a, hrun, rfl⟩
  next => cases h

theorem run_map_ok {x : Engine σ α} {a : α} {env env' : Env σ} (h : x.run env = (.ok a, env'))
    (f : α → β) : (f <$> x).run env = (.ok (f a), env') := by
  rw [run_map, h]

end Engine

namespace Creation

variable {σ α β : Type}

def run (x : Creation σ α) (env : Env σ) : Except Fault (Except Refusal α) × Env σ :=
  Engine.run (ExceptT.run x) env

@[simp] theorem run_pure (a : α) (env : Env σ) :
    run (pure a : Creation σ α) env = (.ok (.ok a), env) := rfl

@[simp] theorem run_throw (e : Refusal) (env : Env σ) :
    run (throw e : Creation σ α) env = (.ok (.error e), env) := rfl

theorem exists_of_run_bind {x : Creation σ α} {f : α → Creation σ β} {env env' : Env σ} {b : β}
    (h : run (x >>= f) env = (.ok (.ok b), env')) :
    ∃ a env₁, run x env = (.ok (.ok a), env₁) ∧ run (f a) env₁ = (.ok (.ok b), env') := by
  rw [run, ExceptT.run_bind] at h
  obtain ⟨r, env₁, hx, hf⟩ := Engine.exists_of_run_bind h
  cases r with
  | error e => cases hf
  | ok a => exact ⟨a, env₁, hx, hf⟩

theorem run_bind_ok {x : Creation σ α} {env env' : Env σ} {a : α}
    (h : run x env = (.ok (.ok a), env')) (f : α → Creation σ β) :
    run (x >>= f) env = run (f a) env' := by
  rw [run, ExceptT.run_bind]
  exact Engine.run_bind_ok h _

theorem run_bind_error {x : Creation σ α} {env env' : Env σ} {e : Refusal}
    (h : run x env = (.ok (.error e), env')) (f : α → Creation σ β) :
    run (x >>= f) env = (.ok (.error e), env') := by
  rw [run, ExceptT.run_bind]
  exact Engine.run_bind_ok h _

theorem run_lift_ok {x : Engine σ α} {env env' : Env σ} {a : α} (h : x.run env = (.ok a, env')) :
    run (liftM x : Creation σ α) env = (.ok (.ok a), env') := Engine.run_bind_ok h _

theorem run_except_ok {x : Except Refusal α} {a : α} (h : x = .ok a) (env : Env σ) :
    run (liftM x : Creation σ α) env = (.ok (.ok a), env) := by
  rw [h]
  rfl

theorem exists_of_run_lift {x : Engine σ α} {env env' : Env σ} {a : α}
    (h : run (liftM x : Creation σ α) env = (.ok (.ok a), env')) : x.run env = (.ok a, env') := by
  have hmap : ExceptT.run (liftM x : Creation σ α) = x >>= fun a => pure (.ok a) := rfl
  rw [run, hmap] at h
  obtain ⟨b, env₁, hx, hpure⟩ := Engine.exists_of_run_bind h
  cases hpure
  exact hx

theorem exists_of_run_except {x : Except Refusal α} {env env' : Env σ} {a : α}
    (h : run (liftM x : Creation σ α) env = (.ok (.ok a), env')) : x = .ok a ∧ env = env' := by
  cases x with
  | error e => cases h
  | ok b =>
    cases h
    exact ⟨rfl, rfl⟩

def succeeds (x : Creation σ α) (env : Env σ) : Bool :=
  match run x env with
  | (.ok (.ok _), _) => true
  | _ => false

theorem exists_of_succeeds {x : Creation σ α} {env : Env σ} (h : succeeds x env = true) :
    ∃ a env', run x env = (.ok (.ok a), env') := by
  rw [succeeds] at h
  split at h
  · exact ⟨_, _, ‹_›⟩
  · cases h

def refuses (x : Creation σ α) (refusal : Refusal) (env : Env σ) : Bool :=
  match run x env with
  | (.ok (.error e), _) => e == refusal
  | _ => false

theorem exists_of_refuses {x : Creation σ α} {refusal : Refusal} {env : Env σ}
    (h : refuses x refusal env = true) : ∃ env', run x env = (.ok (.error refusal), env') := by
  rw [refuses] at h
  split at h
  next e env' hrun => exact ⟨env', beq_iff_eq.1 h ▸ hrun⟩
  next => cases h

end Creation

end ObliviousRam
