import ObliviousRam.Failure
import ObliviousRam.Random.Source

namespace ObliviousRam

inductive Event where
  | scanMapCreated (size : Nat)
  | packedMapCreated (size width : Nat)
  | oramCreated (width capacity levels leaves depth : Nat)
  | oramCleared (capacity : Nat)
  | overflowGrown (slots : Nat)
  deriving DecidableEq

def Event.text : Event → String
  | scanMapCreated size => "DEBUG PositionMap::create -- scan (C = " ++ size.repr ++ ")"
  | packedMapCreated size width =>
    "DEBUG PositionMap::create -- recursive (C = " ++ size.repr ++ ", W = " ++ width.repr ++ ")"
  | oramCreated width capacity levels leaves depth =>
    "INFO PathOram::new(W = " ++ width.repr ++ ", capacity = " ++ capacity.repr ++
      " blocks, levels = " ++ levels.repr ++ ", leaves = " ++ leaves.repr ++
      ", recursion depth = " ++ depth.repr ++ ")"
  | oramCleared capacity => "INFO PathOram::clear(capacity = " ++ capacity.repr ++ " blocks)"
  | overflowGrown slots =>
    "DEBUG Stash overflow region full, growing to " ++ slots.repr ++ " slots"

structure Env (σ : Type) where
  source : σ
  log : Array Event

/-- A computation that draws leaves and tells events. A fault ends it and leaves the log. -/
abbrev Engine (σ : Type) := ExceptT Fault (StateM (Env σ))

namespace Engine

variable {σ α : Type}

def run (x : Engine σ α) (env : Env σ) : Except Fault α × Env σ := StateT.run (ExceptT.run x) env

def tell (e : Event) : Engine σ Unit := modify fun env => { env with log := env.log.push e }

variable [LeafSource σ]

def draw (n : Word) : Engine σ Word :=
  modifyGet fun env =>
    let (x, source) := LeafSource.draw n env.source
    (x, { env with source })

def drawMany (n : Word) : Nat → Engine σ (List Word)
  | 0 => return []
  | count + 1 => do
    let x ← draw n
    let rest ← drawMany n count
    return x :: rest

end Engine

abbrev Creation (σ : Type) := ExceptT Refusal (Engine σ)

end ObliviousRam
