import ObliviousRam.Word

namespace ObliviousRam

structure WordStream where
  state : Word
  script : Array Word
  cycle : Bool
  taken : Nat

namespace WordStream

def ofSeed (seed : Word) : WordStream := ⟨seed, #[], false, 0⟩

/-- The finaliser of the SplitMix64 generator, a bijection of the words. -/
def mix (z : Word) : Word :=
  let z := (z ^^^ (z >>> 30)) * 0xBF58476D1CE4E5B9
  let z := (z ^^^ (z >>> 27)) * 0x94D049BB133111EB
  z ^^^ (z >>> 31)

def scripted? (s : WordStream) : Option Word :=
  s.script[if s.cycle then s.taken % s.script.size else s.taken]?

def next (s : WordStream) : Word × WordStream :=
  match s.scripted? with
  | some x => (x, { s with taken := s.taken + 1 })
  | none =>
    let state := s.state + 0x9E3779B97F4A7C15
    (mix state, { s with state, taken := s.taken + 1 })

end WordStream

end ObliviousRam
