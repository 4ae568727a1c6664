import SchemaKeeper.Workspace

/-!
# A supply from a seed and a time

The tool draws its identifiers from a random seed and its times from the moment of its start.
-/
namespace SchemaKeeper.Cli

/-- Scatters the bits of a word. -/
def scatter (x : UInt64) : UInt64 :=
  let x := (x ^^^ (x >>> 30)) * 0xbf58476d1ce4e5b9
  let x := (x ^^^ (x >>> 27)) * 0x94d049bb133111eb
  x ^^^ (x >>> 31)

/-- The word at a place of the sequence that a seed starts. -/
def randomWord (seed : UInt64) (n : Nat) : UInt64 :=
  scatter (seed + UInt64.ofNat (n + 1) * 0x9e3779b97f4a7c15)

/-- The supply of a run: identifiers from two seeds, times that follow the start one nanosecond
after the other. -/
def supplyOf (high low : UInt64) (start : Nat) : Supply where
  ids := fun n => Uuid.ofRandom ((randomWord high n).toNat * UInt64.size + (randomWord low n).toNat)
  clock := fun n => Moment.ofNanoseconds (start + n)
  stopwatch := id
  drawn := 0
  read := 0
  timed := 0

end SchemaKeeper.Cli
