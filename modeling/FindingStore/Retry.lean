import FindingStore.Config

/-!
Uniform numbers from a source of 64-bit words. A word is multiplied by the size of the range; the
high half of the product is the number, and words whose low half falls behind the zone are
rejected, so that every number of the range is equally likely.
-/

namespace FindingStore.Retry

/-- Words to be drawn in order, behind the last one zeros without end, and how many have been
drawn so far. -/
structure Source where
  words : List Nat := []
  drawn : Nat := 0
  deriving DecidableEq, Repr

def wordSize : Nat := 0x10000000000000000

/-- The largest low half that is accepted: the range moved to the top of the word, less one. -/
def zone (range : Nat) : Nat := (range <<< (63 - range.log2)) - 1

/-- A number below the range, and the source behind the words it took. A zero is always
accepted. -/
def below (range : Nat) : (words : List Nat) → (drawn : Nat) → Nat × Source
  | [], drawn => (0, ⟨[], drawn + 1⟩)
  | v :: rest, drawn =>
    if v * range % wordSize ≤ zone range then (v * range / wordSize, ⟨rest, drawn + 1⟩)
    else below range rest (drawn + 1)

def Source.between (source : Source) (low high : Nat) : Nat × Source :=
  let (n, source) := below (high - low + 1) source.words source.drawn
  (low + n, source)

structure Policy where
  maxAttempts : Nat
  baseMicros : Nat
  deriving DecidableEq, Repr

def Policy.ofConfig (config : Config) : Policy :=
  ⟨max 1 config.maxAttempts, Config.micros config.backoffBaseMs⟩

def largestWord : Nat := wordSize - 1

def capped (n : Nat) : Nat := min n largestWord

def maxDoublings : Nat := 32

def Policy.mean (p : Policy) (attempt : Nat) : Nat :=
  capped (capped p.baseMicros <<< min (attempt - 2) maxDoublings)

def shortest (mean : Nat) : Nat := capped (mean * 2) / 3

def longest (mean : Nat) : Nat := capped (mean * 4) / 3

/-- The delay in microseconds before an attempt, counted from one. The first attempt does not
wait, and where the bounds leave no choice nothing is drawn. -/
def Policy.delay (p : Policy) (attempt : Nat) (source : Source) : Nat × Source :=
  if attempt ≤ 1 then (0, source)
  else
    let mean := p.mean attempt
    if longest mean ≤ shortest mean then (mean, source)
    else source.between (shortest mean) (longest mean)

end FindingStore.Retry
