/-!
# Blocks of pseudorandom words

The ChaCha function with twelve rounds turns a key and a block number into sixteen words.  The key is
spread from a single seed by a linear congruential generator with permuted output.
-/

namespace ThroughputCharts
namespace Random

abbrev BlockState := Vector UInt32 16

def rotateLeft (word : UInt32) (amount : UInt32) : UInt32 :=
  (word <<< amount) ||| (word >>> (32 - amount))

def quarterRound (first second third fourth : Fin 16) (state : BlockState) : BlockState :=
  let a := state[first] + state[second]
  let d := rotateLeft (state[fourth] ^^^ a) 16
  let c := state[third] + d
  let b := rotateLeft (state[second] ^^^ c) 12
  let a := a + b
  let d := rotateLeft (d ^^^ a) 8
  let c := c + d
  let b := rotateLeft (b ^^^ c) 7
  (((state.set first a).set second b).set third c).set fourth d

/-- One round down the columns and one along the diagonals. -/
def doubleRound (state : BlockState) : BlockState :=
  state
    |> quarterRound 0 4 8 12 |> quarterRound 1 5 9 13
    |> quarterRound 2 6 10 14 |> quarterRound 3 7 11 15
    |> quarterRound 0 5 10 15 |> quarterRound 1 6 11 12
    |> quarterRound 2 7 8 13 |> quarterRound 3 4 9 14

def doubleRounds : Nat → BlockState → BlockState
  | 0, state => state
  | count + 1, state => doubleRounds count (doubleRound state)

/-- The state of a block before mixing: four constants, the key, the block number and no nonce. -/
def initialState (key : Vector UInt32 8) (number : UInt64) : BlockState :=
  #v[0x61707865, 0x3320646e, 0x79622d32, 0x6b206574,
    key[0], key[1], key[2], key[3], key[4], key[5], key[6], key[7],
    number.toUInt32, (number >>> 32).toUInt32, 0, 0]

def block (key : Vector UInt32 8) (number : UInt64) : List UInt32 :=
  let state := initialState key number
  List.zipWith (· + ·) state.toList (doubleRounds 6 state).toList

def advance (state : UInt64) : UInt64 :=
  state * 6364136223846793005 + 11634580027462260723

/-- The output of the seed generator in a state. -/
def permuted (state : UInt64) : UInt32 :=
  let word := (((state >>> 18) ^^^ state) >>> 27).toUInt32
  let amount := (state >>> 59).toUInt32
  (word >>> amount) ||| (word <<< (32 - amount))

/-- Successive outputs of the seed generator. -/
def seedWords : (count : Nat) → UInt64 → List UInt32
  | 0, _ => []
  | count + 1, state => permuted (advance state) :: seedWords count (advance state)

theorem seedWords_length (count : Nat) (state : UInt64) :
    (seedWords count state).length = count := by
  induction count generalizing state with
  | zero => rfl
  | succ count induction => simp [seedWords, induction]

def keyOfSeed (seed : UInt64) : Vector UInt32 8 :=
  ⟨(seedWords 8 seed).toArray, by simp [seedWords_length]⟩

end Random
end ThroughputCharts
