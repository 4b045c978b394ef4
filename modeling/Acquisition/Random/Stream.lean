import Acquisition.Failure

/-!
# Streams of random words

A stream gives 32-bit words one after the other. There are two kinds: the
keystream of the ChaCha cipher with twelve rounds, under a key expanded from a
seed, and the high halves of a linear congruential sequence.

An index below a bound is drawn by multiplying a word with the bound. The low
half of the product says whether the word is fair, and another word is drawn if
it is not; the high half is the index.
-/
namespace Acquisition

-- Powers are those of the core language, also where others are in scope.
attribute [local instance (high)] instPowNat

inductive Stream
  /-- The key, the number of the next block, and what is left of the current one. -/
  | keystream (key : Vector UInt32 8) (next : UInt64) (rest : List UInt32)
  /-- The last term of the sequence. -/
  | congruential (state : UInt64)

namespace Stream

def rotateLeft (x n : UInt32) : UInt32 := x <<< n ||| x >>> (32 - n)

def rotateRight (x n : UInt32) : UInt32 := x >>> n ||| x <<< (32 - n)

/-- The step of the cipher on the words at four places. -/
def quarterRound (s : Vector UInt32 16) (i j k l : Fin 16) : Vector UInt32 16 :=
  let a := s[i] + s[j]
  let d := rotateLeft (s[l] ^^^ a) 16
  let c := s[k] + d
  let b := rotateLeft (s[j] ^^^ c) 12
  let a := a + b
  let d := rotateLeft (d ^^^ a) 8
  let c := c + d
  let b := rotateLeft (b ^^^ c) 7
  (((s.set i a).set j b).set k c).set l d

/-- A round on the columns of the square of words, then one on its diagonals. -/
def doubleRound (s : Vector UInt32 16) : Vector UInt32 16 :=
  let s := quarterRound s 0 4 8 12
  let s := quarterRound s 1 5 9 13
  let s := quarterRound s 2 6 10 14
  let s := quarterRound s 3 7 11 15
  let s := quarterRound s 0 5 10 15
  let s := quarterRound s 1 6 11 12
  let s := quarterRound s 2 7 8 13
  quarterRound s 3 4 9 14

/-- The block of a number: the words of "expand 32-byte k", the key, the number
and two zeros, to which twelve rounds of themselves are added. -/
def block (key : Vector UInt32 8) (number : UInt64) : Vector UInt32 16 :=
  let start : Vector UInt32 16 :=
    #v[0x61707865, 0x3320646e, 0x79622d32, 0x6b206574,
      key[0], key[1], key[2], key[3], key[4], key[5], key[6], key[7],
      number.toUInt32, (number >>> 32).toUInt32, 0, 0]
  start.zipWith (· + ·) (Nat.repeat doubleRound 6 start)

/-- The words into which a seed is expanded, by a congruential sequence whose
terms are folded and turned by their own high digits. -/
def expand : Nat → UInt64 → List UInt32
  | 0, _ => []
  | n + 1, s =>
    let s := s * 6364136223846793005 + 11634580027462260723
    rotateRight (((s >>> 18) ^^^ s) >>> 27).toUInt32 (s >>> 59).toUInt32 :: expand n s

/-- The keystream under the key expanded from a seed. -/
def ofSeed (seed : UInt64) : Stream :=
  let words := expand 8 seed
  .keystream (Vector.ofFn fun i => words.getD i 0) 0 []

/-- The next word. -/
def next : Stream → UInt32 × Stream
  | keystream key n (w :: rest) => (w, keystream key n rest)
  | keystream key n [] =>
    let words := block key n
    (words[0], keystream key (n + 1) words.toList.tail)
  | congruential s =>
    let s := s * 6364136223846793005 + 1442695040888963407
    ((s >>> 32).toUInt32, congruential s)

/-- Draws words up to the first fair one, which gives an index below `n`. The
index is zero if none of `tries` words is fair. -/
def draw (n zone : Nat) : Nat → Stream → Nat × Stream
  | 0, g => (0, g)
  | tries + 1, g =>
    let (w, g) := g.next
    let p := w.toNat * n
    if p % 2 ^ (32 : Nat) ≤ zone then (p / 2 ^ (32 : Nat), g) else draw n zone tries g

/-- An index below `n`, for `n` up to `2 ^ 32`. The fair words are those whose
product has a low half within the largest multiple of `n` by a power of two.
At least half of all words are fair. -/
def below (n : Nat) (g : Stream) : Nat × Stream :=
  draw n (n * 2 ^ (31 - n.log2) % 2 ^ (32 : Nat) - 1) 256 g

theorem draw_lt {n : Nat} (hn : 0 < n) (zone tries : Nat) (g : Stream) :
    (draw n zone tries g).1 < n := by
  induction tries generalizing g with
  | zero => exact hn
  | succ tries ih =>
    unfold draw
    split
    · rename_i w g' _
      show (if w.toNat * n % 2 ^ (32 : Nat) ≤ zone then (w.toNat * n / 2 ^ (32 : Nat), g')
        else draw n zone tries g').1 < n
      split
      · have hw : w.toNat < 2 ^ (32 : Nat) := w.toNat_lt
        exact Nat.div_lt_of_lt_mul (Nat.mul_lt_mul_of_pos_right hw hn)
      · exact ih g'

theorem below_lt {n : Nat} (hn : 0 < n) (g : Stream) : (below n g).1 < n := draw_lt hn ..

end Stream

end Acquisition
