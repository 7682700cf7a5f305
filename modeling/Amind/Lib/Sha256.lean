/-
# SHA-256

The hash of a byte string as its specification computes it: the string is
padded to blocks of 64 bytes, each block is taken as 16 words and extended to
64, and 64 rounds mix them into the state.
-/
import Mathlib.Data.List.Basic
import Mathlib.Data.UInt

namespace Amind
namespace Sha256

def rotr (x : UInt32) (n : UInt32) : UInt32 := (x >>> n) ||| (x <<< (32 - n))

def ch (x y z : UInt32) : UInt32 := (x &&& y) ^^^ (~~~x &&& z)
def maj (x y z : UInt32) : UInt32 := (x &&& y) ^^^ (x &&& z) ^^^ (y &&& z)
def bigSigma0 (x : UInt32) : UInt32 := rotr x 2 ^^^ rotr x 13 ^^^ rotr x 22
def bigSigma1 (x : UInt32) : UInt32 := rotr x 6 ^^^ rotr x 11 ^^^ rotr x 25
def sigma0 (x : UInt32) : UInt32 := rotr x 7 ^^^ rotr x 18 ^^^ (x >>> 3)
def sigma1 (x : UInt32) : UInt32 := rotr x 17 ^^^ rotr x 19 ^^^ (x >>> 10)

/-- The constants of the rounds. -/
def rounds : List UInt32 :=
  [0x428a2f98, 0x71374491, 0xb5c0fbcf, 0xe9b5dba5, 0x3956c25b, 0x59f111f1, 0x923f82a4, 0xab1c5ed5,
   0xd807aa98, 0x12835b01, 0x243185be, 0x550c7dc3, 0x72be5d74, 0x80deb1fe, 0x9bdc06a7, 0xc19bf174,
   0xe49b69c1, 0xefbe4786, 0x0fc19dc6, 0x240ca1cc, 0x2de92c6f, 0x4a7484aa, 0x5cb0a9dc, 0x76f988da,
   0x983e5152, 0xa831c66d, 0xb00327c8, 0xbf597fc7, 0xc6e00bf3, 0xd5a79147, 0x06ca6351, 0x14292967,
   0x27b70a85, 0x2e1b2138, 0x4d2c6dfc, 0x53380d13, 0x650a7354, 0x766a0abb, 0x81c2c92e, 0x92722c85,
   0xa2bfe8a1, 0xa81a664b, 0xc24b8b70, 0xc76c51a3, 0xd192e819, 0xd6990624, 0xf40e3585, 0x106aa070,
   0x19a4c116, 0x1e376c08, 0x2748774c, 0x34b0bcb5, 0x391c0cb3, 0x4ed8aa4a, 0x5b9cca4f, 0x682e6ff3,
   0x748f82ee, 0x78a5636f, 0x84c87814, 0x8cc70208, 0x90befffa, 0xa4506ceb, 0xbef9a3f7, 0xc67178f2]

/-- The eight words of the state. -/
structure State where
  a : UInt32
  b : UInt32
  c : UInt32
  d : UInt32
  e : UInt32
  f : UInt32
  g : UInt32
  h : UInt32

def initial : State :=
  ⟨0x6a09e667, 0xbb67ae85, 0x3c6ef372, 0xa54ff53a, 0x510e527f, 0x9b05688c, 0x1f83d9ab, 0x5be0cd19⟩

def State.add (s t : State) : State :=
  ⟨s.a + t.a, s.b + t.b, s.c + t.c, s.d + t.d, s.e + t.e, s.f + t.f, s.g + t.g, s.h + t.h⟩

/-- The next word of the schedule, which is kept latest first. -/
def nextWord (ws : List UInt32) : UInt32 :=
  sigma1 (ws.getD 1 0) + ws.getD 6 0 + sigma0 (ws.getD 14 0) + ws.getD 15 0

def extend : ℕ → List UInt32 → List UInt32
  | 0, ws => ws
  | n + 1, ws => extend n (nextWord ws :: ws)

def round (s : State) (kw : UInt32 × UInt32) : State :=
  let t₁ := s.h + bigSigma1 s.e + ch s.e s.f s.g + kw.1 + kw.2
  let t₂ := bigSigma0 s.a + maj s.a s.b s.c
  ⟨t₁ + t₂, s.a, s.b, s.c, s.d + t₁, s.e, s.f, s.g⟩

/-- The words of a block, most significant byte first. -/
def words : List UInt8 → List UInt32
  | a :: b :: c :: d :: bs =>
    (a.toUInt32 <<< 24 ||| b.toUInt32 <<< 16 ||| c.toUInt32 <<< 8 ||| d.toUInt32) :: words bs
  | _ => []

def compress (s : State) (block : List UInt8) : State :=
  let schedule := (extend 48 (words block).reverse).reverse
  s.add ((rounds.zip schedule).foldl round s)

/-- The bytes of a word, most significant first. -/
def bytes (x : UInt32) : List UInt8 :=
  [(x >>> 24).toUInt8, (x >>> 16).toUInt8, (x >>> 8).toUInt8, x.toUInt8]

/-- The string with a one bit, zeros and its length in bits. -/
def pad (s : List UInt8) : List UInt8 :=
  s ++ 0x80 :: (List.replicate ((119 - s.length % 64) % 64) 0 ++
    (List.range 8).map fun i => UInt8.ofNat (8 * s.length / 256 ^ (7 - i)))

def blocks : ℕ → List UInt8 → List (List UInt8)
  | 0, _ => []
  | n + 1, s => s.take 64 :: blocks n (s.drop 64)

def hash (s : List UInt8) : List UInt8 :=
  let padded := pad s
  let final := (blocks (padded.length / 64) padded).foldl compress initial
  [final.a, final.b, final.c, final.d, final.e, final.f, final.g, final.h].flatMap bytes

/-- A hexadecimal digit. -/
def hexDigit (n : UInt8) : UInt8 := if n < 10 then 48 + n else 87 + n

/-- The hash as a string of hexadecimal digits. -/
def hex (s : List UInt8) : List UInt8 := (hash s).flatMap fun b => [hexDigit (b / 16), hexDigit (b % 16)]

-- the standard's first example: "abc"
example : hash [0x61, 0x62, 0x63] =
    [0xba, 0x78, 0x16, 0xbf, 0x8f, 0x01, 0xcf, 0xea, 0x41, 0x41, 0x40, 0xde, 0x5d, 0xae, 0x22, 0x23,
     0xb0, 0x03, 0x61, 0xa3, 0x96, 0x17, 0x7a, 0x9c, 0xb4, 0x10, 0xff, 0x61, 0xf2, 0x00, 0x15, 0xad] := by
  decide +kernel

/-- Its digits are ASCII. -/
theorem hexDigit_lt (n : UInt8) (h : n < 16) : hexDigit n < 0x80 := by
  have hall : ∀ k < 16, hexDigit (UInt8.ofNat k) < 0x80 := by decide
  have hn := hall n.toNat (UInt8.lt_iff_toNat_lt.mp h)
  rwa [UInt8.ofNat_toNat] at hn

theorem hex_lt (s : List UInt8) : ∀ b ∈ hex s, b < 0x80 := by
  intro b hb
  obtain ⟨x, -, hx⟩ := List.mem_flatMap.mp hb
  have hhi : x / 16 < 16 := by
    rw [UInt8.lt_iff_toNat_lt, UInt8.toNat_div]
    have := x.toNat_lt
    show x.toNat / 16 < 16
    omega
  have hlo : x % 16 < 16 := by
    rw [UInt8.lt_iff_toNat_lt, UInt8.toNat_mod]
    exact Nat.mod_lt _ (by decide)
  rcases List.mem_cons.mp hx with rfl | hx
  · exact hexDigit_lt _ hhi
  · rw [List.mem_singleton.mp hx]
    exact hexDigit_lt _ hlo

end Sha256
end Amind
