import CacheAudit.Bytes

/-!
# The SHA-2 digests

SHA-256 and SHA-512 are one algorithm over words of 32 and of 64 bits: the padded message is cut
into blocks of sixteen words, and each block is stirred into eight registers. A message can be
digested in one go or as it arrives; `Hasher` keeps the registers and the bytes that do not fill
a block yet.
-/

namespace CacheAudit.Digest

/-- The eight registers. -/
structure Registers (α : Type) where
  a : α
  b : α
  c : α
  d : α
  e : α
  f : α
  g : α
  h : α

/-- What the two members of the family differ in. -/
structure Variant (α : Type) where
  wordBytes : Nat
  initial : Registers α
  constants : List α
  bigSigma0 : α → α
  bigSigma1 : α → α
  smallSigma0 : α → α
  smallSigma1 : α → α
  ofBytes : Bytes → α
  toBytes : α → Bytes

section

variable {α : Type} [Inhabited α] [Add α] [AndOp α] [XorOp α] [Complement α]

/-- The number of bytes of a block. -/
def Variant.blockBytes (v : Variant α) : Nat :=
  16 * v.wordBytes

/-- A byte string in at most `fuel` pieces of `size` bytes; the last one may be shorter. -/
def chunksOf (size : Nat) (bytes : Bytes) : Nat → List Bytes
  | 0 => []
  | fuel + 1 =>
    if bytes.isEmpty then []
    else bytes.take size :: chunksOf size (bytes.drop size) fuel

/-- A byte string in pieces of `size` bytes. -/
def chunks (size : Nat) (bytes : Bytes) : List Bytes :=
  chunksOf size bytes bytes.length

/-- The words that a block provides to the rounds: its own sixteen and what they are stretched
to. -/
def Variant.schedule (v : Variant α) (block : Bytes) : Array α :=
  let own := ((chunks v.wordBytes block).map v.ofBytes).toArray
  (List.range (v.constants.length - 16)).foldl
    (fun w i =>
      let word (j : Nat) : α := w.getD (i + j) default
      w.push (v.smallSigma1 (word 14) + word 9 + v.smallSigma0 (word 1) + word 0))
    own

/-- One round with the sum of a constant and a word of the schedule. -/
def Variant.round (v : Variant α) (r : Registers α) (word : α) : Registers α :=
  let choice := (r.e &&& r.f) ^^^ (~~~ r.e &&& r.g)
  let majority := (r.a &&& r.b) ^^^ (r.a &&& r.c) ^^^ (r.b &&& r.c)
  let t1 := r.h + v.bigSigma1 r.e + choice + word
  let t2 := v.bigSigma0 r.a + majority
  ⟨t1 + t2, r.a, r.b, r.c, r.d + t1, r.e, r.f, r.g⟩

/-- The registers after one more block. -/
def Variant.compress (v : Variant α) (r : Registers α) (block : Bytes) : Registers α :=
  let words := List.zipWith (· + ·) v.constants (v.schedule block).toList
  let s := words.foldl v.round r
  ⟨r.a + s.a, r.b + s.b, r.c + s.c, r.d + s.d, r.e + s.e, r.f + s.f, r.g + s.g, r.h + s.h⟩

/-- A number in a given number of bytes, the most significant first. -/
def bigEndian (width n : Nat) : Bytes :=
  (List.range width).map fun i => UInt8.ofNat (n / Nat.pow 256 (width - 1 - i) % 256)

/-- What follows a message of `length` bytes: a single one bit, zeros up to the end of a block,
and the number of bits of the message in two words at that end. -/
def Variant.padding (v : Variant α) (length : Nat) : Bytes :=
  let tail := 2 * v.wordBytes
  let used := (length + 1 + tail) % v.blockBytes
  let zeros := if used = 0 then 0 else v.blockBytes - used
  0x80 :: List.replicate zeros 0 ++ bigEndian tail (8 * length)

/-- The digest that the registers hold in the end. -/
def Variant.output (v : Variant α) (r : Registers α) : Bytes :=
  [r.a, r.b, r.c, r.d, r.e, r.f, r.g, r.h].flatMap v.toBytes

/-- The digest of a message. -/
def Variant.digest (v : Variant α) (message : Bytes) : Bytes :=
  let blocks := chunks v.blockBytes (message ++ v.padding message.length)
  v.output (blocks.foldl v.compress v.initial)

/-- A digest under way: the registers, the bytes that do not fill a block yet, and the number of
bytes seen. -/
structure Hasher (α : Type) where
  registers : Registers α
  pending : Bytes
  length : Nat

/-- The digest of nothing, under way. -/
def Variant.start (v : Variant α) : Hasher α :=
  ⟨v.initial, [], 0⟩

/-- The digest after more bytes. -/
def Hasher.update (v : Variant α) (h : Hasher α) (bytes : Bytes) : Hasher α :=
  let all := h.pending ++ bytes
  let whole := all.length / v.blockBytes * v.blockBytes
  let blocks := chunks v.blockBytes (all.take whole)
  ⟨blocks.foldl v.compress h.registers, all.drop whole, h.length + bytes.length⟩

/-- The digest of all bytes seen. -/
def Hasher.finish (v : Variant α) (h : Hasher α) : Bytes :=
  let blocks := chunks v.blockBytes (h.pending ++ v.padding h.length)
  v.output (blocks.foldl v.compress h.registers)

end

/-- A word of 32 bits rotated to the right. -/
def rotate32 (x n : UInt32) : UInt32 :=
  (x >>> n) ||| (x <<< (32 - n))

/-- A word of 64 bits rotated to the right. -/
def rotate64 (x n : UInt64) : UInt64 :=
  (x >>> n) ||| (x <<< (64 - n))

/-- The number written by bytes, the most significant first. -/
def number (bytes : Bytes) : Nat :=
  bytes.foldl (fun n b => n * 256 + b.toNat) 0

/-- The first 32 bits of the fractions of the cube roots of the first 64 primes. -/
def sha256Constants : List UInt32 := [
  0x428a2f98, 0x71374491, 0xb5c0fbcf, 0xe9b5dba5, 0x3956c25b, 0x59f111f1, 0x923f82a4, 0xab1c5ed5,
  0xd807aa98, 0x12835b01, 0x243185be, 0x550c7dc3, 0x72be5d74, 0x80deb1fe, 0x9bdc06a7, 0xc19bf174,
  0xe49b69c1, 0xefbe4786, 0x0fc19dc6, 0x240ca1cc, 0x2de92c6f, 0x4a7484aa, 0x5cb0a9dc, 0x76f988da,
  0x983e5152, 0xa831c66d, 0xb00327c8, 0xbf597fc7, 0xc6e00bf3, 0xd5a79147, 0x06ca6351, 0x14292967,
  0x27b70a85, 0x2e1b2138, 0x4d2c6dfc, 0x53380d13, 0x650a7354, 0x766a0abb, 0x81c2c92e, 0x92722c85,
  0xa2bfe8a1, 0xa81a664b, 0xc24b8b70, 0xc76c51a3, 0xd192e819, 0xd6990624, 0xf40e3585, 0x106aa070,
  0x19a4c116, 0x1e376c08, 0x2748774c, 0x34b0bcb5, 0x391c0cb3, 0x4ed8aa4a, 0x5b9cca4f, 0x682e6ff3,
  0x748f82ee, 0x78a5636f, 0x84c87814, 0x8cc70208, 0x90befffa, 0xa4506ceb, 0xbef9a3f7, 0xc67178f2]

/-- SHA-256, over words of 32 bits. -/
def sha256 : Variant UInt32 where
  wordBytes := 4
  initial := ⟨
    0x6a09e667, 0xbb67ae85, 0x3c6ef372, 0xa54ff53a,
    0x510e527f, 0x9b05688c, 0x1f83d9ab, 0x5be0cd19⟩
  constants := sha256Constants
  bigSigma0 := fun x => rotate32 x 2 ^^^ rotate32 x 13 ^^^ rotate32 x 22
  bigSigma1 := fun x => rotate32 x 6 ^^^ rotate32 x 11 ^^^ rotate32 x 25
  smallSigma0 := fun x => rotate32 x 7 ^^^ rotate32 x 18 ^^^ (x >>> 3)
  smallSigma1 := fun x => rotate32 x 17 ^^^ rotate32 x 19 ^^^ (x >>> 10)
  ofBytes := fun b => UInt32.ofNat (number b)
  toBytes := fun x => bigEndian 4 x.toNat

/-- The first 64 bits of the fractions of the cube roots of the first 80 primes. -/
def sha512Constants : List UInt64 := [
  0x428a2f98d728ae22, 0x7137449123ef65cd, 0xb5c0fbcfec4d3b2f, 0xe9b5dba58189dbbc,
  0x3956c25bf348b538, 0x59f111f1b605d019, 0x923f82a4af194f9b, 0xab1c5ed5da6d8118,
  0xd807aa98a3030242, 0x12835b0145706fbe, 0x243185be4ee4b28c, 0x550c7dc3d5ffb4e2,
  0x72be5d74f27b896f, 0x80deb1fe3b1696b1, 0x9bdc06a725c71235, 0xc19bf174cf692694,
  0xe49b69c19ef14ad2, 0xefbe4786384f25e3, 0x0fc19dc68b8cd5b5, 0x240ca1cc77ac9c65,
  0x2de92c6f592b0275, 0x4a7484aa6ea6e483, 0x5cb0a9dcbd41fbd4, 0x76f988da831153b5,
  0x983e5152ee66dfab, 0xa831c66d2db43210, 0xb00327c898fb213f, 0xbf597fc7beef0ee4,
  0xc6e00bf33da88fc2, 0xd5a79147930aa725, 0x06ca6351e003826f, 0x142929670a0e6e70,
  0x27b70a8546d22ffc, 0x2e1b21385c26c926, 0x4d2c6dfc5ac42aed, 0x53380d139d95b3df,
  0x650a73548baf63de, 0x766a0abb3c77b2a8, 0x81c2c92e47edaee6, 0x92722c851482353b,
  0xa2bfe8a14cf10364, 0xa81a664bbc423001, 0xc24b8b70d0f89791, 0xc76c51a30654be30,
  0xd192e819d6ef5218, 0xd69906245565a910, 0xf40e35855771202a, 0x106aa07032bbd1b8,
  0x19a4c116b8d2d0c8, 0x1e376c085141ab53, 0x2748774cdf8eeb99, 0x34b0bcb5e19b48a8,
  0x391c0cb3c5c95a63, 0x4ed8aa4ae3418acb, 0x5b9cca4f7763e373, 0x682e6ff3d6b2b8a3,
  0x748f82ee5defb2fc, 0x78a5636f43172f60, 0x84c87814a1f0ab72, 0x8cc702081a6439ec,
  0x90befffa23631e28, 0xa4506cebde82bde9, 0xbef9a3f7b2c67915, 0xc67178f2e372532b,
  0xca273eceea26619c, 0xd186b8c721c0c207, 0xeada7dd6cde0eb1e, 0xf57d4f7fee6ed178,
  0x06f067aa72176fba, 0x0a637dc5a2c898a6, 0x113f9804bef90dae, 0x1b710b35131c471b,
  0x28db77f523047d84, 0x32caab7b40c72493, 0x3c9ebe0a15c9bebc, 0x431d67c49c100d4c,
  0x4cc5d4becb3e42b6, 0x597f299cfc657e2a, 0x5fcb6fab3ad6faec, 0x6c44198c4a475817]

/-- SHA-512, over words of 64 bits. -/
def sha512 : Variant UInt64 where
  wordBytes := 8
  initial := ⟨
    0x6a09e667f3bcc908, 0xbb67ae8584caa73b, 0x3c6ef372fe94f82b, 0xa54ff53a5f1d36f1,
    0x510e527fade682d1, 0x9b05688c2b3e6c1f, 0x1f83d9abfb41bd6b, 0x5be0cd19137e2179⟩
  constants := sha512Constants
  bigSigma0 := fun x => rotate64 x 28 ^^^ rotate64 x 34 ^^^ rotate64 x 39
  bigSigma1 := fun x => rotate64 x 14 ^^^ rotate64 x 18 ^^^ rotate64 x 41
  smallSigma0 := fun x => rotate64 x 1 ^^^ rotate64 x 8 ^^^ (x >>> 7)
  smallSigma1 := fun x => rotate64 x 19 ^^^ rotate64 x 61 ^^^ (x >>> 6)
  ofBytes := fun b => UInt64.ofNat (number b)
  toBytes := fun x => bigEndian 8 x.toNat

end CacheAudit.Digest
