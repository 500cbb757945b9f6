import RobotGolf.Text.Glyph
/-!
# The MD5 digest

A message is padded to a multiple of 64 octets, every block of sixteen little-endian words is mixed
into four words of state in 64 rounds, and the state is shown as 32 hexadecimal digits.
-/

namespace RobotGolf.Md5

/-- The four words of state. -/
structure State where
  a : UInt32
  b : UInt32
  c : UInt32
  d : UInt32
  deriving DecidableEq, Repr

namespace State

/-- The state before the first block. -/
def initial : State := ⟨0x67452301, 0xefcdab89, 0x98badcfe, 0x10325476⟩

/-- Adds two states word by word. -/
def add (s t : State) : State := ⟨s.a + t.a, s.b + t.b, s.c + t.c, s.d + t.d⟩

end State

/-- By how much each round rotates, in four groups of sixteen rounds. -/
def rotations : List Nat :=
  let group (a b c d : Nat) := [a, b, c, d, a, b, c, d, a, b, c, d, a, b, c, d]
  group 7 12 17 22 ++ group 5 9 14 20 ++ group 4 11 16 23 ++ group 6 10 15 21

/-- The word that each round adds: the first 32 binary places of `|sin (i + 1)|`. -/
def constants : List UInt32 :=
  [0xd76aa478, 0xe8c7b756, 0x242070db, 0xc1bdceee, 0xf57c0faf, 0x4787c62a, 0xa8304613, 0xfd469501,
   0x698098d8, 0x8b44f7af, 0xffff5bb1, 0x895cd7be, 0x6b901122, 0xfd987193, 0xa679438e, 0x49b40821,
   0xf61e2562, 0xc040b340, 0x265e5a51, 0xe9b6c7aa, 0xd62f105d, 0x02441453, 0xd8a1e681, 0xe7d3fbc8,
   0x21e1cde6, 0xc33707d6, 0xf4d50d87, 0x455a14ed, 0xa9e3e905, 0xfcefa3f8, 0x676f02d9, 0x8d2a4c8a,
   0xfffa3942, 0x8771f681, 0x6d9d6122, 0xfde5380c, 0xa4beea44, 0x4bdecfa9, 0xf6bb4b60, 0xbebfbc70,
   0x289b7ec6, 0xeaa127fa, 0xd4ef3085, 0x04881d05, 0xd9d4d039, 0xe6db99e5, 0x1fa27cf8, 0xc4ac5665,
   0xf4292244, 0x432aff97, 0xab9423a7, 0xfc93a039, 0x655b59c3, 0x8f0ccc92, 0xffeff47d, 0x85845dd1,
   0x6fa87e4f, 0xfe2ce6e0, 0xa3014314, 0x4e0811a1, 0xf7537e82, 0xbd3af235, 0x2ad7d2bb, 0xeb86d391]

/-- The rounds, numbered, each with its rotation and its constant. -/
def rounds : List (Nat × Nat × UInt32) :=
  ((rotations.zip constants).zipIdx).map fun r => (r.2, r.1.1, r.1.2)

/-- Rotates a word to the left, by at least one and less than 32 places. -/
def rotate (w : UInt32) (places : Nat) : UInt32 :=
  (w <<< UInt32.ofNat places) ||| (w >>> UInt32.ofNat (32 - places))

/-- What round `i` makes of the last three words of state, and the word of the block it takes. -/
def mix (s : State) (i : Nat) : UInt32 × Nat :=
  if i < 16 then ((s.b &&& s.c) ||| (~~~s.b &&& s.d), i)
  else if i < 32 then ((s.d &&& s.b) ||| (~~~s.d &&& s.c), (5 * i + 1) % 16)
  else if i < 48 then (s.b ^^^ s.c ^^^ s.d, (3 * i + 5) % 16)
  else (s.c ^^^ (s.b ||| ~~~s.d), (7 * i) % 16)

/-- One round on a block of words. -/
def round (block : Array UInt32) (s : State) (r : Nat × Nat × UInt32) : State :=
  let mixed := mix s r.1
  let sum := s.a + mixed.1 + r.2.2 + block.getD mixed.2 0
  ⟨s.d, s.b + rotate sum r.2.1, s.b, s.c⟩

/-- Mixes a block into the state. -/
def absorb (s : State) (block : Array UInt32) : State := s.add (rounds.foldl (round block) s)

/-- The octets of a number, the lowest first. -/
def littleEndian (n : Nat) : Nat → Bytes
  | 0 => []
  | places + 1 => UInt8.ofNat (n % 256) :: littleEndian (n / 256) places

/-- The number that some octets spell, the lowest first. -/
def ofLittleEndian : Bytes → Nat
  | [] => 0
  | b :: rest => b.toNat + 256 * ofLittleEndian rest

/-- A message with a one bit, zeros, and its length in bits behind it. -/
def pad (message : Bytes) : Bytes :=
  message ++ 0x80 :: List.replicate ((119 - message.length % 64) % 64) 0
    ++ littleEndian (8 * message.length) 8

/-- Cuts a list into pieces of a given length; the last piece may be shorter. -/
def pieces {α : Type} (length : Nat) (items : List α) : List (List α) :=
  if _h : items.isEmpty ∨ length = 0 then []
  else items.take length :: pieces length (items.drop length)
termination_by items.length
decreasing_by
  simp only [List.isEmpty_iff, not_or] at _h
  have := List.length_pos_iff.2 _h.1
  simp only [List.length_drop]
  omega

/-- The words of a block. -/
def words (block : Bytes) : Array UInt32 :=
  ((pieces 4 block).map fun w => UInt32.ofNat (ofLittleEndian w)).toArray

/-- The state after a whole message. -/
def run (message : Bytes) : State :=
  ((pieces 64 (pad message)).map words).foldl absorb State.initial

/-- An octet as two hexadecimal digits. -/
def hexOctet (b : UInt8) : List Char :=
  [Nat.digitChar (b.toNat / 16), Nat.digitChar (b.toNat % 16)]

/-- The digest of a message as 32 hexadecimal digits. -/
def hexDigest (message : Bytes) : String :=
  let s := run message
  String.ofList
    (([s.a, s.b, s.c, s.d].flatMap fun w => littleEndian w.toNat 4).flatMap hexOctet)

end RobotGolf.Md5
