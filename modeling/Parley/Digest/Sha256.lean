namespace Parley.Digest

abbrev State := Vector UInt32 8

def initialState : State :=
  #v[0x6a09e667, 0xbb67ae85, 0x3c6ef372, 0xa54ff53a, 0x510e527f, 0x9b05688c, 0x1f83d9ab, 0x5be0cd19]

def roundConstants : List UInt32 :=
  [0x428a2f98, 0x71374491, 0xb5c0fbcf, 0xe9b5dba5, 0x3956c25b, 0x59f111f1, 0x923f82a4, 0xab1c5ed5,
   0xd807aa98, 0x12835b01, 0x243185be, 0x550c7dc3, 0x72be5d74, 0x80deb1fe, 0x9bdc06a7, 0xc19bf174,
   0xe49b69c1, 0xefbe4786, 0x0fc19dc6, 0x240ca1cc, 0x2de92c6f, 0x4a7484aa, 0x5cb0a9dc, 0x76f988da,
   0x983e5152, 0xa831c66d, 0xb00327c8, 0xbf597fc7, 0xc6e00bf3, 0xd5a79147, 0x06ca6351, 0x14292967,
   0x27b70a85, 0x2e1b2138, 0x4d2c6dfc, 0x53380d13, 0x650a7354, 0x766a0abb, 0x81c2c92e, 0x92722c85,
   0xa2bfe8a1, 0xa81a664b, 0xc24b8b70, 0xc76c51a3, 0xd192e819, 0xd6990624, 0xf40e3585, 0x106aa070,
   0x19a4c116, 0x1e376c08, 0x2748774c, 0x34b0bcb5, 0x391c0cb3, 0x4ed8aa4a, 0x5b9cca4f, 0x682e6ff3,
   0x748f82ee, 0x78a5636f, 0x84c87814, 0x8cc70208, 0x90befffa, 0xa4506ceb, 0xbef9a3f7, 0xc67178f2]

def rotateRight (x : UInt32) (n : UInt32) : UInt32 := (x >>> n) ||| (x <<< (32 - n))

def smallSigma0 (x : UInt32) : UInt32 := rotateRight x 7 ^^^ rotateRight x 18 ^^^ (x >>> 3)

def smallSigma1 (x : UInt32) : UInt32 := rotateRight x 17 ^^^ rotateRight x 19 ^^^ (x >>> 10)

def bigSigma0 (x : UInt32) : UInt32 := rotateRight x 2 ^^^ rotateRight x 13 ^^^ rotateRight x 22

def bigSigma1 (x : UInt32) : UInt32 := rotateRight x 6 ^^^ rotateRight x 11 ^^^ rotateRight x 25

def choose (x y z : UInt32) : UInt32 := (x &&& y) ^^^ ((~~~ x) &&& z)

def majority (x y z : UInt32) : UInt32 := (x &&& y) ^^^ (x &&& z) ^^^ (y &&& z)

/-- Four bytes make a word, the high byte first. -/
def words : List UInt8 → List UInt32
  | a :: b :: c :: d :: rest =>
    ((a.toUInt32 <<< 24) ||| (b.toUInt32 <<< 16) ||| (c.toUInt32 <<< 8) ||| d.toUInt32) ::
      words rest
  | _ => []

def bytesOfWord (w : UInt32) : List UInt8 :=
  [(w >>> 24).toUInt8, (w >>> 16).toUInt8, (w >>> 8).toUInt8, w.toUInt8]

/-- The schedule of a block: its sixteen words, then each next word from those before it. -/
def schedule (block : List UInt32) : Array UInt32 :=
  (List.range 48).foldl
    (fun w i =>
      w.push (smallSigma1 (w.getD (i + 14) 0) + w.getD (i + 9) 0 +
        smallSigma0 (w.getD (i + 1) 0) + w.getD i 0))
    block.toArray

def round (s : State) (k w : UInt32) : State :=
  let t := s[7] + bigSigma1 s[4] + choose s[4] s[5] s[6] + k + w
  let u := bigSigma0 s[0] + majority s[0] s[1] s[2]
  #v[t + u, s[0], s[1], s[2], s[3] + t, s[4], s[5], s[6]]

def compress (s : State) (block : List UInt32) : State :=
  let rounds := roundConstants.zip (schedule block).toList
  (rounds.foldl (fun t kw => round t kw.1 kw.2) s).zipWith (fun x y => y + x) s

def bytesOfLength (bits : Nat) : List UInt8 :=
  (List.range 8).map fun i => (bits / Nat.pow 256 (7 - i)).toUInt8

/-- A one bit, zeros, and the length in bits, up to a multiple of 64 bytes. -/
def padding (length : Nat) : List UInt8 :=
  0x80 :: (List.replicate ((119 - length % 64) % 64) 0 ++ bytesOfLength (8 * length))

def digestBlocks (s : State) (ws : List UInt32) : State :=
  match ws with
  | [] => s
  | w :: rest => digestBlocks (compress s ((w :: rest).take 16)) ((w :: rest).drop 16)
termination_by ws.length
decreasing_by simp only [List.length_drop, List.length_cons]; omega

def sha256 (bytes : List UInt8) : List UInt8 :=
  (digestBlocks initialState (words (bytes ++ padding bytes.length))).toList.flatMap bytesOfWord

end Parley.Digest
