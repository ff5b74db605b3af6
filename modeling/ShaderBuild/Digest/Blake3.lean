import ShaderBuild.Bytes
/-!
# BLAKE3

The unkeyed hash function with 256 bits of output. The input is cut into chunks of 1024 bytes and
each chunk into blocks of 64 bytes. The chunks are the leaves of a binary tree whose left subtrees
are complete and as large as they can be. Constants, flags and the order of words are those of the
published specification of this function. Nothing that is proved about builds depends on how a digest
is computed, only on its length.
-/

namespace ShaderBuild.Blake3

/-- Eight words that carry the state from block to block. -/
abbrev Chain := Vector UInt32 8

/-- The words of a block, and the working state of the compression function. -/
abbrev Block := Vector UInt32 16

/-- The first chaining value of every chunk. -/
def initial : Chain :=
  #v[0x6A09E667, 0xBB67AE85, 0x3C6EF372, 0xA54FF53A, 0x510E527F, 0x9B05688C, 0x1F83D9AB, 0x5BE0CD19]

/-- The block is the first of its chunk. -/
def chunkStart : UInt32 := 1

/-- The block is the last of its chunk. -/
def chunkEnd : UInt32 := 2

/-- The block holds the chaining values of two subtrees. -/
def parentNode : UInt32 := 4

/-- The block is the root of the tree. -/
def rootNode : UInt32 := 8

/-- The block size in bytes. -/
def blockSize : Nat := 64

/-- The chunk size in bytes. -/
def chunkSize : Nat := 1024

/-- Turn a word to the right. -/
def rotate (word count : UInt32) : UInt32 := (word >>> count) ||| (word <<< (32 - count))

/-- Mix two message words into a column or diagonal of the state. -/
def mix (s : Block) (a b c d : Fin 16) (x y : UInt32) : Block :=
  let s := s.set a (s[a] + s[b] + x)
  let s := s.set d (rotate (s[d] ^^^ s[a]) 16)
  let s := s.set c (s[c] + s[d])
  let s := s.set b (rotate (s[b] ^^^ s[c]) 12)
  let s := s.set a (s[a] + s[b] + y)
  let s := s.set d (rotate (s[d] ^^^ s[a]) 8)
  let s := s.set c (s[c] + s[d])
  s.set b (rotate (s[b] ^^^ s[c]) 7)

/-- Mix the message into the columns of the state, then into its diagonals. -/
def round (s m : Block) : Block :=
  let s := mix s 0 4 8 12 m[0] m[1]
  let s := mix s 1 5 9 13 m[2] m[3]
  let s := mix s 2 6 10 14 m[4] m[5]
  let s := mix s 3 7 11 15 m[6] m[7]
  let s := mix s 0 5 10 15 m[8] m[9]
  let s := mix s 1 6 11 12 m[10] m[11]
  let s := mix s 2 7 8 13 m[12] m[13]
  mix s 3 4 9 14 m[14] m[15]

/-- The order of the message words in the next round. -/
def permute (m : Block) : Block :=
  #v[m[2], m[6], m[3], m[10], m[7], m[0], m[4], m[13],
    m[1], m[11], m[12], m[5], m[9], m[14], m[15], m[8]]

/-- Some rounds, with the message permuted between them. -/
def rounds : Nat → Block → Block → Block
  | 0, s, _ => s
  | 1, s, m => round s m
  | n + 2, s, m => rounds (n + 1) (round s m) (permute m)

/-- A block that is ready to be compressed. -/
structure Node where
  chain : Chain
  block : Block
  /-- The number of the chunk, or 0 above the leaves. -/
  counter : Nat
  /-- The number of bytes in the block. -/
  size : Nat
  flags : UInt32

/-- The chaining value of a node, with flags added to its own. -/
def Node.compress (n : Node) (flags : UInt32) : Chain :=
  let h := n.chain
  let start : Block :=
    #v[h[0], h[1], h[2], h[3], h[4], h[5], h[6], h[7],
      initial[0], initial[1], initial[2], initial[3],
      UInt32.ofNat n.counter, UInt32.ofNat (n.counter >>> 32), UInt32.ofNat n.size,
      n.flags ||| flags]
  let s := rounds 7 start n.block
  Vector.ofFn fun i : Fin 8 => s[i.val] ^^^ s[i.val + 8]

/-- The sixteen little-endian words of a block, with zeros after its last byte. -/
def blockWords (bytes : Bytes) : Block :=
  let a := bytes.toArray
  let byte (i : Nat) : UInt32 := (a[i]?.getD 0).toUInt32
  Vector.ofFn fun i : Fin 16 =>
    byte (4 * i) ||| (byte (4 * i + 1) <<< 8) ||| (byte (4 * i + 2) <<< 16) |||
      (byte (4 * i + 3) <<< 24)

/-- The last node of a chunk of which `bytes` are left. -/
def chunkNode (chain : Chain) (flags : UInt32) (counter : Nat) (bytes : Bytes) : Node :=
  if bytes.length ≤ blockSize then
    ⟨chain, blockWords bytes, counter, bytes.length, flags ||| chunkEnd⟩
  else
    let node : Node := ⟨chain, blockWords (bytes.take blockSize), counter, blockSize, flags⟩
    chunkNode (node.compress 0) 0 counter (bytes.drop blockSize)
termination_by bytes.length
decreasing_by
  simp only [List.length_drop, blockSize] at *
  omega

/-- The node above two subtrees. -/
def parent (left right : Chain) : Node :=
  ⟨initial, (left ++ right).cast (by rfl), 0, blockSize, parentNode⟩

/-- The size of the left subtree of an input of `size` bytes: the largest complete tree that leaves
something for the right one. -/
def leftSize (size : Nat) : Nat := chunkSize <<< ((size - 1) / chunkSize).log2

theorem leftSize_pos (size : Nat) : 0 < leftSize size := by
  rw [leftSize, Nat.shiftLeft_eq]
  exact Nat.mul_pos (by decide) (Nat.pow_pos (by decide))

theorem leftSize_lt {size : Nat} (h : chunkSize < size) : leftSize size < size := by
  have h0 : (size - 1) / chunkSize ≠ 0 := by
    have := Nat.div_pos (show chunkSize ≤ size - 1 by omega) (by decide : 0 < chunkSize)
    omega
  have h1 := Nat.mul_le_mul_left chunkSize (Nat.log2_self_le h0)
  have h2 := Nat.mul_div_le (size - 1) chunkSize
  rw [leftSize, Nat.shiftLeft_eq]
  omega

/-- The root of the tree over `bytes`, which start at the chunk of that number. -/
def tree (counter : Nat) (bytes : Bytes) : Node :=
  if bytes.length ≤ chunkSize then chunkNode initial chunkStart counter bytes
  else
    let left := leftSize bytes.length
    parent ((tree counter (bytes.take left)).compress 0)
      ((tree (counter + left / chunkSize) (bytes.drop left)).compress 0)
termination_by bytes.length
decreasing_by
  · have : leftSize bytes.length < bytes.length := leftSize_lt (by omega)
    simp only [List.length_take]
    omega
  · have := leftSize_pos bytes.length
    simp only [List.length_drop, chunkSize] at *
    omega

/-- A word as its little-endian bytes. -/
def wordBytes (w : UInt32) : Bytes :=
  [w.toUInt8, (w >>> 8).toUInt8, (w >>> 16).toUInt8, (w >>> 24).toUInt8]

/-- The hash of an input. -/
def hash (bytes : Bytes) : Bytes :=
  ((tree 0 bytes).compress rootNode).toList.flatMap wordBytes

theorem length_hash (bytes : Bytes) : (hash bytes).length = 32 := by
  simp [hash, List.length_flatMap, wordBytes, List.map_const']

end ShaderBuild.Blake3
