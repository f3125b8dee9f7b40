/-!
# BLAKE3

The hash function in its plain mode, on lists of bytes. The input is cut into chunks of 1024 bytes
and each chunk into blocks of 64; a block is compressed into the chaining value of its chunk. The
chunks are the leaves of a binary tree whose left subtrees are full, and the root of the tree gives
the output.

Words are thirty-two bits wide and their arithmetic wraps, as the function demands.
-/

namespace MonikerIndex.Blake3

/-- A chaining value: eight words. -/
abbrev Chain := Vector UInt32 8

/-- A block of a message, or the state of a compression: sixteen words. -/
abbrev Block := Vector UInt32 16

/-- The chaining value that every chunk starts with. -/
def initial : Chain :=
  #v[0x6A09E667, 0xBB67AE85, 0x3C6EF372, 0xA54FF53A, 0x510E527F, 0x9B05688C, 0x1F83D9AB, 0x5BE0CD19]

/-- Marks the first block of a chunk. -/
def chunkStart : UInt32 := 1
/-- Marks the last block of a chunk. -/
def chunkEnd : UInt32 := 2
/-- Marks an inner node of the tree. -/
def parentNode : UInt32 := 4
/-- Marks the root of the tree. -/
def rootNode : UInt32 := 8

/-! ### Compression -/

/-- Rotates a word to the right. -/
def rotate (word : UInt32) (count : UInt32) : UInt32 :=
  (word >>> count) ||| (word <<< (32 - count))

/-- Mixes two words of the message into four words of the state. -/
def mix (state : Block) (a b c d : Fin 16) (x y : UInt32) : Block :=
  let wordA := state[a] + state[b] + x
  let wordD := rotate (state[d] ^^^ wordA) 16
  let wordC := state[c] + wordD
  let wordB := rotate (state[b] ^^^ wordC) 12
  let wordA := wordA + wordB + y
  let wordD := rotate (wordD ^^^ wordA) 8
  let wordC := wordC + wordD
  let wordB := rotate (wordB ^^^ wordC) 7
  (((state.set a wordA).set b wordB).set c wordC).set d wordD

/-- One round: the columns of the state, then its diagonals. -/
def round (state block : Block) : Block :=
  let state := mix state 0 4 8 12 block[0] block[1]
  let state := mix state 1 5 9 13 block[2] block[3]
  let state := mix state 2 6 10 14 block[4] block[5]
  let state := mix state 3 7 11 15 block[6] block[7]
  let state := mix state 0 5 10 15 block[8] block[9]
  let state := mix state 1 6 11 12 block[10] block[11]
  let state := mix state 2 7 8 13 block[12] block[13]
  mix state 3 4 9 14 block[14] block[15]

/-- The order in which a round leaves the words of the message to the next one. -/
def permute (block : Block) : Block :=
  #v[block[2], block[6], block[3], block[10], block[7], block[0], block[4], block[13],
    block[1], block[11], block[12], block[5], block[9], block[14], block[15], block[8]]

/-- So many rounds, with the message permuted after each of them. -/
def rounds : Nat → Block → Block → Block
  | 0, state, _ => state
  | count + 1, state, block => rounds count (round state block) (permute block)

/-- All that one compression depends on. -/
structure Node where
  chain : Chain
  block : Block
  counter : UInt64
  length : UInt32
  flags : UInt32

/-- The sixteen words that a node is compressed to. -/
def Node.compress (node : Node) : Block :=
  let chain := node.chain
  let state : Block :=
    #v[chain[0], chain[1], chain[2], chain[3], chain[4], chain[5], chain[6], chain[7],
      0x6A09E667, 0xBB67AE85, 0x3C6EF372, 0xA54FF53A,
      node.counter.toUInt32, (node.counter >>> 32).toUInt32, node.length, node.flags]
  let state := rounds 7 state node.block
  #v[state[0] ^^^ state[8], state[1] ^^^ state[9], state[2] ^^^ state[10], state[3] ^^^ state[11],
    state[4] ^^^ state[12], state[5] ^^^ state[13], state[6] ^^^ state[14], state[7] ^^^ state[15],
    state[8] ^^^ chain[0], state[9] ^^^ chain[1], state[10] ^^^ chain[2], state[11] ^^^ chain[3],
    state[12] ^^^ chain[4], state[13] ^^^ chain[5], state[14] ^^^ chain[6], state[15] ^^^ chain[7]]

/-- The chaining value that a node hands on. -/
def Node.output (node : Node) : Chain :=
  let words := node.compress
  #v[words[0], words[1], words[2], words[3], words[4], words[5], words[6], words[7]]

/-! ### Chunks -/

/-- The word made of four bytes, the lowest first. Missing bytes are zero. -/
def wordOf (bytes : List UInt8) : UInt32 :=
  bytes.foldr (fun byte word => (word <<< 8) ||| byte.toUInt32) 0

/-- The block made of up to 64 bytes. -/
def blockOf (bytes : List UInt8) : Block :=
  Vector.ofFn fun i => wordOf ((bytes.drop (4 * i.val)).take 4)

/-- Cuts a list into pieces of the given size, the last of which may be shorter. The first number
    bounds how many pieces are cut. -/
def pieces (size : Nat) : Nat → List α → List (List α)
  | 0, _ => []
  | count + 1, values =>
      if values.isEmpty then [] else values.take size :: pieces size count (values.drop size)

/-- The blocks of a chunk. An empty chunk has one empty block. -/
def blocksOf (bytes : List UInt8) : List (List UInt8) :=
  match pieces 64 bytes.length bytes with
  | [] => [[]]
  | blocks => blocks

/-- The last node of a chunk, after its other blocks have been compressed in turn. -/
def chunkNode (counter : UInt64) : Chain → UInt32 → List (List UInt8) → Node
  | chain, start, [] => ⟨chain, blockOf [], counter, 0, start ||| chunkEnd⟩
  | chain, start, [block] =>
      ⟨chain, blockOf block, counter, UInt32.ofNat block.length, start ||| chunkEnd⟩
  | chain, start, block :: blocks =>
      let node : Node := ⟨chain, blockOf block, counter, UInt32.ofNat block.length, start⟩
      chunkNode counter node.output 0 blocks

/-- The node of the chunk with the given number. -/
def chunk (counter : Nat) (bytes : List UInt8) : Node :=
  chunkNode (UInt64.ofNat counter) initial chunkStart (blocksOf bytes)

/-! ### The tree -/

/-- The inner node above two others. -/
def parent (left right : Node) : Node :=
  ⟨initial, (left.output ++ right.output).cast rfl, 0, 64, parentNode⟩

/-- Joins neighbours, from left to right; a last one without a neighbour goes up as it is. -/
def joinLevel : List Node → List Node
  | left :: right :: nodes => parent left right :: joinLevel nodes
  | nodes => nodes

/-- Joins level after level, so many times. Once one node is left, nothing changes any more. -/
def joinLevels : Nat → List Node → List Node
  | 0, nodes => nodes
  | count + 1, nodes => joinLevels count (joinLevel nodes)

/-- The nodes of all chunks. -/
def chunks (bytes : List UInt8) : List Node :=
  (pieces 1024 bytes.length bytes).mapIdx chunk

/-- The root of the tree. Joining a level at least halves what is above one node, so as many levels
    as the length has binary digits are enough. -/
def root (bytes : List UInt8) : Node :=
  match joinLevels (bytes.length.log2 + 1) (chunks bytes) with
  | [] => chunk 0 []
  | node :: _ => node

/-- The four bytes of a word, the lowest first. -/
def bytesOf (word : UInt32) : List UInt8 :=
  [word.toUInt8, (word >>> 8).toUInt8, (word >>> 16).toUInt8, (word >>> 24).toUInt8]

/-- The first 64 bytes of the output. -/
def hash (bytes : List UInt8) : List UInt8 :=
  let node := root bytes
  { node with flags := node.flags ||| rootNode }.compress.toList.flatMap bytesOf

end MonikerIndex.Blake3
