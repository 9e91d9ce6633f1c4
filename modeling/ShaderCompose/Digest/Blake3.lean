/-!
The BLAKE3 hash of a row of bytes. Chunks are compressed block by block, and their values are joined
in a binary tree.
-/

namespace ShaderCompose.Digest

/-- A block, a chain value or a state. -/
abbrev Words := Array UInt32

def initial : Words :=
  #[0x6A09E667, 0xBB67AE85, 0x3C6EF372, 0xA54FF53A, 0x510E527F, 0x9B05688C, 0x1F83D9AB, 0x5BE0CD19]

/-- A word by its place, zero outside. -/
def word (ws : Words) (i : Nat) : UInt32 := ws[i]?.getD 0

/-- The order of the message words in the next round. -/
def schedule : List Nat := [2, 6, 3, 10, 7, 0, 4, 13, 1, 11, 12, 5, 9, 14, 15, 8]

def chunkStart : UInt32 := 1
def chunkEnd : UInt32 := 2
def parentNode : UInt32 := 4
def rootNode : UInt32 := 8

def rotateRight (w : UInt32) (n : UInt32) : UInt32 := (w >>> n) ||| (w <<< (32 - n))

def quarter (s : Words) (a b c d : Nat) (x y : UInt32) : Words :=
  let wa := word s a + word s b + x
  let wd := rotateRight (word s d ^^^ wa) 16
  let wc := word s c + wd
  let wb := rotateRight (word s b ^^^ wc) 12
  let wa := wa + wb + y
  let wd := rotateRight (wd ^^^ wa) 8
  let wc := wc + wd
  let wb := rotateRight (wb ^^^ wc) 7
  (((s.setIfInBounds a wa).setIfInBounds b wb).setIfInBounds c wc).setIfInBounds d wd

/-- The columns and diagonals that one round mixes. -/
def lanes : List (Nat × Nat × Nat × Nat) :=
  [(0, 4, 8, 12), (1, 5, 9, 13), (2, 6, 10, 14), (3, 7, 11, 15),
   (0, 5, 10, 15), (1, 6, 11, 12), (2, 7, 8, 13), (3, 4, 9, 14)]

def round (s m : Words) : Words :=
  (lanes.zipIdx).foldl (fun s ((a, b, c, d), i) => quarter s a b c d (word m (2 * i)) (word m (2 * i + 1))) s

/-- Several rounds; the message is permuted between them. -/
def rounds : (count : Nat) → (s m : Words) → Words
  | 0, s, _ => s
  | count + 1, s, m => rounds count (round s m) (schedule.map (word m)).toArray

def compress (chain block : Words) (counter : Nat) (size flags : UInt32) : Words :=
  let start := (chain.extract 0 8) ++ (initial.extract 0 4) ++
    #[counter.toUInt32, (counter / UInt32.size).toUInt32, size, flags]
  let s := rounds 7 start block
  ((List.range 8).map fun i => word s i ^^^ word s (i + 8)).toArray

/-- The word of the first four bytes. -/
def littleEndian (bytes : List UInt8) : UInt32 :=
  (bytes.take 4).foldr (fun b n => n * 256 + b.toUInt32) 0

/-- The words of a block, padded with zeros. -/
def blockWords (bytes : List UInt8) : Words :=
  ((List.range 16).map fun i => littleEndian (bytes.drop (4 * i))).toArray

/-- A compression that is still to be done. -/
structure Output where
  chain : Words
  block : Words
  counter : Nat
  size : UInt32
  flags : UInt32

def Output.value (o : Output) : Words := compress o.chain o.block o.counter o.size o.flags

def Output.root (o : Output) : Words := compress o.chain o.block 0 o.size (o.flags ||| rootNode)

def chunkFrom : (fuel : Nat) → (chain : Words) → (counter : Nat) → (start : UInt32) → List UInt8 → Output
  | 0, chain, counter, start, bytes =>
    ⟨chain, blockWords bytes, counter, bytes.length.toUInt32, start ||| chunkEnd⟩
  | fuel + 1, chain, counter, start, bytes =>
    if bytes.length ≤ 64 then
      ⟨chain, blockWords bytes, counter, bytes.length.toUInt32, start ||| chunkEnd⟩
    else
      chunkFrom fuel (compress chain (blockWords (bytes.take 64)) counter 64 start) counter 0 (bytes.drop 64)

/-- One chunk of at most 1024 bytes. -/
def chunk (counter : Nat) (bytes : List UInt8) : Output :=
  chunkFrom 16 initial counter chunkStart bytes

/-- The node above two subtrees. -/
def parent (left right : Words) : Output :=
  ⟨initial, left ++ right, 0, 64, parentNode⟩

def leftChunks (chunks : Nat) : Nat := Nat.pow 2 (chunks - 1).log2

/-- The tree over the chunks from `counter` on. -/
def tree : (fuel : Nat) → (counter : Nat) → List UInt8 → Output
  | 0, counter, bytes => chunk counter bytes
  | fuel + 1, counter, bytes =>
    if bytes.length ≤ 1024 then chunk counter bytes
    else
      let left := leftChunks ((bytes.length + 1023) / 1024)
      parent (tree fuel counter (bytes.take (1024 * left))).value
        (tree fuel (counter + left) (bytes.drop (1024 * left))).value

def hashWords (bytes : List UInt8) : List UInt32 :=
  (tree (bytes.length.log2 + 1) 0 bytes).root.toList

end ShaderCompose.Digest
