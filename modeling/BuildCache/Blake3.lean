import BuildCache.Bytes

/-! # The BLAKE3 hash of a byte string -/
namespace BuildCache.Blake3

abbrev Words (n : Nat) := Vector UInt32 n
abbrev Chain := Words 8
abbrev Block := Words 16

def initial : Chain := #v[
  0x6A09E667, 0xBB67AE85, 0x3C6EF372, 0xA54FF53A,
  0x510E527F, 0x9B05688C, 0x1F83D9AB, 0x5BE0CD19]

def chunkStart : UInt32 := 1
def chunkEnd : UInt32 := 2
def parent : UInt32 := 4
def root : UInt32 := 8

def rotateRight (w : UInt32) (n : UInt32) : UInt32 := (w >>> n) ||| (w <<< (32 - n))

def mix (s : Block) (a b c d : Fin 16) (x y : UInt32) : Block :=
  let va := s[a] + s[b] + x
  let vd := rotateRight (s[d] ^^^ va) 16
  let vc := s[c] + vd
  let vb := rotateRight (s[b] ^^^ vc) 12
  let va := va + vb + y
  let vd := rotateRight (vd ^^^ va) 8
  let vc := vc + vd
  let vb := rotateRight (vb ^^^ vc) 7
  (((s.set a va).set b vb).set c vc).set d vd

def round (s m : Block) : Block :=
  let s := mix s 0 4 8 12 m[0] m[1]
  let s := mix s 1 5 9 13 m[2] m[3]
  let s := mix s 2 6 10 14 m[4] m[5]
  let s := mix s 3 7 11 15 m[6] m[7]
  let s := mix s 0 5 10 15 m[8] m[9]
  let s := mix s 1 6 11 12 m[10] m[11]
  let s := mix s 2 7 8 13 m[12] m[13]
  mix s 3 4 9 14 m[14] m[15]

def permute (m : Block) : Block := #v[
  m[2], m[6], m[3], m[10], m[7], m[0], m[4], m[13],
  m[1], m[11], m[12], m[5], m[9], m[14], m[15], m[8]]

def rounds : Nat → Block → Block → Block
  | 0, s, _ => s
  | n + 1, s, m => rounds n (round s m) (permute m)

/-- One input to the compression function. -/
structure Node where
  chain : Chain
  block : Block
  counter : UInt64
  size : UInt32
  flags : UInt32

/-- The chaining value of a node, or its digest words when `extra` marks the root. -/
def Node.compress (n : Node) (extra : UInt32) : Chain :=
  let h := n.chain
  let s := rounds 7 #v[h[0], h[1], h[2], h[3], h[4], h[5], h[6], h[7],
    initial[0], initial[1], initial[2], initial[3],
    n.counter.toUInt32, (n.counter >>> 32).toUInt32, n.size, n.flags ||| extra] n.block
  #v[s[0] ^^^ s[8], s[1] ^^^ s[9], s[2] ^^^ s[10], s[3] ^^^ s[11],
    s[4] ^^^ s[12], s[5] ^^^ s[13], s[6] ^^^ s[14], s[7] ^^^ s[15]]

def word : Bytes → UInt32
  | a :: b :: c :: d :: _ => a.toUInt32 ||| b.toUInt32 <<< 8 ||| c.toUInt32 <<< 16 ||| d.toUInt32 <<< 24
  | bytes => UInt32.ofNat bytes.toNat

def blockOf (bytes : Bytes) : Block :=
  let rec fill : (n : Nat) → Bytes → Words n → (m : Nat) → Words (n + m)
    | _, _, acc, 0 => acc
    | n, rest, acc, m + 1 => (fill (n + 1) (rest.drop 4) (acc.push (word rest)) m).cast (by omega)
  (fill 0 bytes #v[] 16).cast (by omega)

/-- The last block of a chunk, with the chaining value of the blocks before it. -/
def chunkFrom (counter : UInt64) (chain : Chain) (start : UInt32) (bytes : Bytes) : Node :=
  let block := bytes.take 64
  let rest := bytes.drop 64
  if _h : rest = [] then ⟨chain, blockOf block, counter, UInt32.ofNat block.length, start ||| chunkEnd⟩
  else chunkFrom counter ((Node.mk chain (blockOf block) counter 64 start).compress 0) 0 rest
termination_by bytes.length
decreasing_by
  have : 0 < (bytes.drop 64).length := List.length_pos_iff.mpr _h
  simp only [List.length_drop] at this ⊢
  omega

def chunk (counter : UInt64) (bytes : Bytes) : Node := chunkFrom counter initial chunkStart bytes

def join (left right : Chain) : Node := ⟨initial, (left ++ right).cast rfl, 0, 64, parent⟩

/-- The size of the left subtree: the largest power of two of chunks that leaves a byte for the right. -/
def leftSize (size : Nat) : Nat := 1 <<< (size - 1).log2

theorem leftSize_lt {size : Nat} (h : 1024 < size) : leftSize size < size := by
  have : leftSize size ≤ size - 1 := by
    rw [leftSize, Nat.one_shiftLeft]
    exact Nat.log2_self_le (by omega)
  omega

theorem leftSize_pos (size : Nat) : 0 < leftSize size := by
  rw [leftSize, Nat.one_shiftLeft]
  exact Nat.two_pow_pos _

def tree (counter : UInt64) (bytes : Bytes) : Node :=
  if _h : bytes.length ≤ 1024 then chunk counter bytes
  else
    let n := leftSize bytes.length
    join ((tree counter (bytes.take n)).compress 0)
      ((tree (counter + UInt64.ofNat (n / 1024)) (bytes.drop n)).compress 0)
termination_by bytes.length
decreasing_by
  · have := @leftSize_lt bytes.length (by omega)
    simp only [List.length_take]
    omega
  · have := leftSize_pos bytes.length
    simp only [List.length_drop]
    omega

def hash (bytes : Bytes) : Bytes :=
  ((tree 0 bytes).compress root).toList.flatMap fun w => Bytes.ofNat 4 w.toNat

theorem length_flatMap_words (ws : List UInt32) : (ws.flatMap fun w => Bytes.ofNat 4 w.toNat).length
    = 4 * ws.length := by
  induction ws with
  | nil => rfl
  | cons w ws ih => simp only [List.flatMap_cons, List.length_append, Bytes.length_ofNat, ih, List.length_cons]; omega

@[simp] theorem length_hash (bytes : Bytes) : (hash bytes).length = 32 := by
  rw [hash, length_flatMap_words, Vector.length_toList]

end BuildCache.Blake3
