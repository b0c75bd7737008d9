import Mathlib.Data.Nat.Bitwise
import Mathlib.Data.List.Basic

/-! Zlib streams of stored blocks: the container with its Adler-32 checksum, without
compression. Every byte string has such a stream, and reading one back also tells where it ends. -/
namespace ZlibStored

def byte (n : ℕ) : UInt8 := UInt8.ofNat (n % 256)

theorem byte_toNat (n : ℕ) : (byte n).toNat = n % 256 := by
  simp [byte]

/-- The two sums of Adler-32. -/
def adlerStep (s : ℕ × ℕ) (b : UInt8) : ℕ × ℕ :=
  ((s.1 + b.toNat) % 65521, (s.2 + s.1 + b.toNat) % 65521)

def adler32 (data : List UInt8) : List UInt8 :=
  let (a, b) := data.foldl adlerStep (1, 0)
  [byte (b / 256), byte b, byte (a / 256), byte a]

theorem adler32_length (data : List UInt8) : (adler32 data).length = 4 := rfl

def storedBlock (final : UInt8) (data : List UInt8) : List UInt8 :=
  let n := data.length
  let m := 65535 - n
  [final, byte n, byte (n / 256), byte m, byte (m / 256)] ++ data

def deflateBlocks (data : List UInt8) : List UInt8 :=
  if data.length ≤ 65535 then storedBlock 1 data
  else storedBlock 0 (data.take 65535) ++ deflateBlocks (data.drop 65535)
termination_by data.length
decreasing_by
  simp only [List.length_drop]
  omega

def deflate (data : List UInt8) : List UInt8 :=
  [0x78, 0x01] ++ deflateBlocks data ++ adler32 data

/-- The data of the blocks, and what follows the last of them. -/
def inflateBlocks (src : List UInt8) : Option (List UInt8 × List UInt8) :=
  match src with
  | final :: l :: h :: nl :: nh :: rest =>
    let n := l.toNat + 256 * h.toNat
    if n + nl.toNat + 256 * nh.toNat ≠ 65535 ∨ rest.length < n then none
    else if final = 1 then some (rest.take n, rest.drop n)
    else if final = 0 then do
      let (data, tail) ← inflateBlocks (rest.drop n)
      some (rest.take n ++ data, tail)
    else none
  | _ => none
termination_by src.length
decreasing_by
  simp only [List.length_drop, List.length_cons]
  omega

/-- The data of the stream at the front of `src`, and how many bytes it takes. -/
def inflate (src : List UInt8) : Option (List UInt8 × ℕ) := do
  if src.take 2 ≠ [0x78, 0x01] then none
  let (data, tail) ← inflateBlocks (src.drop 2)
  if tail.take 4 ≠ adler32 data then none
  some (data, src.length - (tail.drop 4).length)

theorem inflateBlocks_stored {data : List UInt8} (h : data.length ≤ 65535) (final : UInt8)
    (rest : List UInt8) : inflateBlocks (storedBlock final data ++ rest) =
      if final = 1 then some (data, rest)
      else if final = 0 then (inflateBlocks rest).map fun r => (data ++ r.1, r.2) else none := by
  simp only [storedBlock, List.cons_append, List.nil_append]
  rw [inflateBlocks]
  simp only [byte_toNat, List.length_append]
  have hn : data.length % 256 + 256 * (data.length / 256 % 256) = data.length := by omega
  rw [hn, if_neg (by omega), List.take_left, List.drop_left]
  cases inflateBlocks rest <;> rfl

theorem inflateBlocks_deflate (data rest : List UInt8) :
    inflateBlocks (deflateBlocks data ++ rest) = some (data, rest) := by
  fun_induction deflateBlocks data with
  | case1 data h => rw [inflateBlocks_stored h, if_pos rfl]
  | case2 data h ih =>
    rw [List.append_assoc, inflateBlocks_stored (by rw [List.length_take]; omega),
      if_neg (by decide), if_pos rfl, ih]
    simp

/-- The stream at the front is read back, and exactly its own bytes are consumed. -/
theorem inflate_deflate (data rest : List UInt8) :
    inflate (deflate data ++ rest) = some (data, (deflate data).length) := by
  have hlen := adler32_length data
  unfold inflate
  rw [if_neg (by simp [deflate])]
  have hdrop : (deflate data ++ rest).drop 2 = deflateBlocks data ++ (adler32 data ++ rest) := by
    simp [deflate]
  rw [hdrop, inflateBlocks_deflate]
  simp [← hlen]

theorem deflate_ne_nil (data : List UInt8) : deflate data ≠ [] := by
  simp [deflate]

end ZlibStored
