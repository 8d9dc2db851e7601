/-! Big-endian byte sequences of machine words. -/

namespace PatchCode.Bytes

/-- The low `8 * width` bits of `n`, most significant byte first. -/
def ofNat : Nat → Nat → List UInt8
  | 0, _ => []
  | width + 1, n => .ofNat (n >>> (8 * width)) :: ofNat width n

/-- The two's complement of an integer in `width` bytes. -/
def ofInt (width : Nat) (n : Int) : List UInt8 := ofNat width (n % (1 <<< (8 * width) : Nat)).toNat

def toNat (bytes : List UInt8) : Nat := bytes.foldl (fun n b => n * 256 + b.toNat) 0

def ofWord (w : UInt32) : List UInt8 := ofNat 4 w.toNat

def ofText (text : String) : List UInt8 := text.toList.flatMap String.utf8EncodeChar

/-- The pieces of `n` bytes in front of those found so far, the latest first. -/
def chunksOnto (n : Nat) (bytes : List UInt8) (found : List (List UInt8)) : List (List UInt8) :=
  match n, bytes with
  | 0, _ | _, [] => found
  | n + 1, b :: bytes => chunksOnto (n + 1) (bytes.drop n) ((b :: bytes.take n) :: found)
termination_by bytes.length
decreasing_by
  simp only [List.length_drop, List.length_cons]
  omega

/-- Pieces of `n` bytes, the last of them possibly shorter. -/
def chunks (n : Nat) (bytes : List UInt8) : List (List UInt8) := (chunksOnto n bytes []).reverse

theorem chunksOnto_eq (n : Nat) (bytes : List UInt8) (found : List (List UInt8)) :
    chunksOnto n bytes found = (chunks n bytes).reverse ++ found := by
  unfold chunks
  rw [List.reverse_reverse]
  induction h : bytes.length using Nat.strongRecOn generalizing bytes found with
  | _ k ih =>
    match n, bytes with
    | 0, _ => simp [chunksOnto]
    | _ + 1, [] => simp [chunksOnto]
    | n + 1, b :: bytes =>
      have hlt : (bytes.drop n).length < k := by
        simp only [List.length_drop]
        simp only [List.length_cons] at h
        omega
      rw [chunksOnto, chunksOnto, ih _ hlt _ _ rfl, ih _ hlt _ [_] rfl]
      simp

@[simp] theorem chunks_nil (n : Nat) : chunks n [] = [] := by
  cases n <;> simp [chunks, chunksOnto]

theorem chunks_cons (n : Nat) (b : UInt8) (bytes : List UInt8) :
    chunks (n + 1) (b :: bytes) = (b :: bytes.take n) :: chunks (n + 1) (bytes.drop n) := by
  rw [chunks, chunksOnto, chunksOnto_eq]
  simp

end PatchCode.Bytes
