import PatchCode.Bytes
import PatchCode.Patch.Basic

/-! Run-length plans: how the bytes of a write are covered by fill records and word records. Going
from left to right, at a multiple of four a run of equal bytes or of equal pairs becomes one fill
and anything else a word; heads off a multiple of four and the last bytes are covered by single
bytes and pairs. -/

namespace PatchCode

/-- One planned record; a value may be repeated. -/
inductive WriteRecord where
  | byte (address : Address) (value : UInt8) (count : Nat)
  | half (address : Address) (value : UInt16) (count : Nat)
  | word (address : Address) (value : UInt32)
  deriving Repr, DecidableEq

namespace WriteRecord

def address : WriteRecord → Address
  | byte a _ _ | half a _ _ | word a _ => a

/-- Bytes covered. -/
def size : WriteRecord → Nat
  | byte _ _ count => count
  | half _ _ count => 2 * count
  | word _ _ => 4

/-- The bytes that the record stores. -/
def bytes : WriteRecord → List UInt8
  | byte _ value count => List.replicate count value
  | half _ value count => (List.replicate count (Bytes.ofNat 2 value.toNat)).flatten
  | word _ value => Bytes.ofNat 4 value.toNat

end WriteRecord

/-- The largest repetition counts that fills may have. -/
structure FillLimits where
  maxBytes : Nat
  maxHalves : Nat
  deriving Repr, DecidableEq

namespace Plan

def halfOf (a b : UInt8) : UInt16 := .ofNat (Bytes.toNat [a, b])

def wordOf (a b c d : UInt8) : UInt32 := .ofNat (Bytes.toNat [a, b, c, d])

/-- How far a list goes on with `a, b, a, b, …`, added to `n`. -/
def alternation (a b : UInt8) (n : Nat) : List UInt8 → Nat
  | [] => n
  | c :: cs => if c = a then alternation b a (n + 1) cs else n

/-- The largest multiple of four not above `n`. -/
def wholeWords (n : Nat) : Nat := n / 4 * 4

/-- The length of a fill with the first byte at a word boundary, zero if there is none. -/
def byteFill (limits : FillLimits) (a : UInt8) (rest : List UInt8) : Nat :=
  let run := (rest.takeWhile (· == a)).length + 1
  if 5 ≤ run then wholeWords (min run limits.maxBytes) else 0

/-- The length of a fill with the first two bytes at a word boundary; it is of use above four. A run
that reaches the end need not stop at a word boundary. -/
def halfFill (limits : FillLimits) (a b : UInt8) (rest : List UInt8) : Nat :=
  let run := alternation a b 2 rest / 2 * 2
  let fill := if (rest.drop (run - 2)).isEmpty then run else wholeWords run
  if limits.maxHalves * 2 < fill then wholeWords (limits.maxHalves * 2) else fill

/-- At a word boundary: the fill with the first byte, else that with the first two, else a word. -/
def atWord (address : Address) (a b c d : UInt8) (byteFill halfFill : Nat) : WriteRecord :=
  if 4 ≤ byteFill then .byte address a byteFill
  else if 4 < halfFill then .half address (halfOf a b) (halfFill / 2)
  else .word address (wordOf a b c d)

/-- The record for four or more bytes. -/
def body (limits : FillLimits) (address : Address) (a b c d : UInt8)
    (rest : List UInt8) : WriteRecord :=
  if address % 2 ≠ 0 then .byte address a 1
  else if address % 4 ≠ 0 then .half address (halfOf a b) 1
  else
    atWord address a b c d (byteFill limits a (b :: c :: d :: rest))
      (halfFill limits a b (c :: d :: rest))

/-- Two bytes at an even address, one byte at an odd one. -/
def pair (address : Address) (a b : UInt8) : WriteRecord :=
  if address % 2 = 0 then .half address (halfOf a b) 1 else .byte address a 1

/-- The record that covers the first byte and those behind it that it can. -/
def next (limits : FillLimits) (address : Address) (a : UInt8) : List UInt8 → WriteRecord
  | [] => .byte address a 1
  | [b] => pair address a b
  | [b, c] => if a = b ∧ b = c then .byte address a 3 else pair address a b
  | b :: c :: d :: rest => body limits address a b c d rest

theorem size_pair_pos (address : Address) (a b : UInt8) : 0 < (pair address a b).size := by
  unfold pair
  split <;> simp [WriteRecord.size]

theorem size_atWord_pos (address : Address) (a b c d : UInt8) (byteFill halfFill : Nat) :
    0 < (atWord address a b c d byteFill halfFill).size := by
  unfold atWord
  split
  · simp only [WriteRecord.size]; omega
  · split <;> simp only [WriteRecord.size] <;> omega

theorem size_body_pos (limits : FillLimits) (address : Address) (a b c d : UInt8)
    (rest : List UInt8) :
    0 < (body limits address a b c d rest).size := by
  unfold body
  split
  · simp [WriteRecord.size]
  · split
    · simp [WriteRecord.size]
    · exact size_atWord_pos ..

/-- Every record covers at least one byte. -/
theorem size_next_pos (limits : FillLimits) (address : Address) (a : UInt8) (rest : List UInt8) :
    0 < (next limits address a rest).size := by
  unfold next
  split
  · simp [WriteRecord.size]
  · exact size_pair_pos ..
  · split
    · simp [WriteRecord.size]
    · exact size_pair_pos ..
  · exact size_body_pos ..

/-- The records of a plan in front of those found so far, the latest first. -/
def onto (limits : FillLimits) (address : Address) (bytes : List UInt8) (found : List WriteRecord) :
    List WriteRecord :=
  match bytes with
  | [] => found
  | a :: rest =>
    let record := next limits address a rest
    onto limits (address.advance record.size) ((a :: rest).drop record.size) (record :: found)
termination_by bytes.length
decreasing_by
  have := size_next_pos limits address a rest
  simp only [List.length_drop, List.length_cons]
  omega

end Plan

/-- The records that cover `bytes` from `address` on. -/
def plan (limits : FillLimits) (address : Address) (bytes : List UInt8) : List WriteRecord :=
  (Plan.onto limits address bytes []).reverse

namespace Plan

theorem onto_eq (limits : FillLimits) (address : Address) (bytes : List UInt8)
    (found : List WriteRecord) :
    onto limits address bytes found = (plan limits address bytes).reverse ++ found := by
  unfold plan
  rw [List.reverse_reverse]
  induction h : bytes.length using Nat.strongRecOn generalizing address bytes found with
  | _ n ih =>
    cases bytes with
    | nil => simp [onto]
    | cons a rest =>
      have hpos := size_next_pos limits address a rest
      have hlt : ((a :: rest).drop (next limits address a rest).size).length < n := by
        simp only [List.length_drop]
        simp only [List.length_cons] at h ⊢
        omega
      rw [onto, onto, ih _ hlt _ _ _ rfl, ih _ hlt _ _ [_] rfl]
      simp

@[simp] theorem plan_nil (limits : FillLimits) (address : Address) :
    plan limits address [] = [] := by
  simp [plan, onto]

theorem plan_cons (limits : FillLimits) (address : Address) (a : UInt8) (rest : List UInt8) :
    plan limits address (a :: rest) =
      next limits address a rest ::
        plan limits (address.advance (next limits address a rest).size)
          ((a :: rest).drop (next limits address a rest).size) := by
  rw [plan, onto, onto_eq]
  simp

end Plan

def Write.plan (w : Write) (limits : FillLimits) : List WriteRecord :=
  PatchCode.plan limits w.address w.bytes

end PatchCode
