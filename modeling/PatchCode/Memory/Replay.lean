import PatchCode.Dialect
import PatchCode.Memory.Image

/-! Replaying code lines: the stores that they make. Only unconditional stores can be replayed. A
bulk store takes its bytes from the lines behind its header. -/

namespace PatchCode

inductive ReplayFault where
  | malformed (line : String)
  | unsupported (code : UInt32) (line : String)
  /-- A bulk store to this address lacks lines. -/
  | truncated (address : Address)
  /-- The dialect has no records. -/
  | noRecords (dialect : Dialect)
  deriving Repr, DecidableEq

def ReplayFault.message : ReplayFault → String
  | malformed line => "Malformed record line: " ++ line
  | unsupported code line =>
    "Record type 0x" ++ Text.hex 2 code.toNat ++ " cannot be replayed: " ++ line
  | truncated address =>
    "String write at 0x" ++ Text.hex 8 address.toNat ++ " is missing payload lines"
  | noRecords dialect => "Dialect " ++ dialect.name ++ " has no write records"

namespace Replay

/-- What one record asks for. -/
inductive Request where
  | write (w : Write)
  /-- So many bytes from the lines that follow. -/
  | bulk (address : Address) (size : Nat)
  | unsupported (code : UInt32)
  deriving Repr, DecidableEq

/-- The type of a record without its lowest bit, which belongs to the address. -/
def code (r : Record) : UInt32 := (r.left >>> 24) &&& 0xFE

def fill (address : Address) (pattern : List UInt8) (count : Nat) : Request :=
  .write ⟨address, (List.replicate count pattern).flatten⟩

def lowByte (r : Record) : List UInt8 := Bytes.ofNat 1 r.right.toNat

def lowHalf (r : Record) : List UInt8 := Bytes.ofNat 2 r.right.toNat

/-- A record as its dialect reads it. -/
def request (dialect : Dialect) (r : Record) : Request :=
  let address := Address.inRecord r.left
  match dialect, (code r).toNat with
  | _, 0x04 => fill address (Bytes.ofWord r.right) 1
  | .actionReplay, 0x00 => fill address (lowByte r) (max 1 (r.right.toNat / 0x100))
  | .actionReplay, 0x02 => fill address (lowHalf r) (max 1 (r.right.toNat / 0x10000))
  | .gecko, 0x00 => fill address (lowByte r) (r.right.toNat / 0x10000 + 1)
  | .gecko, 0x02 => fill address (lowHalf r) (r.right.toNat / 0x10000 + 1)
  | .gecko, 0x06 => .bulk address r.right.toNat
  | _, _ => .unsupported (code r)

/-- A bulk store whose lines are being read. -/
structure Pending where
  address : Address
  size : Nat
  /-- Lines still to come. -/
  missing : Nat
  /-- Lines read, the latest first. -/
  rows : List Record
  deriving Repr, DecidableEq

/-- The writes so far, the latest first, and what a header has left open. -/
structure State where
  done : List Write := []
  pending : Option Pending := none
  deriving Repr, DecidableEq

def rowBytes (r : Record) : List UInt8 := Bytes.ofWord r.left ++ Bytes.ofWord r.right

/-- Closes a bulk store that has all its lines. -/
def settle (done : List Write) (p : Pending) : State :=
  if p.missing = 0 then
    { done := ⟨p.address, (p.rows.reverse.flatMap rowBytes).take p.size⟩ :: done }
  else { done, pending := some p }

def step (dialect : Dialect) (s : State) (line : String) : Except ReplayFault State :=
  match Record.ofLine? line with
  | none => .error (.malformed line)
  | some r =>
    match s.pending with
    | some p => .ok (settle s.done { p with missing := p.missing - 1, rows := r :: p.rows })
    | none =>
      match request dialect r with
      | .write w => .ok { done := w :: s.done }
      | .bulk address size => .ok (settle s.done ⟨address, size, (size + 7) / 8, []⟩)
      | .unsupported code => .error (.unsupported code line)

/-- The writes at the end of the lines. -/
def finish (s : State) : Except ReplayFault (List Write) :=
  match s.pending with
  | some p => .error (.truncated p.address)
  | none => .ok s.done.reverse

/-- The writes that lines make, in order. -/
def writes (dialect : Dialect) (lines : List String) : Except ReplayFault (List Write) :=
  if dialect = .bytes then .error (.noRecords dialect)
  else (lines.foldlM (step dialect) {}).bind finish

end Replay

/-- The memory that lines leave behind. -/
def replay (dialect : Dialect) (lines : List String) : Except ReplayFault Image :=
  (Replay.writes dialect lines).map Image.ofWrites

end PatchCode
