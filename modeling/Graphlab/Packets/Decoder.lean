import Graphlab.Lib.Fallible
import Graphlab.Lib.Text
import Graphlab.Packets.Protocol

/-!
# The packet decoder

`packets::decode`: the blocks of a PCAPNG file that `capture::Writer` writes, one row for
each of the first packets.  The loop of the source counts blocks up to 1,000,000; here
the count is the recursion, from the blocks that are left.

## Main definitions

* `decodeBlock` — one block; `options` the options of an interface block.
* `decodeFrom`, `decode` — the file.
-/

namespace Graphlab.Packets

open Lib

/-- The entries of a row that are the same for every packet of a file. -/
structure Context where
  decodeMessageIdentifiers : Bool := false
  labels : List (String × String) := []
  deriving DecidableEq, Repr

/-- One packet. -/
structure Row where
  context : Context
  apiVersion : String := "graphlab.packet-observation/v1"
  packetIndex : String
  blockOffset : String
  timestampUnixMicros : String
  timestampSource : String := "pcapng-epb-host-realtime-microseconds"
  direction : String := "unknown"
  interfaceId : String := "0"
  linkType : ℕ := 1
  capturedLength : ℕ
  originalLength : ℕ
  truncated : Bool
  headers : Headers
  deriving DecidableEq, Repr

/-- What `decode` returns. -/
structure Decoded where
  items : List Row
  packetCount : String
  omittedRecords : String
  deriving DecidableEq, Repr

/-- The local variables of `decode`. -/
structure Progress where
  hasSection : Bool := false
  hasInterface : Bool := false
  snaplen : ℕ := 0
  items : List Row := []
  packets : ℕ := 0
  deriving DecidableEq, Repr

/-! ## Reads -/

/-- `require`. -/
abbrev require (condition : Bool) : Except String Unit := check "invalid_pcapng" condition

/-- `le`. -/
def le (b : Bytes) (n : ℕ) : Except String ℕ :=
  match b.read 4 n with
  | some v => .ok v
  | none => .error "invalid_pcapng"

/-- A read the source does not check. -/
def unchecked {α : Type} : Option α → Except String α
  | some a => .ok a
  | none => .error "out_of_bounds"

/-! ## Blocks -/

/-- The loop over the options of an interface block.  `area` is what is left of them. -/
def options (area : Bytes) : Except String Unit :=
  match area with
  | c₀ :: c₁ :: s₀ :: s₁ :: rest =>
    let code := c₀.toNat + c₁.toNat * 256
    let size := s₀.toNat + s₁.toNat * 256
    if rest.length < size then .error "invalid_pcapng"
    else if code == 0 then require (size == 0)
    else if code == 9 && !(size == 1 && rest.head? == some 6) then .error "invalid_pcapng"
    else if code == 14 then .error "unsupported_timestamp_offset"
    else options (rest.drop (Bytes.padded size))
  | _ => .ok ()
termination_by area.length
decreasing_by simp only [List.length_drop, List.length_cons]; omega

/-- A section header block. -/
def decodeSection (b : Bytes) (type length : ℕ) (p : Progress) : Except String Progress := do
  require (type == 0x0a0d0d0a && length == 28)
  require ((← le b 8) == 0x1a2b3c4d && (← le b 12) == 1)
  return { p with hasSection := true }

/-- An interface description block. -/
def decodeInterface (b : Bytes) (length : ℕ) (p : Progress) : Except String Progress := do
  require (!p.hasInterface && 20 ≤ length)
  require ((← unchecked (byte b 8)) == 1 && (← unchecked (byte b 9)) == 0)
  let snaplen ← le b 12
  require (0 < snaplen && snaplen ≤ 65535)
  options ((b.drop 16).take (length - 20))
  return { p with hasInterface := true, snaplen }

/-- An enhanced packet block. -/
def decodePacket (context : Context) (limit offset : ℕ) (b : Bytes) (length : ℕ) (p : Progress) :
    Except String Progress := do
  require (p.hasInterface && 32 ≤ length)
  require ((← le b 8) == 0)
  let captured ← le b 20
  let original ← le b 24
  require (captured ≤ original && captured ≤ p.snaplen && 32 + Bytes.padded captured == length)
  if p.items.length < limit then
    let high ← le b 12
    let low ← le b 16
    let headers ← unchecked (protocol (← unchecked (slice b 28 captured))
      context.decodeMessageIdentifiers)
    let row : Row :=
      { context
        packetIndex := toString p.packets
        blockOffset := toString offset
        timestampUnixMicros := toString (high * 2 ^ 32 + low)
        capturedLength := captured
        originalLength := original
        truncated := captured < original
        headers }
    return { p with packets := p.packets + 1, items := p.items ++ [row] }
  else return { p with packets := p.packets + 1 }

/-- An interface statistics block. -/
def decodeStatistics (b : Bytes) (length : ℕ) (p : Progress) : Except String Progress := do
  require (p.hasInterface && 24 ≤ length)
  require ((← le b 8) == 0)
  return p

/-- The block `b`, which stands at `offset`. -/
def decodeBlock (context : Context) (limit offset : ℕ) (b : Bytes) (type length : ℕ)
    (p : Progress) : Except String Progress :=
  if !p.hasSection then decodeSection b type length p
  else if type == 1 then decodeInterface b length p
  else if type == 6 then decodePacket context limit offset b length p
  else if type == 5 then decodeStatistics b length p
  else .error "unsupported_pcapng_block"

/-! ## The file -/

/-- The loop of `decode`, at `offset`, with `rest` to come and so many blocks left. -/
def decodeFrom (context : Context) (limit : ℕ) :
    ℕ → ℕ → Bytes → Progress → Except String Progress
  | _, _, [], p => .ok p
  | 0, _, _ :: _, _ => .error "invalid_pcapng"
  | left + 1, offset, x :: xs, p => do
      let rest := x :: xs
      require (12 ≤ rest.length)
      let type ← le rest 0
      let length ← le rest 4
      require (12 ≤ length && length % 4 == 0 && length ≤ 1024 * 1024 && length ≤ rest.length)
      let b := rest.take length
      require ((← le b (length - 4)) == length)
      let p ← decodeBlock context limit offset b type length p
      decodeFrom context limit left (offset + length) (rest.drop length) p

/-- `decode`. -/
def decode (bytes : Bytes) (context : Context) (limit : ℕ) : Except String Decoded := do
  require (limit ≤ 2000)
  let p ← decodeFrom context limit 1000000 0 bytes {}
  require (p.hasSection && p.hasInterface)
  return {
    items := p.items
    packetCount := toString p.packets
    omittedRecords := toString (p.packets - p.items.length) }

end Graphlab.Packets
