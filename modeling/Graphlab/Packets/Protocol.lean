import Graphlab.Messages.Identifier

/-!
# Headers of a captured frame

`protocol` of the packet decoder: Ethernet with at most two VLAN tags, IPv4 or IPv6, and
the transport header.  The source reads the frame without checks of its own, so a read is
`none` here when it lies outside; `protocol_isSome` says that no read does.

An address is left as its bytes; `inet_ntop` only prints them.
-/

namespace Graphlab.Packets

open Lib

inductive Protocol
  | other | arp | ipv4 | ipv6 | icmp | icmpv6 | tcp | udp
  deriving DecidableEq, Repr

inductive DecodeStatus
  | complete
  | truncatedHeader
  | malformedHeader
  | unsupportedIpv6Extension
  | unsupportedEthertype
  | fragmentNoReassembly
  deriving DecidableEq, Repr

structure Headers where
  protocol : Protocol := .other
  decodeStatus : DecodeStatus := .complete
  etherType : Option ℕ := none
  sourceAddress : Option Bytes := none
  destinationAddress : Option Bytes := none
  ipProtocol : Option ℕ := none
  fragmented : Option Bool := none
  sourcePort : Option ℕ := none
  destinationPort : Option ℕ := none
  fixtureIdentifier : Option Messages.Identifier := none
  deriving DecidableEq, Repr

/-! ## Reads -/

/-- `b[n]`. -/
def byte (b : Bytes) (n : ℕ) : Option ℕ := b[n]?.map UInt8.toNat

/-- `be`. -/
def be (b : Bytes) (n : ℕ) : Option ℕ := do
  let high ← byte b n
  let low ← byte b (n + 1)
  return high * 256 + low

/-- The `k` bytes at `n`. -/
def slice (b : Bytes) (n k : ℕ) : Option Bytes :=
  if n + k ≤ b.length then some ((b.drop n).take k) else none

theorem byte_isSome {b : Bytes} {n : ℕ} (h : n < b.length) : ∃ x, byte b n = some x := by
  simp [byte, h]

theorem slice_isSome {b : Bytes} {n k : ℕ} (h : n + k ≤ b.length) : ∃ x, slice b n k = some x :=
  ⟨_, if_pos h⟩

/-! ## The layers -/

/-- `short_header`. -/
def Headers.short (p : Headers) : Headers := { p with decodeStatus := .truncatedHeader }

/-- The loop over VLAN tags, `n` of which may follow: the type and the position after
them, or nothing when the frame ends in one. -/
def tags (b : Bytes) : ℕ → ℕ → ℕ → Option (Option (ℕ × ℕ))
  | 0, type, pos => some (some (type, pos))
  | n + 1, type, pos =>
    if type == 0x8100 || type == 0x88a8 then
      if b.length < pos + 4 then some none
      else do tags b n (← be b (pos + 2)) (pos + 4)
    else some (some (type, pos))

def Headers.malformed (p : Headers) : Headers := { p with decodeStatus := .malformedHeader }

/-- The ports, which TCP and UDP have in the same place. -/
def ports (b : Bytes) (pos : ℕ) (p : Headers) : Option Headers := do
  let source ← be b pos
  let destination ← be b (pos + 2)
  return { p with sourcePort := some source, destinationPort := some destination }

/-- A TCP header between `pos` and `stop`. -/
def tcp (b : Bytes) (pos stop : ℕ) (p : Headers) : Option Headers :=
  let p := { p with protocol := .tcp }
  if stop < pos + 20 then some p.short
  else do
    let offset := (← byte b (pos + 12)) / 16
    if offset < 5 then return p.malformed
    if stop < pos + offset * 4 then return p.short
    ports b pos p

/-- A UDP header between `pos` and `stop`.  The payload of a datagram of 61 bytes may be a
fixture message. -/
def udp (b : Bytes) (messages : Bool) (type pos stop : ℕ) (p : Headers) : Option Headers :=
  let p := { p with protocol := .udp }
  if stop < pos + 8 then some p.short
  else do
    let length ← be b (pos + 4)
    if length < 8 then return p.malformed
    let p ← ports b pos p
    if messages && type == 0x0800 && length == 61 && pos + 61 ≤ stop then
      return { p with fixtureIdentifier := Messages.identifier (← slice b (pos + 8) 53) }
    return p

/-- What `protocol` does after the network header, whose payload is between `pos` and
`stop`. -/
def transport (b : Bytes) (messages : Bool) (type next : ℕ) (fragment : Bool) (pos stop : ℕ)
    (p : Headers) : Option Headers :=
  let p := { p with ipProtocol := some next, fragmented := some fragment }
  if fragment then some { p with decodeStatus := .fragmentNoReassembly }
  else if next == 1 then some { p with protocol := .icmp }
  else if next == 58 then some { p with protocol := .icmpv6 }
  else if next == 6 then tcp b pos stop p
  else if next == 17 then udp b messages type pos stop p
  else some p

/-- The IPv4 header at `pos`. -/
def ipv4 (b : Bytes) (messages : Bool) (pos : ℕ) (p : Headers) : Option Headers :=
  let p := { p with protocol := .ipv4 }
  if b.length < pos + 20 then some p.short
  else do
    let first ← byte b pos
    let ihl := first % 16 * 4
    let length ← be b (pos + 2)
    if first / 16 != 4 || ihl < 20 || length < ihl then
      return p.malformed
    if b.length < pos + ihl then return p.short
    let p := { p with
      sourceAddress := some (← slice b (pos + 12) 4)
      destinationAddress := some (← slice b (pos + 16) 4) }
    let next ← byte b (pos + 9)
    let fragment := (← be b (pos + 6)) % 0x4000 != 0
    transport b messages 0x0800 next fragment (pos + ihl) (min b.length (pos + length)) p

/-- The IPv6 header at `pos`. -/
def ipv6 (b : Bytes) (messages : Bool) (pos : ℕ) (p : Headers) : Option Headers :=
  let p := { p with protocol := .ipv6 }
  if b.length < pos + 40 then some p.short
  else do
    if (← byte b pos) / 16 != 6 then return p.malformed
    let p := { p with
      sourceAddress := some (← slice b (pos + 8) 16)
      destinationAddress := some (← slice b (pos + 24) 16) }
    let next ← byte b (pos + 6)
    let length ← be b (pos + 4)
    if next == 0 || next == 43 || next == 44 || next == 50 || next == 51 || next == 60 then
      return { p with decodeStatus := .unsupportedIpv6Extension, ipProtocol := some next }
    transport b messages 0x86dd next false (pos + 40) (min b.length (pos + 40 + length)) p

/-- `protocol`. -/
def protocol (b : Bytes) (messages : Bool) : Option Headers :=
  let p : Headers := {}
  if b.length < 14 then some p.short
  else do
    match ← tags b 2 (← be b 12) 14 with
    | none => return p.short
    | some (type, pos) =>
      let p := { p with etherType := some type }
      if type == 0x0806 then return { p with protocol := .arp }
      else if type == 0x0800 then ipv4 b messages pos p
      else if type == 0x86dd then ipv6 b messages pos p
      else return { p with decodeStatus := .unsupportedEthertype }

end Graphlab.Packets
