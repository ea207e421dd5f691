import Mathlib.Data.Vector.Defs
import PureOS.Foundation.Bytes
import PureOS.Foundation.Fuel

set_option autoImplicit false

/-!
# Net: packets (`net/eth.rs`, `net/mod.rs`)

A packet is the list of its bytes.  Reading outside of it is a panic, as in the
source.  The headers that the kernel writes are functions of their fields.
-/

namespace PureOS.Net

open PureOS.Foundation

/-- A slice of bytes. -/
abbrev Packet := List UInt8
/-- An IPv4 address. -/
abbrev Ip := Vector UInt8 4
/-- The address `a.b.c.d`. -/
def ip4 (a b c d : UInt8) : Ip := #v[a, b, c, d]
/-- An Ethernet address. -/
abbrev Mac := Vector UInt8 6

/-! ## Reading -/

/-- `buf[i]`. -/
def byte (p : Packet) (i : Nat) : Except Fault UInt8 :=
  match p[i]? with
  | some b => .ok b
  | none => .error .panic

/-- `&buf[lo..hi]`. -/
def cut (p : Packet) (lo hi : Nat) : Except Fault Packet :=
  if lo ≤ hi ∧ hi ≤ p.length then .ok ((p.take hi).drop lo) else .error .panic

/-- `[buf[i], buf[i + 1], ..]` with `n` elements. -/
def array (n : Nat) (p : Packet) (i : Nat) : Except Fault (Vector UInt8 n) :=
  if h : i + n ≤ p.length then .ok (Vector.ofFn fun k => p[i + k]) else .error .panic

/-- The number in `n` bytes from byte `i` on, most significant first. -/
def be (n : Nat) (p : Packet) (i : Nat) : Except Fault Nat := do
  let bytes ← array n p i
  return fromBE bytes.toList

/-! ## Checksums -/

/-- The sum of the 16-bit words; a last odd byte counts as the high one of a word. -/
def wordSum : Packet → Nat
  | a :: b :: rest => fromBE [a, b] + wordSum rest
  | [a] => a.toNat * 256
  | [] => 0

/-- `while sum >> 16 != 0 { sum = (sum & 0xFFFF) + (sum >> 16) }`. -/
def foldCarry : Nat → Nat → Nat
  | 0, sum => sum
  | n + 1, sum => if sum / 2 ^ 16 = 0 then sum else foldCarry n (sum % 2 ^ 16 + sum / 2 ^ 16)

/-- `ip_checksum`.  Every turn of the loop makes the sum smaller. -/
def ipChecksum (p : Packet) : Nat :=
  let sum := wordSum p
  2 ^ 16 - 1 - foldCarry sum sum % 2 ^ 16

/-- `ip_eq`. -/
def ipEq (a b : Ip) : Bool := a == b

/-! ## Headers -/

/-- `ETH_TYPE_ARP`. -/
def ethTypeArp : Nat := 0x0806
/-- `ETH_TYPE_IP`. -/
def ethTypeIp : Nat := 0x0800
/-- `ARP_REQUEST`. -/
def arpRequestOp : Nat := 1
/-- `ARP_REPLY`. -/
def arpReplyOp : Nat := 2
/-- `IP_PROTO_UDP`. -/
def ipProtoUdp : UInt8 := 17
/-- `IP_PROTO_TCP`. -/
def ipProtoTcp : UInt8 := 6
/-- `TCP_FLAG_FIN`. -/
def tcpFlagFin : UInt8 := 0x01
/-- `TCP_FLAG_SYN`. -/
def tcpFlagSyn : UInt8 := 0x02
/-- `TCP_FLAG_PSH`. -/
def tcpFlagPsh : UInt8 := 0x08
/-- `TCP_FLAG_ACK`. -/
def tcpFlagAck : UInt8 := 0x10

/-- An Ethernet frame. -/
def ethFrame (dst src : Mac) (ethertype : Nat) (payload : Packet) : Packet :=
  dst.toList ++ (src.toList ++ (toBE 2 ethertype ++ payload))

/-- The packet of `arp_request` and `arp_reply`. -/
def arpPacket (op : Nat) (mac : Mac) (ip : Ip) (targetMac : Mac) (targetIp : Ip) : Packet :=
  toBE 2 1 ++ (toBE 2 ethTypeIp ++ ([6, 4] ++ (toBE 2 op ++ (mac.toList ++ (ip.toList ++
    (targetMac.toList ++ targetIp.toList))))))

/-- The header of an IPv4 packet of `total` bytes with a given checksum. -/
def ipv4Fields (src dst : Ip) (proto : UInt8) (total id csum : Nat) : Packet :=
  [0x45, 0] ++ (toBE 2 total ++ (toBE 2 id ++ ([0x40, 0, 64, proto] ++ (toBE 2 csum ++
    (src.toList ++ dst.toList)))))

/-- The header that `send_ipv4` writes. -/
def ipv4Header (src dst : Ip) (proto : UInt8) (total id : Nat) : Packet :=
  ipv4Fields src dst proto total id (ipChecksum (ipv4Fields src dst proto total id 0))

/-- `build_tcp`.  The buffer has 1500 bytes. -/
def buildTcp (seq ack : Nat) (flags : UInt8) (payload : Packet) (srcPort dstPort : Nat) :
    Except Fault Packet :=
  if 20 + payload.length ≤ 1500 then
    .ok (toBE 2 srcPort ++ (toBE 2 dstPort ++ (toBE 4 seq ++ (toBE 4 ack ++
      ([0x50, flags, 0xFF, 0xFF, 0, 0, 0, 0] ++ payload)))))
  else .error .panic

/-- `tcp_checksum`. -/
def tcpChecksum (src dst : Ip) (segment : Packet) : Nat :=
  if 12 + segment.length > 4096 then 0
  else ipChecksum (src.toList ++ (dst.toList ++ ([0, 6] ++ (toBE 2 segment.length ++
    (segment.set 16 0).set 17 0))))

/-- The segment with its checksum. -/
def withChecksum (segment : Packet) (csum : Nat) : Packet :=
  (segment.set 16 (UInt8.ofNat (csum / 256))).set 17 (UInt8.ofNat csum)

/-! ## Reading succeeds inside the packet -/

theorem byte_ok {p : Packet} {i : Nat} (h : i < p.length) : byte p i = .ok p[i] := by
  rw [byte, List.getElem?_eq_getElem h]

theorem lt_of_get {p : Packet} {i : Nat} {b : UInt8} (h : p[i]? = some b) : i < p.length :=
  (List.getElem?_eq_some_iff.mp h).1

theorem byte_of_get {p : Packet} {i : Nat} {b : UInt8} (h : p[i]? = some b) :
    byte p i = .ok b := by
  rw [byte, h]

theorem cut_ok {p : Packet} {lo hi : Nat} (hlo : lo ≤ hi) (hhi : hi ≤ p.length) :
    cut p lo hi = .ok ((p.take hi).drop lo) := if_pos ⟨hlo, hhi⟩

theorem cut_panic {p : Packet} {lo hi : Nat} (h : hi < lo ∨ p.length < hi) :
    cut p lo hi = .error .panic := if_neg (by omega)

theorem array_ok {n : Nat} {p : Packet} {i : Nat} (h : i + n ≤ p.length) :
    array n p i = .ok (Vector.ofFn fun k => p[i + k]) := dif_pos h

/-- The number in `n` bytes that lie inside the packet. -/
def beAt (n : Nat) (p : Packet) (i : Nat) : Nat := fromBE ((p.drop i).take n)

theorem be_ok {n : Nat} {p : Packet} {i : Nat} (h : i + n ≤ p.length) :
    be n p i = .ok (beAt n p i) := by
  have hbytes : (Vector.ofFn fun k : Fin n => p[i + k]).toList = (p.drop i).take n := by
    apply List.ext_getElem
    · simp
      omega
    · intro k hk hk'
      simp
  rw [be, array_ok h, beAt, ← hbytes]
  rfl

end PureOS.Net
