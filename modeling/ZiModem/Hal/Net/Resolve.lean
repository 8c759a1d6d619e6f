import ZiModem.Hal.Arduino.WString
import ZiModem.Hal.Net.TcpSocket
import ZiModem.Text.Dotted

/-! # Names and addresses

`resolve_ipv4` asks `inet_pton` first and the name server only if the text is no
address. An IPv4 address is the four octets in memory, in network order; where the
HAL handles it as one number, that is what a little-endian host loads from there.
-/

namespace ZiModem.Hal.Net

/-- The memory of an `in_addr`. -/
structure Octets where
  first : UInt8
  second : UInt8
  third : UInt8
  fourth : UInt8
  deriving DecidableEq, Repr

namespace Octets

def toList (o : Octets) : List UInt8 := [o.first, o.second, o.third, o.fourth]

/-- `s_addr`, on a little-endian host. -/
def load (o : Octets) : UInt32 :=
  .ofNat (o.first.toNat + 256 * o.second.toNat + 65536 * o.third.toNat +
    16777216 * o.fourth.toNat)

def store (addr : UInt32) : Octets :=
  ⟨.ofNat addr.toNat, .ofNat (addr.toNat / 256), .ofNat (addr.toNat / 65536),
    .ofNat (addr.toNat / 16777216)⟩

theorem load_toNat (o : Octets) :
    o.load.toNat = o.first.toNat + 256 * o.second.toNat + 65536 * o.third.toNat +
      16777216 * o.fourth.toNat := by
  have h₁ := o.first.toNat_lt
  have h₂ := o.second.toNat_lt
  have h₃ := o.third.toNat_lt
  have h₄ := o.fourth.toNat_lt
  rw [load]
  apply UInt32.toNat_ofNat_of_lt'
  rw [UInt32.size]
  omega

theorem store_load (o : Octets) : store o.load = o := by
  have h₁ := o.first.toNat_lt
  have h₂ := o.second.toNat_lt
  have h₃ := o.third.toNat_lt
  have h₄ := o.fourth.toNat_lt
  obtain ⟨a, b, c, d⟩ := o
  rw [store, load_toNat, Octets.mk.injEq]
  refine ⟨?_, ?_, ?_, ?_⟩
  all_goals
    apply UInt8.toNat_inj.mp
    rw [UInt8.toNat_ofNat']
    dsimp only at *
    omega

theorem load_store (addr : UInt32) : (store addr).load = addr := by
  have haddr := addr.toNat_lt
  apply UInt32.toNat_inj.mp
  rw [load_toNat]
  simp only [store, UInt8.toNat_ofNat']
  omega

end Octets

/-! ## Reading an address -/

/-- What is relied on of `inet_pton`: it accepts the canonical dotted decimal texts, and stores
their octets. -/
def Canonical (pton : List UInt8 → Option Octets) : Prop :=
  ∀ text o, pton text = some o ↔ Dotted.Spells text (o.toList.map UInt8.toNat)

def inetPton (text : List UInt8) : Option Octets :=
  match Dotted.scan 255 4 text [] none with
  | some [a, b, c, d] => some ⟨.ofNat a, .ofNat b, .ofNat c, .ofNat d⟩
  | _ => none

theorem inetPton_canonical : Canonical inetPton := by
  intro text o
  have hscan : Dotted.scan 255 4 text [] none = some (o.toList.map UInt8.toNat) ↔
      Dotted.Spells text (o.toList.map UInt8.toNat) := by
    rw [Dotted.scan_start_iff (by decide), and_iff_left]
    refine ⟨?_, rfl⟩
    intro n hn
    obtain ⟨b, -, rfl⟩ := List.mem_map.mp hn
    exact Nat.le_of_lt_succ b.toNat_lt
  rw [← hscan]
  constructor
  · intro h
    unfold inetPton at h
    split at h
    next a b c d hread =>
      obtain ⟨-, hmost, -⟩ := (Dotted.scan_start_iff (by decide)).mp hread
      simp only [List.forall_mem_cons] at hmost
      rw [hread, ← Option.some.inj h]
      simp [Octets.toList]
      omega
    next => cases h
  · intro h
    rw [inetPton, h]
    simp [Octets.toList]

/-- `resolve_ipv4`, with the names it sends to the name server. -/
def resolveIpv4 (pton dns : List UInt8 → Option Octets) (host : List UInt8) :
    Option UInt32 × List (List UInt8) :=
  let name := Arduino.cString (host ++ [0])
  match pton name with
  | some direct => (some direct.load, [])
  | none => ((dns name).map Octets.load, [name])

/-! ## Using it -/

/-- A `sockaddr_in`; the port is stored by `htons`. -/
structure SockAddr where
  addr : Octets
  port : UInt16
  deriving DecidableEq, Repr

namespace TcpSocket

/-- `TcpSocket::connect` from the name of the host on, with what it hands to `::connect`: `native`
is a socket that could be made, `ok` that `::connect` succeeds. -/
def connectHost (s : TcpSocket) (pton dns : List UInt8 → Option Octets) (host : List UInt8)
    (port : UInt16) (native : Option Nat) (ok : Bool) :
    (TcpSocket × Bool) × Option SockAddr × List (List UInt8) :=
  let (addr, queries) := resolveIpv4 pton dns host
  match addr, native with
  | some addr, some native =>
      (s.connect (if ok then some native else none), some ⟨.store addr, port⟩, queries)
  | _, _ => (s.connect none, none, queries)

/-- `TcpSocket::remote_ip`; `peer` is what `getpeername` finds. -/
def remoteIp (s : TcpSocket) (peer : Option Octets) : UInt32 :=
  if s.isOpen then peer.elim 0 Octets.load else 0

end TcpSocket

end ZiModem.Hal.Net
