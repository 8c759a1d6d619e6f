import ZiModem.Hal.Arduino.Printf
import ZiModem.Hal.Net.Resolve
import ZiModem.Hal.Net.UdpSocket

/-! # `IPAddress`

Four octets that are also a number, with the first octet lowest, and a text. What
the sketch does with an address goes through the text: `WiFiClient` and `WiFiUDP`
hand it to the sockets as the name of a host.
-/

namespace ZiModem.Hal.Arduino

open Net

structure IPAddress where
  bytes : Octets
  deriving DecidableEq, Repr

namespace IPAddress

/-- `IPAddress(uint32_t)`. -/
def ofUInt32 (address : UInt32) : IPAddress :=
  ⟨⟨address.toUInt8, (address >>> 8).toUInt8, (address >>> 16).toUInt8,
    (address >>> 24).toUInt8⟩⟩

variable (a : IPAddress)

/-- `operator uint32_t`. -/
def toUInt32 : UInt32 :=
  a.bytes.first.toUInt32 ||| (a.bytes.second.toUInt32 <<< 8) |||
    (a.bytes.third.toUInt32 <<< 16) ||| (a.bytes.fourth.toUInt32 <<< 24)

def text : List UInt8 :=
  Dotted.print a.bytes.first.toNat ++ Dotted.dot ::
    (Dotted.print a.bytes.second.toNat ++ Dotted.dot ::
      (Dotted.print a.bytes.third.toNat ++ Dotted.dot :: Dotted.print a.bytes.fourth.toNat))

def textSize : Nat := 16

def toString : WString := .ofCString (some (vsnprintf a.text textSize).2)

/-! ## Numbers -/

theorem or_shiftLeft {low i : Nat} (h : low < 2 ^ i) (high : Nat) :
    low ||| high <<< i = low + 2 ^ i * high := by
  rw [Nat.or_comm, ← Nat.shiftLeft_add_eq_or_of_lt h, Nat.shiftLeft_eq, Nat.mul_comm, Nat.add_comm]

theorem octet_shiftLeft (b : UInt8) {k : UInt32} (hk : k.toNat ≤ 24) :
    (b.toUInt32 <<< k).toNat = b.toNat <<< k.toNat := by
  have hfits : b.toNat * 2 ^ k.toNat < 2 ^ 32 := calc
    b.toNat * 2 ^ k.toNat ≤ b.toNat * 2 ^ 24 :=
      Nat.mul_le_mul_left _ (Nat.pow_le_pow_right (by decide) hk)
    _ < 2 ^ 8 * 2 ^ 24 := Nat.mul_lt_mul_of_pos_right b.toNat_lt (by decide)
    _ = 2 ^ 32 := by decide
  have hcount : k.toNat % 32 = k.toNat := Nat.mod_eq_of_lt (by omega)
  rw [UInt32.toNat_shiftLeft, UInt8.toNat_toUInt32, hcount, Nat.shiftLeft_eq,
    Nat.mod_eq_of_lt hfits]

theorem toUInt32_eq_load : a.toUInt32 = a.bytes.load := by
  have h₁ := a.bytes.first.toNat_lt
  have h₂ := a.bytes.second.toNat_lt
  have h₃ := a.bytes.third.toNat_lt
  apply UInt32.toNat_inj.mp
  rw [Octets.load_toNat, toUInt32, UInt32.toNat_or, UInt32.toNat_or, UInt32.toNat_or,
    UInt8.toNat_toUInt32, octet_shiftLeft _ (by decide), octet_shiftLeft _ (by decide),
    octet_shiftLeft _ (by decide)]
  show a.bytes.first.toNat ||| a.bytes.second.toNat <<< 8 ||| a.bytes.third.toNat <<< 16 |||
    a.bytes.fourth.toNat <<< 24 = _
  have h : a.bytes.first.toNat ||| a.bytes.second.toNat <<< 8 ||| a.bytes.third.toNat <<< 16 |||
      a.bytes.fourth.toNat <<< 24 =
      a.bytes.first.toNat + 2 ^ 8 * a.bytes.second.toNat + 2 ^ 16 * a.bytes.third.toNat +
        2 ^ 24 * a.bytes.fourth.toNat := by
    rw [or_shiftLeft h₁ a.bytes.second.toNat, or_shiftLeft (by omega) a.bytes.third.toNat,
      or_shiftLeft (by omega) a.bytes.fourth.toNat]
  exact h

theorem shiftRight_toUInt8 (v : UInt32) {k : UInt32} (hk : k.toNat ≤ 24) :
    (v >>> k).toUInt8 = .ofNat (v.toNat / 2 ^ k.toNat) := by
  have hcount : k.toNat % 32 = k.toNat := Nat.mod_eq_of_lt (by omega)
  apply UInt8.toNat_inj.mp
  rw [UInt32.toNat_toUInt8, UInt32.toNat_shiftRight, hcount, UInt8.toNat_ofNat',
    Nat.shiftRight_eq_div_pow]

theorem ofUInt32_eq_store (v : UInt32) : ofUInt32 v = ⟨Octets.store v⟩ := by
  rw [ofUInt32, shiftRight_toUInt8 v (by decide), shiftRight_toUInt8 v (by decide),
    shiftRight_toUInt8 v (by decide)]
  rfl

theorem ofUInt32_load (o : Octets) : ofUInt32 o.load = ⟨o⟩ := by
  rw [ofUInt32_eq_store, Octets.store_load]

/-! ## Text -/

theorem text_spells : Dotted.Spells a.text (a.bytes.toList.map UInt8.toNat) :=
  .more (Dotted.numeral_print _) (.more (Dotted.numeral_print _)
    (.more (Dotted.numeral_print _) (.last (Dotted.numeral_print _))))

theorem text_length : a.text.length < textSize := by
  have hoctet : ∀ b : UInt8, (Dotted.print b.toNat).length ≤ 3 := by
    intro b
    apply Dotted.print_length_le (by decide)
    exact b.toNat_lt.trans (by decide)
  have h₁ := hoctet a.bytes.first
  have h₂ := hoctet a.bytes.second
  have h₃ := hoctet a.bytes.third
  have h₄ := hoctet a.bytes.fourth
  simp only [text, List.length_append, List.length_cons, textSize]
  omega

theorem text_nul : 0 ∉ a.text := by
  intro hmem
  rcases a.text_spells.chars hmem with hdigit | hdot
  · revert hdigit
    decide
  · revert hdot
    decide

theorem toString_value : a.toString.value = a.text := by
  have hlength := a.text_length
  have hstored : (vsnprintf a.text textSize).2 = a.text ++ [0] := by
    have htaken : a.text.take (textSize - 1) = a.text := List.take_of_length_le (by omega)
    show a.text.take (textSize - 1) ++ [0] = _
    rw [htaken]
  rw [toString, hstored]
  exact WString.cString_eq_self_iff.mpr a.text_nul

theorem toString_cStr : cString a.toString.cStr = a.text := by
  rw [WString.cStr, toString_value]
  exact WString.cString_eq_self_iff.mpr a.text_nul

end IPAddress

/-! ## Calls that take or return an address -/

/-- `WiFiClass::hostByName`, for a host that may be null: the address, whether there is one, and the
names sent to the name server. -/
def hostByName (pton dns : List UInt8 → Option Octets) (host : Option (List UInt8))
    (out : IPAddress) : IPAddress × Bool × List (List UInt8) :=
  match resolveIpv4 pton dns ((host.map cString).getD []) with
  | (some addr, queries) => (.ofUInt32 addr, true, queries)
  | (none, queries) => (out, false, queries)

def wifiClientConnect (s : TcpSocket) (pton dns : List UInt8 → Option Octets) (ip : IPAddress)
    (port : UInt16) (native : Option Nat) (ok : Bool) :
    (TcpSocket × Bool) × Option SockAddr × List (List UInt8) :=
  s.connectHost pton dns (cString ip.toString.cStr) port native ok

def remoteIP (s : TcpSocket) (peer : Option Octets) : IPAddress := .ofUInt32 (s.remoteIp peer)

/-- `WiFiUDP::beginPacket`. -/
def udpBeginPacket (u : UdpSocket) (ip : IPAddress) (port : UInt16) : UdpSocket × Bool :=
  u.beginPacket (cString ip.toString.cStr) port

/-- `WiFiUDP::endPacket`, which resolves the host only now, with the datagram it sends and the names
sent to the name server. -/
def udpEndPacket (u : UdpSocket) (pton dns : List UInt8 → Option Octets) (ssize : Int) :
    (UdpSocket × Bool × Option SendTo) × List (List UInt8) :=
  if u.handle = none then ((u, false, none), [])
  else
    let (addr, queries) := resolveIpv4 pton dns u.pendingHost
    (u.endPacket addr ssize, queries)

/-- Wherever the address goes through its text, it comes out as its own octets, and no name server
is asked. -/
structure RoundTrip (pton dns : List UInt8 → Option Octets) (a : IPAddress) : Prop where
  fits : a.text.length < IPAddress.textSize ∧ a.toString.value = a.text
  resolves : resolveIpv4 pton dns a.toString.value = (some a.toUInt32, [])
  named : ∀ out, hostByName pton dns (some a.toString.cStr) out = (a, true, [])
  connects : ∀ s port native ok,
    (wifiClientConnect s pton dns a port (some native) ok).2 = (some ⟨a.bytes, port⟩, [])
  sends : ∀ (u : UdpSocket) port (bufs : List (List UInt8)) ssize, u.handle ≠ none →
    let u' := bufs.foldl (fun u buf => (u.write buf).1) (udpBeginPacket u a port).1
    ∃ call, (udpEndPacket u' pton dns ssize).1.2.2 = some call ∧
      Octets.store call.addr = a.bytes ∧ call.port = port ∧
      (udpEndPacket u' pton dns ssize).2 = []

theorem writes_pending (u : UdpSocket) (bufs : List (List UInt8)) :
    (bufs.foldl (fun u buf => (u.write buf).1) u).pendingHost = u.pendingHost ∧
      (bufs.foldl (fun u buf => (u.write buf).1) u).pendingPort = u.pendingPort ∧
      (bufs.foldl (fun u buf => (u.write buf).1) u).handle = u.handle := by
  induction bufs generalizing u with
  | nil => exact ⟨rfl, rfl, rfl⟩
  | cons buf bufs ih => exact ih (u.write buf).1

section Calls

variable {pton : List UInt8 → Option Octets} (hpton : Canonical pton)
  (dns : List UInt8 → Option Octets) (a : IPAddress)

include hpton

theorem resolve_text : resolveIpv4 pton dns a.text = (some a.toUInt32, []) := by
  have hname : cString (a.text ++ [0]) = a.text := WString.cString_eq_self_iff.mpr a.text_nul
  have hdirect : pton a.text = some a.bytes := (hpton a.text a.bytes).mpr a.text_spells
  simp only [resolveIpv4, hname, hdirect, a.toUInt32_eq_load]

theorem roundTrip : RoundTrip pton dns a where
  fits := ⟨a.text_length, a.toString_value⟩
  resolves := by
    rw [a.toString_value]
    exact resolve_text hpton dns a
  named := by
    intro out
    simp only [hostByName, Option.map_some, Option.getD_some, a.toString_cStr,
      resolve_text hpton dns a, a.toUInt32_eq_load, IPAddress.ofUInt32_load]
  connects := by
    intro s port native ok
    simp only [wifiClientConnect, TcpSocket.connectHost, a.toString_cStr,
      resolve_text hpton dns a, a.toUInt32_eq_load, Octets.store_load]
  sends := by
    intro u port bufs ssize hopen u'
    obtain ⟨hhost, hport, hhandle⟩ := writes_pending (udpBeginPacket u a port).1 bufs
    have hresolved : resolveIpv4 pton dns u'.pendingHost = (some a.toUInt32, []) := by
      rw [hhost]
      show resolveIpv4 pton dns (cString a.toString.cStr) = _
      rw [a.toString_cStr]
      exact resolve_text hpton dns a
    have hu' : ¬ u'.handle = none := by
      rw [hhandle]
      exact hopen
    have hsend : (udpEndPacket u' pton dns ssize).1.2.2 =
        some ⟨u'.pendingHost, a.toUInt32, u'.pendingPort, u'.sendBuffer⟩ := by
      simp only [udpEndPacket, hresolved, UdpSocket.endPacket, if_neg hu']
    refine ⟨_, hsend, ?_, hport, ?_⟩
    · rw [a.toUInt32_eq_load]
      exact Octets.store_load a.bytes
    · simp only [udpEndPacket, hresolved, if_neg hu']

end Calls

/-- Every address keeps its octets on the way through its text and through its number, and the
address of a peer is printed as the peer's octets in order. -/
theorem address_round_trip {pton : List UInt8 → Option Octets} (hpton : Canonical pton)
    (dns : List UInt8 → Option Octets) (a : IPAddress) (v : UInt32) (native : Nat)
    (peer : Octets) :
    RoundTrip pton dns a ∧ (IPAddress.ofUInt32 v).toUInt32 = v ∧
      IPAddress.ofUInt32 a.toUInt32 = a ∧
      Dotted.Spells (remoteIP (.opened native) (some peer)).toString.value
        (peer.toList.map UInt8.toNat) := by
  refine ⟨roundTrip hpton dns a, ?_, ?_, ?_⟩
  · rw [IPAddress.toUInt32_eq_load, IPAddress.ofUInt32_eq_store, Octets.load_store]
  · rw [a.toUInt32_eq_load, IPAddress.ofUInt32_load]
  · have hpeer : remoteIP (.opened native) (some peer) = ⟨peer⟩ := IPAddress.ofUInt32_load peer
    rw [hpeer, IPAddress.toString_value]
    exact IPAddress.text_spells ⟨peer⟩

/-- `192.168.1.50`, with `inet_pton` as it is and no name server. -/
theorem address_round_trip_home :
    RoundTrip inetPton (fun _ => none) ⟨⟨192, 168, 1, 50⟩⟩ ∧
      (IPAddress.ofUInt32 838969536).toUInt32 = 838969536 ∧
      IPAddress.ofUInt32 (IPAddress.mk ⟨192, 168, 1, 50⟩).toUInt32 = ⟨⟨192, 168, 1, 50⟩⟩ ∧
      Dotted.Spells (remoteIP (.opened 3) (some ⟨10, 0, 0, 1⟩)).toString.value
        ((Octets.mk 10 0 0 1).toList.map UInt8.toNat) :=
  address_round_trip inetPton_canonical (fun _ => none) ⟨⟨192, 168, 1, 50⟩⟩ 838969536 3
    ⟨10, 0, 0, 1⟩

end ZiModem.Hal.Arduino
