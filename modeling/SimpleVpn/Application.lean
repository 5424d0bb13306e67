import SimpleVpn.Header

/-!
# The VPN application

The two packet handlers of `ns3::VPNApplication`: `SendPacket`, called for a
packet that leaves through the VPN interface, puts a VPN header in front of it
and sends it to the server; `ReceivePacket`, called for a datagram on the
application's socket, removes the VPN header and either delivers the inner
packet to the VPN interface or sends its payload on.

The classes of the network simulator are parameters: `Ns3` is what the handlers
use of `Ipv4Header` and `UdpHeader`, and `Ns3.Documented` says that they read the
wire formats. What a handler does to the outside is a list of events.

Log lines are left out, but for one: with debug logging, `ReceivePacket` decrypts
the header of every datagram to print it. With a good key that changes nothing
(`receivePacketLogging_eq`); `receivePacket` is the handler without logging.
-/

namespace SimpleVpn

open Exec AES

/-! ## What is used of the simulator -/

/-- `Ipv4Address`. -/
abbrev Ipv4Address := UInt32

/-- The number that big-endian bytes encode. -/
def beNat (v : Bytes) : ℕ := v.foldl (fun n b => 256 * n + b.toNat) 0

/-- The destination port in a UDP or TCP header: its second field. -/
def portField (header : Bytes) : UInt16 := UInt16.ofNat (beNat ((header.drop 2).take 2))

/-- An IPv4 header, options included, with its protocol and destination. -/
structure IsIpv4Header (header : Bytes) (protocol : UInt8) (destination : Ipv4Address) : Prop where
  /-- version 4, and the length in 32-bit words -/
  length : ∃ ihl, 5 ≤ ihl ∧ ihl ≤ 15 ∧ header.length = 4 * ihl ∧
    header[0]? = some (UInt8.ofNat (64 + ihl))
  protocol : header[9]? = some protocol
  destination : UInt32.ofNat (beNat ((header.drop 16).take 4)) = destination

/-- What the application uses of the header classes of ns-3. A `Deserialize`
gives the header read and the number of bytes it takes. -/
structure Ns3 : Type 1 where
  /-- `Ipv4Header` -/
  Ipv4Header : Type
  /-- `Ipv4Header::Deserialize` -/
  ipv4Deserialize : Bytes → Exec (Ipv4Header × ℕ)
  /-- `Ipv4Header::GetDestination` -/
  getDestination : Ipv4Header → Ipv4Address
  /-- `UdpHeader` -/
  UdpHeader : Type
  /-- `UdpHeader::Deserialize` -/
  udpDeserialize : Bytes → Exec (UdpHeader × ℕ)
  /-- `UdpHeader::GetDestinationPort` -/
  getDestinationPort : UdpHeader → UInt16

/-- The documented behaviour of the header classes. -/
structure Ns3.Documented (ns3 : Ns3) : Prop where
  /-- an IPv4 header is read as long as it is, with its destination -/
  ipv4 : ∀ {header : Bytes} {protocol : UInt8} {destination : Ipv4Address} (rest : Bytes),
    IsIpv4Header header protocol destination →
    ∃ h, ns3.ipv4Deserialize (header ++ rest) = .ok (h, header.length) ∧
      ns3.getDestination h = destination
  /-- a UDP header is 8 bytes -/
  udp : ∀ {header : Bytes} (rest : Bytes), header.length = 8 →
    ∃ h, ns3.udpDeserialize (header ++ rest) = .ok (h, 8) ∧
      ns3.getDestinationPort h = portField header

/-- Header classes that keep the bytes they have read. -/
def wire : Ns3 where
  Ipv4Header := Bytes
  ipv4Deserialize packet := do
    let size := 4 * ((← load packet 0) % 16).toNat
    if size ≤ packet.length then .ok (packet.take size, size) else .error .outOfBounds
  getDestination header := UInt32.ofNat (beNat ((header.drop 16).take 4))
  UdpHeader := Bytes
  udpDeserialize packet :=
    if 8 ≤ packet.length then .ok (packet.take 8, 8) else .error .outOfBounds
  getDestinationPort := portField

theorem wire_documented : wire.Documented where
  ipv4 := by
    intro header protocol destination rest h
    obtain ⟨ihl, h5, h15, hlen, hfirst⟩ := h.length
    have hload : load (header ++ rest) 0 = .ok (UInt8.ofNat (64 + ihl)) :=
      load_eq_of_getElem? (by rw [List.getElem?_append_left (by omega), hfirst])
    have hsize : 4 * (UInt8.ofNat (64 + ihl) % 16).toNat = header.length := by
      rw [UInt8.toNat_mod, UInt8.toNat_ofNat']
      simp only [UInt8.reduceToNat]
      omega
    refine ⟨header, ?_, h.destination⟩
    simp only [wire, hload, ok_bind, hsize, List.length_append, Nat.le_add_right, if_true,
      List.take_left]
  udp := by
    intro header rest h
    refine ⟨header, ?_, rfl⟩
    simp only [wire, List.length_append, h, Nat.le_add_right, if_true, List.take_left' h]

/-- `Packet::RemoveHeader`: the header read, and the packet without it. -/
def removeHeader {H : Type} (deserialize : Bytes → Exec (H × ℕ)) (packet : Bytes) :
    Exec (H × Bytes) := do
  let (header, size) ← deserialize packet
  return (header, packet.drop size)

/-- What a handler does to the outside. -/
inductive Event : Type where
  /-- `SendTo`: a datagram, to an address and a port -/
  | sendTo (packet : Bytes) (address : Ipv4Address) (port : UInt16)
  /-- `m_clientTap->Receive`: a packet, with its protocol number -/
  | tapReceive (packet : Bytes) (protocol : ℕ)
  deriving DecidableEq

/-! ## The code -/

/-- An object of class `VPNApplication`: the attributes its handlers read. -/
structure VPNApplication : Type where
  /-- `m_serverAddress` -/
  serverAddress : Ipv4Address
  /-- `m_serverPort` -/
  serverPort : UInt16 := 1194
  /-- `m_clientVPNAddress` -/
  clientVPNAddress : Ipv4Address
  /-- `m_clientPort` -/
  clientPort : UInt16 := 50000
  /-- `m_cipherKey` -/
  cipherKey : Str := str "12345678901234567890123456789012"

namespace VPNApplication

/-- The string that `SendPacket` encrypts. -/
def plainText : Str := str "62531124552322311567ABD150BBFFCC"

/-- `SendPacket`: the result, and the events. -/
def sendPacket (app : VPNApplication) (packet : Bytes) : Exec (Bool × List Event) := do
  let (crypthdr, _) ← VpnHeader.encryptInput {} plainText app.cipherKey
  let header ← crypthdr.serialize
  return (true, [.sendTo (header ++ packet) app.serverAddress app.serverPort])

/-- The condition of `ReceivePacket`: the destination is the own VPN address, and
the header passes its check. `&&` decrypts only in the first case. -/
def isMine (app : VPNApplication) (crypthdr : VpnHeader) (destination : Ipv4Address) :
    Exec Bool := do
  if app.clientVPNAddress = destination then
    let decrypted ← crypthdr.decryptInput app.cipherKey
    return decide (crypthdr.sentOrigin = decrypted)
  else
    return false

/-- The log line with the decrypted text, which is evaluated for its output only. -/
def logDecrypted (app : VPNApplication) (logging : Bool) (crypthdr : VpnHeader) : Exec Unit :=
  if logging then do
    let _ ← crypthdr.decryptInput app.cipherKey
    return ()
  else
    return ()

/-- `ReceivePacket`, for the datagram `packet` that `Recv` returns; `logging` is
whether `NS_LOG_DEBUG` prints. -/
def receivePacketLogging (ns3 : Ns3) (app : VPNApplication) (logging : Bool) (packet : Bytes) :
    Exec (List Event) := do
  let (crypthdr, packet) ← removeHeader VpnHeader.deserialize packet
  app.logDecrypted logging crypthdr
  -- the addresses are read from a copy
  let (ipHeader, copy) ← removeHeader ns3.ipv4Deserialize packet
  let (udpHeader, _) ← removeHeader ns3.udpDeserialize copy
  let destinationIPAddress := ns3.getDestination ipHeader
  let destinationPort := ns3.getDestinationPort udpHeader
  if ← app.isMine crypthdr destinationIPAddress then
    return [.tapReceive packet 0x0800]
  else
    let (_, packet) ← removeHeader ns3.ipv4Deserialize packet
    let (_, packet) ← removeHeader ns3.udpDeserialize packet
    return [.sendTo packet destinationIPAddress destinationPort]

/-- `ReceivePacket` without debug logging. -/
def receivePacket (ns3 : Ns3) (app : VPNApplication) (packet : Bytes) : Exec (List Event) :=
  app.receivePacketLogging ns3 false packet

/-! ## Sending -/

/-- The header in front of every packet sent under a key. -/
def sealHeader (cipherKey : Str) : VpnHeader where
  sentOrigin := plainText
  encrypted := hexStr (List.ofFn (aes128.cipher cipherKey (VpnHeader.fieldBlock plainText)))

/-- The bytes of that header. -/
def sealBytes (cipherKey : Str) : Bytes :=
  (sealHeader cipherKey).sentOrigin ++ (sealHeader cipherKey).encrypted

theorem length_plainText : plainText.length = 32 := by decide

theorem isUpper_plainText : ∀ c ∈ plainText, IsUpperHexDigit c := by
  have hdigits : plainText = hexStr (unhex plainText) := by decide
  exact hdigits ▸ isUpperHexDigit_hexStr _

theorem unpadded_plainText : ∀ k, ¬Padding.PadSuffix (unhex plainText) k :=
  (Padding.unpad_eq_self_iff (by decide)).mp (by decide)

theorem toBlock_plainText : toBlock (unhex plainText) = VpnHeader.fieldBlock plainText :=
  (if_pos fun c hc => (isUpper_plainText c hc).isHexDigit).symm

theorem wellFormed_sealHeader (cipherKey : Str) : (sealHeader cipherKey).WellFormed :=
  ⟨length_plainText, by rw [sealHeader, length_hexStr, List.length_ofFn]⟩

theorem length_sealBytes (cipherKey : Str) : (sealBytes cipherKey).length = 64 := by
  rw [sealBytes, List.length_append, (wellFormed_sealHeader cipherKey).origin,
    (wellFormed_sealHeader cipherKey).encrypted]

variable {ns3 : Ns3} {app : VPNApplication}

/-- **`SendPacket`** puts the same 64 bytes in front of every packet. -/
theorem sendPacket_eq (hkey : ValidKey aes128 app.cipherKey) (packet : Bytes) :
    app.sendPacket packet = .ok (true,
      [.sendTo (sealBytes app.cipherKey ++ packet) app.serverAddress app.serverPort]) := by
  have hserialize := VpnHeader.serialize_eq (wellFormed_sealHeader app.cipherKey)
  rw [sendPacket, VpnHeader.encryptInput_eq hkey {} length_plainText, ok_bind]
  exact congrArg (· >>= _) hserialize

/-! ## Receiving -/

theorem logDecrypted_false (header : VpnHeader) : app.logDecrypted false header = .ok () := rfl

/-- With a good key, a header can be decrypted for the log. -/
theorem logDecrypted_eq (hkey : ValidKey aes128 app.cipherKey) {header : VpnHeader}
    (hwf : header.WellFormed) (logging : Bool) : app.logDecrypted logging header = .ok () := by
  cases logging with
  | false => rfl
  | true =>
    rw [logDecrypted, if_pos rfl, VpnHeader.decryptInput_eq hkey hwf.encrypted]
    rfl

/-- **Logging** makes no difference to an application with a good key. -/
theorem receivePacketLogging_eq (hkey : ValidKey aes128 app.cipherKey) (logging : Bool)
    (packet : Bytes) :
    app.receivePacketLogging ns3 logging packet = app.receivePacket ns3 packet := by
  rw [receivePacket, receivePacketLogging, receivePacketLogging, removeHeader]
  rcases Nat.lt_or_ge packet.length 64 with hlt | h64
  · simp only [VpnHeader.deserialize_short hlt, error_bind]
  · simp only [VpnHeader.deserialize_eq h64, ok_bind, pure_eq_ok, logDecrypted_false,
      logDecrypted_eq hkey (VpnHeader.wellFormed_ofBytes h64) logging]

/-- The port is in the first 8 bytes of a header. -/
theorem portField_take (header : Bytes) : portField (header.take 8) = portField header := by
  rw [portField, portField, List.drop_take, List.take_take]
  rfl

theorem removeHeader_eq {H : Type} {deserialize : Bytes → Exec (H × ℕ)} {packet : Bytes} {h : H}
    {size : ℕ} (hrun : deserialize packet = .ok (h, size)) :
    removeHeader deserialize packet = .ok (h, packet.drop size) := by
  rw [removeHeader, hrun]
  rfl

theorem removeHeader_ipv4 (hns : ns3.Documented) {ip : Bytes} {protocol : UInt8}
    {destination : Ipv4Address} (hip : IsIpv4Header ip protocol destination) (rest : Bytes) :
    ∃ h, removeHeader ns3.ipv4Deserialize (ip ++ rest) = .ok (h, rest) ∧
      ns3.getDestination h = destination := by
  obtain ⟨h, hrun, hdest⟩ := hns.ipv4 rest hip
  exact ⟨h, by rw [removeHeader_eq hrun, List.drop_left], hdest⟩

/-- Whatever the transport header is, 8 bytes are removed. -/
theorem removeHeader_udp (hns : ns3.Documented) {header : Bytes} (h8 : 8 ≤ header.length)
    (payload : Bytes) :
    ∃ h, removeHeader ns3.udpDeserialize (header ++ payload) =
        .ok (h, header.drop 8 ++ payload) ∧
      ns3.getDestinationPort h = portField header := by
  obtain ⟨h, hrun, hport⟩ := hns.udp (header.drop 8 ++ payload) (List.length_take_of_le h8)
  rw [← List.append_assoc, List.take_append_drop] at hrun
  refine ⟨h, ?_, hport.trans (portField_take header)⟩
  rw [removeHeader_eq hrun, List.drop_append_of_le_length h8]

theorem removeHeader_vpn {buffer : Bytes} (hlen : buffer.length = 64) (rest : Bytes) :
    removeHeader VpnHeader.deserialize (buffer ++ rest) = .ok (VpnHeader.ofBytes buffer, rest) := by
  have h64 : 64 ≤ (buffer ++ rest).length := by
    rw [List.length_append]
    omega
  rw [removeHeader_eq (VpnHeader.deserialize_eq h64), VpnHeader.ofBytes_append (by omega),
    List.drop_left' hlen]

/-- **`ReceivePacket`**, for an inner packet of an IPv4 header, a transport
header of at least 8 bytes and a payload: it is delivered or sent on, by
`isMine`. -/
theorem receivePacket_eq (hns : ns3.Documented) {buffer ip header : Bytes} {protocol : UInt8}
    {destination : Ipv4Address} (hlen : buffer.length = 64)
    (hip : IsIpv4Header ip protocol destination) (h8 : 8 ≤ header.length) (payload : Bytes)
    {mine : Bool} (hmine : app.isMine (VpnHeader.ofBytes buffer) destination = .ok mine) :
    app.receivePacket ns3 (buffer ++ (ip ++ (header ++ payload))) =
      .ok [if mine then .tapReceive (ip ++ (header ++ payload)) 0x0800
        else .sendTo (header.drop 8 ++ payload) destination (portField header)] := by
  obtain ⟨ipHeader, hrunip, hdest⟩ := removeHeader_ipv4 hns hip (header ++ payload)
  obtain ⟨udpHeader, hrunudp, hport⟩ := removeHeader_udp hns h8 payload
  simp only [receivePacket, receivePacketLogging, removeHeader_vpn hlen, logDecrypted_false, hrunip,
    hrunudp, ok_bind, hdest, hport, hmine]
  cases mine <;> rfl

/-- A packet for another address is not `mine`, whatever its header. -/
theorem isMine_other {header : VpnHeader} {destination : Ipv4Address}
    (h : app.clientVPNAddress ≠ destination) : app.isMine header destination = .ok false := by
  rw [isMine, if_neg h, pure_eq_ok]

theorem isMine_accepts {header : VpnHeader} {destination : Ipv4Address}
    (h : app.clientVPNAddress = destination) (hacc : header.Accepts app.cipherKey) :
    app.isMine header destination = .ok true := by
  rw [isMine, if_pos h, hacc, ok_bind, decide_eq_true rfl, pure_eq_ok]

/-- A packet whose header fails its check is not `mine`, whatever its address. -/
theorem isMine_rejects (hkey : ValidKey aes128 app.cipherKey) {header : VpnHeader}
    (hwf : header.WellFormed) (hacc : ¬header.Accepts app.cipherKey) (destination : Ipv4Address) :
    app.isMine header destination = .ok false := by
  by_cases h : app.clientVPNAddress = destination
  · have hrun := VpnHeader.decryptInput_eq hkey hwf.encrypted
    rw [VpnHeader.Accepts, hrun, Except.ok.injEq] at hacc
    rw [isMine, if_pos h, hrun, ok_bind, decide_eq_false (Ne.symm hacc), pure_eq_ok]
  · exact isMine_other h

/-! ## One packet through the tunnel -/

/-- Keys that are equal up to letter case give the same cipher. -/
theorem cipher_congr {key key' : Str} (hkey : IsHex key) (hkey' : IsHex key')
    (h : upper key = upper key') : aes128.cipher key = aes128.cipher key' := by
  rw [cipher, cipher, ← unhex_upper hkey, h, unhex_upper hkey']

/-- **Which keys a sealed header passes under**: those that encipher the text of
`SendPacket` to the same block. -/
theorem accepts_sealHeader_iff {key key' : Str} (hkey' : ValidKey aes128 key') :
    (sealHeader key).Accepts key' ↔ aes128.cipher key (VpnHeader.fieldBlock plainText) =
      aes128.cipher key' (VpnHeader.fieldBlock plainText) := by
  have hfield : VpnHeader.fieldBlock (sealHeader key).encrypted =
      aes128.cipher key (VpnHeader.fieldBlock plainText) := VpnHeader.fieldBlock_hexStr _
  have horigin : (sealHeader key).sentOrigin = plainText := rfl
  rw [VpnHeader.accepts_iff_cipher hkey' (wellFormed_sealHeader key), hfield, horigin,
    toBlock_plainText]
  exact ⟨fun ⟨_, _, hagree⟩ => hagree.symm,
    fun hagree => ⟨isUpper_plainText, unpadded_plainText, hagree.symm⟩⟩

/-- A header sealed under one key passes the check under the other. -/
theorem accepts_sealHeader {key key' : Str} (hkey : ValidKey aes128 key)
    (hkey' : ValidKey aes128 key') (h : upper key = upper key') :
    (sealHeader key).Accepts key' := by
  rw [accepts_sealHeader_iff hkey', cipher_congr hkey.hex hkey'.hex h]

theorem ofBytes_sealBytes (key : Str) : VpnHeader.ofBytes (sealBytes key) = sealHeader key :=
  VpnHeader.ofBytes_fields (wellFormed_sealHeader key)

/-- A sealed packet for the receiver is delivered. -/
theorem receivePacket_seal (hns : ns3.Documented) {key : Str} (hs : ValidKey aes128 key)
    (hr : ValidKey aes128 app.cipherKey) (hsame : upper key = upper app.cipherKey)
    {ip header : Bytes} {protocol : UInt8} {destination : Ipv4Address}
    (hip : IsIpv4Header ip protocol destination) (h8 : 8 ≤ header.length) (payload : Bytes)
    (hmine : app.clientVPNAddress = destination) :
    app.receivePacket ns3 (sealBytes key ++ (ip ++ (header ++ payload))) =
      .ok [.tapReceive (ip ++ (header ++ payload)) 0x0800] := by
  have hacc : (VpnHeader.ofBytes (sealBytes key)).Accepts app.cipherKey := by
    rw [ofBytes_sealBytes]
    exact accepts_sealHeader hs hr hsame
  rw [receivePacket_eq hns (length_sealBytes key) hip h8 payload (isMine_accepts hmine hacc)]
  rfl

/-- A packet for another address loses its IPv4 header and 8 bytes, and is sent on. -/
theorem receivePacket_other (hns : ns3.Documented) {buffer ip header : Bytes} {protocol : UInt8}
    {destination : Ipv4Address} (hlen : buffer.length = 64)
    (hip : IsIpv4Header ip protocol destination) (h8 : 8 ≤ header.length) (payload : Bytes)
    (hother : app.clientVPNAddress ≠ destination) :
    app.receivePacket ns3 (buffer ++ (ip ++ (header ++ payload))) =
      .ok [.sendTo (header.drop 8 ++ payload) destination (portField header)] := by
  rw [receivePacket_eq hns hlen hip h8 payload (isMine_other hother)]
  rfl

/-- Of a UDP header nothing is left. -/
theorem drop_udp {udp : Bytes} (hudp : udp.length = 8) (payload : Bytes) :
    udp.drop 8 ++ payload = payload := by
  rw [List.drop_of_length_le (Nat.le_of_eq hudp), List.nil_append]

/-- **Tunnel correctness.** What one application sends for an IPv4/UDP packet
passes the other's check; the other delivers the packet if it is the
destination, and sends the payload on if it is not. -/
theorem tunnel_correct (hns : ns3.Documented) (sender receiver : VPNApplication)
    (hs : ValidKey aes128 sender.cipherKey) (hr : ValidKey aes128 receiver.cipherKey)
    (hsame : upper sender.cipherKey = upper receiver.cipherKey) {ip udp : Bytes}
    {destination : Ipv4Address} (hip : IsIpv4Header ip 17 destination) (hudp : udp.length = 8)
    (payload : Bytes) :
    ∃ datagram, sender.sendPacket (ip ++ (udp ++ payload)) =
        .ok (true, [.sendTo datagram sender.serverAddress sender.serverPort]) ∧
      (∃ header, VpnHeader.deserialize datagram = .ok (header, 64) ∧
        header.decryptInput receiver.cipherKey = .ok header.sentOrigin) ∧
      (destination = receiver.clientVPNAddress → receiver.receivePacket ns3 datagram =
        .ok [.tapReceive (ip ++ (udp ++ payload)) 0x0800]) ∧
      (destination ≠ receiver.clientVPNAddress → receiver.receivePacket ns3 datagram =
        .ok [.sendTo payload destination (portField udp)]) := by
  have hlen := length_sealBytes sender.cipherKey
  have h64 : 64 ≤ (sealBytes sender.cipherKey ++ (ip ++ (udp ++ payload))).length := by
    rw [List.length_append]
    omega
  have h8 : 8 ≤ udp.length := Nat.le_of_eq hudp.symm
  have hacc := accepts_sealHeader hs hr hsame
  refine ⟨_, sendPacket_eq hs _, ⟨sealHeader sender.cipherKey, ?_, hacc⟩, fun hd => ?_,
    fun hd => ?_⟩
  · rw [VpnHeader.deserialize_eq h64, VpnHeader.ofBytes_append (by omega), ofBytes_sealBytes]
  · exact receivePacket_seal hns hs hr hsame hip h8 payload hd.symm
  · rw [receivePacket_other hns hlen hip h8 payload hd.symm, drop_udp hudp]

/-- An IPv4 header of 20 bytes, for protocol `protocol` and destination 10.1.1.1. -/
def plainIpv4Header (protocol : UInt8) : Bytes :=
  [0x45, 0, 0, 28, 0, 0, 0, 0, 64, protocol, 0, 0, 10, 1, 1, 2, 10, 1, 1, 1]

theorem isIpv4Header_plain (protocol : UInt8) :
    IsIpv4Header (plainIpv4Header protocol) protocol 0x0a010101 :=
  ⟨⟨5, by decide, by decide, rfl, rfl⟩, rfl, rfl⟩

/-- A UDP header of an empty datagram to port 9. -/
def plainUdpHeader : Bytes := [0xc3, 0x50, 0, 9, 0, 8, 0, 0]

/-- A packet for the other application is delivered, one for a third is sent on. -/
theorem tunnel_correct_plain :
    let sender : VPNApplication :=
      { serverAddress := 0xc0a80001, clientVPNAddress := 0x0a010102, cipherKey := zeroKey }
    let receiver : VPNApplication :=
      { serverAddress := 0xc0a80002, clientVPNAddress := 0x0a010101, cipherKey := zeroKey }
    let third : VPNApplication :=
      { serverAddress := 0xc0a80002, clientVPNAddress := 0x0a010103, cipherKey := zeroKey }
    let packet := plainIpv4Header 17 ++ (plainUdpHeader ++ [0x61, 0x62])
    ∃ datagram, sender.sendPacket packet = .ok (true, [.sendTo datagram 0xc0a80001 1194]) ∧
      receiver.receivePacket wire datagram = .ok [.tapReceive packet 0x0800] ∧
      third.receivePacket wire datagram = .ok [.sendTo [0x61, 0x62] 0x0a010101 9] := by
  intro sender receiver third packet
  have hip := isIpv4Header_plain 17
  have hudp : plainUdpHeader.length = 8 := by decide
  obtain ⟨datagram, hsend, -, hmine, -⟩ := tunnel_correct wire_documented sender receiver
    validKey_zeroKey validKey_zeroKey rfl hip hudp [0x61, 0x62]
  obtain ⟨datagram', hsend', -, -, hother⟩ := tunnel_correct wire_documented sender third
    validKey_zeroKey validKey_zeroKey rfl hip hudp [0x61, 0x62]
  -- both times the same datagram is sent
  obtain ⟨-, hevents⟩ := Prod.mk.inj (Except.ok.inj (hsend.symm.trans hsend'))
  obtain ⟨rfl, -⟩ := Event.sendTo.inj (List.cons.inj hevents).1
  exact ⟨datagram, hsend, hmine rfl, hother (by decide)⟩

/-- A received datagram stops at the application: nothing is delivered and
nothing is sent. -/
def Stops (r : Exec (List Event)) : Prop := ∀ events, r = .ok events → events = []

/-- What `ReceivePacket` does with a packet whose header fails its check: it
sends the payload on, to whatever destination. -/
theorem receivePacket_rejects (hns : ns3.Documented) (hkey : ValidKey aes128 app.cipherKey)
    {buffer ip udp : Bytes} {protocol : UInt8} {destination : Ipv4Address}
    (hlen : buffer.length = 64) (hip : IsIpv4Header ip protocol destination)
    (hudp : udp.length = 8) (payload : Bytes)
    (hfail : ¬(VpnHeader.ofBytes buffer).Accepts app.cipherKey) :
    app.receivePacket ns3 (buffer ++ (ip ++ (udp ++ payload))) =
      .ok [.sendTo payload destination (portField udp)] := by
  have hwf := VpnHeader.wellFormed_ofBytes (Nat.le_of_eq hlen.symm)
  rw [receivePacket_eq hns hlen hip (Nat.le_of_eq hudp.symm) payload
    (isMine_rejects hkey hwf hfail destination), drop_udp hudp]
  rfl

theorem not_stops_ok {event : Event} {events : List Event} : ¬Stops (.ok (event :: events)) :=
  fun h => List.cons_ne_nil _ _ (h _ rfl)

/-- **A failed check never stops a packet.** -/
theorem failed_check_not_stops (hns : ns3.Documented) (hkey : ValidKey aes128 app.cipherKey)
    {buffer ip udp : Bytes} {header : VpnHeader} {size : ℕ} {destination : Ipv4Address}
    (hlen : buffer.length = 64) (hread : VpnHeader.deserialize buffer = .ok (header, size))
    (hip : IsIpv4Header ip 17 destination) (hudp : udp.length = 8) (payload : Bytes)
    (hfail : header.decryptInput app.cipherKey ≠ .ok header.sentOrigin) :
    ¬Stops (app.receivePacket ns3 (buffer ++ (ip ++ (udp ++ payload)))) := by
  rw [VpnHeader.deserialize_eq (Nat.le_of_eq hlen.symm)] at hread
  obtain ⟨rfl, -⟩ := Prod.mk.inj (Except.ok.inj hread)
  rw [receivePacket_rejects hns hkey hlen hip hudp payload hfail]
  exact not_stops_ok

/-- The header whose origin is 32 zeros and whose encrypted field is 32 letters `G`. -/
def badHeader : VpnHeader := ⟨zeroKey, List.replicate 32 'G'.toUInt8⟩

theorem not_accepts_badHeader : ¬badHeader.Accepts zeroKey := by
  have hbad : ¬IsHex badHeader.encrypted := by decide
  have hne : toBlock (unhex badHeader.sentOrigin) ≠ VpnHeader.paddingPreimage := by decide
  intro hacc
  have hpadding := (VpnHeader.accepts_iff_of_not_isHex validKey_zeroKey
    ⟨by decide, by decide⟩ hbad).mp hacc
  -- another block is the one that is enciphered to padding
  exact hne ((aes128.cipher zeroKey).injective
    (hpadding.cipher.trans VpnHeader.cipher_paddingPreimage.symm))

/-- The bytes of that header. -/
def badBuffer : Bytes := badHeader.sentOrigin ++ badHeader.encrypted

theorem deserialize_badBuffer : VpnHeader.deserialize badBuffer = .ok (badHeader, 64) :=
  VpnHeader.deserialize_eq (by decide)

theorem failed_check_not_stops_plain :
    let app : VPNApplication :=
      { serverAddress := 0x0a010102, clientVPNAddress := 0x0a010101, cipherKey := zeroKey }
    ¬Stops (app.receivePacket wire
      (badBuffer ++ (plainIpv4Header 17 ++ (plainUdpHeader ++ [0x61, 0x62])))) :=
  failed_check_not_stops wire_documented validKey_zeroKey (by decide) deserialize_badBuffer
    (isIpv4Header_plain 17) (by decide) [0x61, 0x62] not_accepts_badHeader

/-- A packet for this client whose header fails its check is sent to the client
itself. -/
theorem failed_check_sends :
    let app : VPNApplication :=
      { serverAddress := 0x0a010102, clientVPNAddress := 0x0a010101, cipherKey := zeroKey }
    let datagram := badBuffer ++ (plainIpv4Header 17 ++ (plainUdpHeader ++ [0x61]))
    VpnHeader.deserialize badBuffer = .ok (badHeader, 64) ∧
      badHeader.decryptInput app.cipherKey ≠ .ok badHeader.sentOrigin ∧
      app.receivePacket wire datagram = .ok [.sendTo [0x61] 0x0a010101 9] ∧
      ¬Stops (app.receivePacket wire datagram) := by
  intro app datagram
  have hkey : ValidKey aes128 app.cipherKey := validKey_zeroKey
  have hsend : app.receivePacket wire datagram = .ok [.sendTo [0x61] 0x0a010101 9] :=
    receivePacket_rejects wire_documented hkey (by decide) (isIpv4Header_plain 17) (by decide)
      [0x61] not_accepts_badHeader
  refine ⟨deserialize_badBuffer, not_accepts_badHeader, hsend, ?_⟩
  rw [hsend]
  exact not_stops_ok

/-! ## Forwarding -/

/-- A transport header of the protocols that the design names: UDP, of 8 bytes,
or TCP, as long as its data offset says. -/
inductive IsTransportHeader : UInt8 → Bytes → Prop
  | udp {header : Bytes} (hlen : header.length = 8) : IsTransportHeader 17 header
  | tcp {header : Bytes} {offset : UInt8} (hoffset : header[12]? = some offset)
      (hlen : header.length = 4 * (offset / 16).toNat) (h20 : 20 ≤ header.length) :
      IsTransportHeader 6 header

theorem IsTransportHeader.eight_le {protocol : UInt8} {header : Bytes}
    (h : IsTransportHeader protocol header) : 8 ≤ header.length := by
  cases h with
  | udp hlen => exact Nat.le_of_eq hlen.symm
  | tcp _ _ h20 => exact Nat.le_trans (by decide) h20

/-- **Where forwarding strips exactly the inner headers**: for UDP. -/
theorem forward_exact_iff (hns : ns3.Documented) {buffer ip header : Bytes} {protocol : UInt8}
    {destination : Ipv4Address} (hlen : buffer.length = 64)
    (hip : IsIpv4Header ip protocol destination) (htr : IsTransportHeader protocol header)
    (hother : app.clientVPNAddress ≠ destination) (payload : Bytes) :
    app.receivePacket ns3 (buffer ++ (ip ++ (header ++ payload))) =
      .ok [.sendTo payload destination (portField header)] ↔ protocol = 17 := by
  rw [receivePacket_other hns hlen hip htr.eight_le payload hother]
  cases htr with
  | udp hudp =>
    rw [drop_udp hudp]
    exact iff_of_true rfl rfl
  | tcp _ _ h20 =>
    refine iff_of_false (fun h => ?_) (by decide)
    have hpayload : header.drop 8 ++ payload = payload := by simpa using h
    have hsize := congrArg List.length hpayload
    rw [List.length_append, List.length_drop] at hsize
    omega

/-- A TCP header without options, to port 80. -/
def plainTcpHeader : Bytes :=
  [0xc3, 0x50, 0, 80, 0, 0, 0, 1, 0, 0, 0, 0, 0x50, 0x02, 0xff, 0xff, 0, 0, 0, 0]

theorem isTransportHeader_plainTcp : IsTransportHeader 6 plainTcpHeader :=
  .tcp (rfl : plainTcpHeader[12]? = some 0x50) rfl (by decide)

theorem forward_exact_iff_plain :
    let app : VPNApplication := { serverAddress := 0x0a010102, clientVPNAddress := 0x0a010103 }
    app.receivePacket wire (badBuffer ++ (plainIpv4Header 17 ++ (plainUdpHeader ++ [0x61]))) =
      .ok [.sendTo [0x61] 0x0a010101 9] :=
  (forward_exact_iff wire_documented (by decide) (isIpv4Header_plain 17) (.udp (by decide))
    (by decide) [0x61]).mpr rfl

/-- Of a TCP segment, the last 12 bytes of its header are sent on as payload. -/
theorem forward_tcp_keeps_header :
    let app : VPNApplication := { serverAddress := 0x0a010102, clientVPNAddress := 0x0a010103 }
    let datagram := badBuffer ++ (plainIpv4Header 6 ++ (plainTcpHeader ++ [0x61]))
    app.receivePacket wire datagram =
        .ok [.sendTo [0, 0, 0, 0, 0x50, 0x02, 0xff, 0xff, 0, 0, 0, 0, 0x61] 0x0a010101 80] ∧
      app.receivePacket wire datagram ≠
        .ok [.sendTo [0x61] 0x0a010101 (portField plainTcpHeader)] := by
  intro app datagram
  have hother : app.clientVPNAddress ≠ 0x0a010101 := by decide
  have hrun : app.receivePacket wire datagram =
      .ok [.sendTo (plainTcpHeader.drop 8 ++ [0x61]) 0x0a010101 (portField plainTcpHeader)] :=
    receivePacket_other wire_documented (by decide) (isIpv4Header_plain 6)
      isTransportHeader_plainTcp.eight_le [0x61] hother
  refine ⟨hrun, ?_⟩
  rw [hrun]
  decide

end VPNApplication

end SimpleVpn
