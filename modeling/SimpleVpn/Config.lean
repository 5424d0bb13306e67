import SimpleVpn.Relay
import SimpleVpn.Transport

/-!
# Configured applications

Two applications with arbitrary attributes, and the helper class that sets the
attributes.

A cipher key can be any string, and nothing checks it before a handler runs. So
what a handler does includes the faults of `encryption` and `decryption`
(`keyFault`). The sender always runs into them. The receiver runs into them for a
packet to its own VPN address, since the condition of `ReceivePacket` decrypts
behind `&&`, and with debug logging for every packet, since a log line decrypts
before the address is read.
-/

namespace SimpleVpn

open Exec Padding AES VPNApplication

/-! ## Any cipher key -/

/-- How a call with a cipher key faults: at the assertion on its length, or in
key expansion, which finds nothing of a key with a bad digit. -/
def keyFault (cipherKey : Str) : Option Fault :=
  if cipherKey.length = 32 then
    if IsHex cipherKey then none else some .outOfBounds
  else
    some .assertion

theorem keyFault_none_iff {cipherKey : Str} :
    keyFault cipherKey = none ↔ ValidKey aes128 cipherKey := by
  rw [keyFault]
  by_cases hsize : cipherKey.length = 32
  · by_cases hhex : IsHex cipherKey
    · rw [if_pos hsize, if_pos hhex]
      exact iff_of_true rfl ⟨hsize, hhex⟩
    · rw [if_pos hsize, if_neg hhex]
      exact iff_of_false nofun fun h => hhex h.hex
  · rw [if_neg hsize]
    exact iff_of_false nofun fun h => hsize h.size

/-- A key that faults does so whatever the input is. -/
theorem calls_keyFault {cipherKey : Str} {e : Fault} (h : keyFault cipherKey = some e)
    (input : Str) : aes128.encryption input cipherKey = .error e ∧
      aes128.decryption input cipherKey = .error e := by
  rw [keyFault] at h
  by_cases hsize : cipherKey.length = 32
  · rw [if_pos hsize] at h
    by_cases hhex : IsHex cipherKey
    · rw [if_pos hhex] at h
      cases h
    · rw [if_neg hhex] at h
      obtain rfl := Option.some.inj h
      exact ⟨encryption_bad_key hsize hhex input, decryption_bad_key hsize hhex input⟩
  · rw [if_neg hsize] at h
    obtain rfl := Option.some.inj h
    have hassert : assert (cipherKey.length = aes128.nkey * 4 * 2) = .error .assertion :=
      if_neg hsize
    exact ⟨by rw [encryption, hassert, error_bind], by rw [decryption, hassert, error_bind]⟩

/-- The keys encipher the text of `SendPacket` to the same block. -/
def KeysAgree (cipherKey cipherKey' : Str) : Prop :=
  aes128.cipher cipherKey (VpnHeader.fieldBlock plainText) =
    aes128.cipher cipherKey' (VpnHeader.fieldBlock plainText)

instance (cipherKey cipherKey' : Str) : Decidable (KeysAgree cipherKey cipherKey') :=
  inferInstanceAs (Decidable (_ = _))

/-- `SendPacket` with any key. -/
theorem sendPacket_any (app : VPNApplication) (packet : Bytes) :
    app.sendPacket packet = match keyFault app.cipherKey with
      | some e => .error e
      | none => .ok (true,
          [.sendTo (sealBytes app.cipherKey ++ packet) app.serverAddress app.serverPort]) := by
  cases hfault : keyFault app.cipherKey with
  | none => exact sendPacket_eq (keyFault_none_iff.mp hfault) packet
  | some e =>
    rw [sendPacket, VpnHeader.encryptInput, (calls_keyFault hfault plainText).1, error_bind,
      error_bind]

/-- What `ReceivePacket` does, without debug logging, with a packet that was
sealed under some key. -/
def opened (app : VPNApplication) (cipherKey : Str) (p : Packet) : Exec (List Event) :=
  if app.clientVPNAddress = p.destination then
    match keyFault app.cipherKey with
    | some e => .error e
    | none =>
      if KeysAgree cipherKey app.cipherKey then .ok [.tapReceive p.bytes 0x0800]
      else .ok [.sendTo p.forward.payload p.forward.address p.forward.port]
  else
    .ok [.sendTo p.forward.payload p.forward.address p.forward.port]

/-- A packet is not handled if the check on it faults. -/
theorem receivePacket_fault {ns3 : Ns3} (hns : ns3.Documented) {app : VPNApplication}
    {buffer : Bytes} (hlen : buffer.length = 64) (p : Packet) {e : Fault}
    (hfault : app.isMine (VpnHeader.ofBytes buffer) p.destination = .error e) :
    app.receivePacket ns3 (buffer ++ p.bytes) = .error e := by
  obtain ⟨ipHeader, hip, hdest⟩ := removeHeader_ipv4 hns p.isIpv4 (p.head ++ p.body)
  obtain ⟨udpHeader, hudp, hport⟩ :=
    removeHeader_udp hns (Nat.le_of_eq p.length_head.symm) p.body
  simp only [receivePacket, receivePacketLogging, Packet.bytes, removeHeader_vpn hlen,
    logDecrypted_false, hip, hudp, ok_bind, hdest, hfault, error_bind]

/-- `ReceivePacket` with any key, for a packet sealed under any key. -/
theorem receivePacket_any {ns3 : Ns3} (hns : ns3.Documented) (app : VPNApplication)
    (cipherKey : Str) (p : Packet) :
    app.receivePacket ns3 (sealBytes cipherKey ++ p.bytes) = opened app cipherKey p := by
  have hlen := length_sealBytes cipherKey
  have h8 : 8 ≤ p.head.length := Nat.le_of_eq p.length_head.symm
  have hwf : (VpnHeader.ofBytes (sealBytes cipherKey)).WellFormed :=
    VpnHeader.wellFormed_ofBytes (Nat.le_of_eq hlen.symm)
  rw [opened]
  by_cases hmine : app.clientVPNAddress = p.destination
  · rw [if_pos hmine]
    cases hfault : keyFault app.cipherKey with
    | some e =>
      refine receivePacket_fault hns hlen p ?_
      rw [isMine, if_pos hmine, VpnHeader.decryptInput, (calls_keyFault hfault _).2, error_bind,
        error_bind]
    | none =>
      have hkey := keyFault_none_iff.mp hfault
      have haccepts : (VpnHeader.ofBytes (sealBytes cipherKey)).Accepts app.cipherKey ↔
          KeysAgree cipherKey app.cipherKey := by
        rw [ofBytes_sealBytes, accepts_sealHeader_iff hkey]
        rfl
      by_cases hagree : KeysAgree cipherKey app.cipherKey
      · simp only [if_pos hagree]
        rw [Packet.bytes, receivePacket_eq hns hlen p.isIpv4 h8 p.body
          (isMine_accepts hmine (haccepts.mpr hagree))]
        rfl
      · simp only [if_neg hagree]
        rw [Packet.bytes, receivePacket_rejects hns hkey hlen p.isIpv4 p.length_head p.body
          (mt haccepts.mp hagree)]
        rfl
  · rw [if_neg hmine, Packet.bytes, receivePacket_other hns hlen p.isIpv4 h8 p.body hmine,
      drop_udp p.length_head]
    rfl

/-- The same with debug logging on or off. -/
def openedLogging (app : VPNApplication) (logging : Bool) (cipherKey : Str) (p : Packet) :
    Exec (List Event) :=
  match keyFault app.cipherKey with
  | some e => if logging then .error e else opened app cipherKey p
  | none => opened app cipherKey p

/-- With debug logging, a bad key faults at every header. -/
theorem receivePacketLogging_fault {ns3 : Ns3} {app : VPNApplication} {e : Fault}
    (hfault : keyFault app.cipherKey = some e) {payload : Bytes} (h64 : 64 ≤ payload.length) :
    app.receivePacketLogging ns3 true payload = .error e := by
  have hlog : app.logDecrypted true (VpnHeader.ofBytes payload) = .error e := by
    rw [logDecrypted, if_pos rfl, VpnHeader.decryptInput, (calls_keyFault hfault _).2, error_bind,
      error_bind]
  rw [receivePacketLogging, removeHeader_eq (VpnHeader.deserialize_eq h64), ok_bind]
  simp only [hlog, error_bind]

theorem receivePacketLogging_any {ns3 : Ns3} (hns : ns3.Documented) (app : VPNApplication)
    (logging : Bool) (cipherKey : Str) (p : Packet) :
    app.receivePacketLogging ns3 logging (sealBytes cipherKey ++ p.bytes) =
      openedLogging app logging cipherKey p := by
  have hoff := receivePacket_any hns app cipherKey p
  rw [openedLogging]
  cases hfault : keyFault app.cipherKey with
  | none => rw [receivePacketLogging_eq (keyFault_none_iff.mp hfault), hoff]
  | some e =>
    cases logging with
    | false => exact hoff
    | true =>
      refine receivePacketLogging_fault hfault ?_
      rw [List.length_append, length_sealBytes]
      omega

/-- **Any two applications.** What becomes of a packet that one application sends
and another one receives, whatever their attributes are: the sender faults with a
bad key; so does the receiver with debug logging; without, it sends the packet on
unless its VPN address is the destination, and only then its key matters. -/
theorem exchange_any {ns3 : Ns3} (hns : ns3.Documented) (sender receiver : VPNApplication)
    (p : Packet) :
    (∀ e, keyFault sender.cipherKey = some e → sender.sendPacket p.bytes = .error e) ∧
    (keyFault sender.cipherKey = none → ∃ datagram,
      sender.sendPacket p.bytes =
        .ok (true, [.sendTo datagram sender.serverAddress sender.serverPort]) ∧
      ∀ logging, receiver.receivePacketLogging ns3 logging datagram =
        openedLogging receiver logging sender.cipherKey p) := by
  have hsend := sendPacket_any sender p.bytes
  refine ⟨fun e hfault => ?_, fun hfault => ?_⟩
  · rw [hsend, hfault]
  · rw [hfault] at hsend
    exact ⟨_, hsend, fun logging =>
      receivePacketLogging_any hns receiver logging sender.cipherKey p⟩

/-- A receiver with a bad key can send a packet on, but not log it. -/
theorem exchange_any_bad_key :
    let sender : VPNApplication :=
      { serverAddress := 0x0a010102, clientVPNAddress := 0x0a010102 }
    let receiver : VPNApplication :=
      { serverAddress := 0x0a010102, clientVPNAddress := 0x0a010103, cipherKey := str "secret" }
    ∃ datagram, sender.sendPacket (plainPacket [0x61]) =
        .ok (true, [.sendTo datagram 0x0a010102 1194]) ∧
      receiver.receivePacketLogging wire false datagram = .ok [.sendTo [0x61] 0x0a010101 9] ∧
      receiver.receivePacketLogging wire true datagram = .error .assertion := by
  intro sender receiver
  obtain ⟨datagram, hsend, hreceive⟩ :=
    (exchange_any wire_documented sender receiver (plainUdp [0x61])).2 (by decide)
  have hother : opened receiver sender.cipherKey (plainUdp [0x61]) =
      .ok [.sendTo [0x61] 0x0a010101 9] := if_neg (by decide)
  exact ⟨datagram, hsend, (hreceive false).trans hother, hreceive true⟩

/-! ## The helper -/

/-- The attributes that `VPNApplication::GetTypeId` registers and the handlers
read, with a value. -/
inductive Attribute : Type where
  | serverAddress (value : Ipv4Address)
  | clientAddress (value : Ipv4Address)
  | serverPort (value : UInt16)
  | clientPort (value : UInt16)
  | cipherKey (value : Str)

/-- An object of class `VPNHelper`: what its factory holds for each attribute. -/
structure VPNHelper : Type where
  serverAddress : Option Ipv4Address := none
  clientAddress : Option Ipv4Address := none
  serverPort : Option UInt16 := none
  clientPort : Option UInt16 := none
  cipherKey : Option Str := none

namespace VPNHelper

/-- `SetAttribute`: a value replaces an earlier one. -/
def setAttribute (helper : VPNHelper) : Attribute → VPNHelper
  | .serverAddress value => { helper with serverAddress := some value }
  | .clientAddress value => { helper with clientAddress := some value }
  | .serverPort value => { helper with serverPort := some value }
  | .clientPort value => { helper with clientPort := some value }
  | .cipherKey value => { helper with cipherKey := some value }

/-- `VPNHelper(clientIp, clientPort)`. -/
def ofClient (clientIp : Ipv4Address) (clientPort : UInt16) : VPNHelper :=
  let helper := setAttribute {} (.clientAddress clientIp)
  helper.setAttribute (.clientPort clientPort)

/-- `VPNHelper(clientIp, clientPort, cipherKey)`. -/
def ofClientKey (clientIp : Ipv4Address) (clientPort : UInt16) (cipherKey : Str) : VPNHelper :=
  let helper := setAttribute {} (.clientAddress clientIp)
  let helper := helper.setAttribute (.clientPort clientPort)
  helper.setAttribute (.cipherKey cipherKey)

/-- `VPNHelper(serverIp, serverPort, clientPort)`. -/
def ofServerPorts (serverIp : Ipv4Address) (serverPort clientPort : UInt16) : VPNHelper :=
  let helper := setAttribute {} (.serverAddress serverIp)
  let helper := if serverPort ≠ 0 then helper.setAttribute (.serverPort serverPort) else helper
  helper.setAttribute (.clientPort clientPort)

/-- `VPNHelper(serverIp, clientIp, serverPort, clientPort)`. -/
def ofBoth (serverIp clientIp : Ipv4Address) (serverPort clientPort : UInt16) : VPNHelper :=
  let helper := setAttribute {} (.serverAddress serverIp)
  let helper := helper.setAttribute (.clientAddress clientIp)
  let helper := if serverPort ≠ 0 then helper.setAttribute (.serverPort serverPort) else helper
  helper.setAttribute (.clientPort clientPort)

/-- `VPNHelper(serverIp, clientIp, serverPort, clientPort, cipherKey)`. -/
def ofBothKey (serverIp clientIp : Ipv4Address) (serverPort clientPort : UInt16)
    (cipherKey : Str) : VPNHelper :=
  let helper := setAttribute {} (.serverAddress serverIp)
  let helper := helper.setAttribute (.clientAddress clientIp)
  let helper := if serverPort ≠ 0 then helper.setAttribute (.serverPort serverPort) else helper
  let helper := helper.setAttribute (.clientPort clientPort)
  helper.setAttribute (.cipherKey cipherKey)

/-- `VPNHelper(serverIp)`. -/
def ofServer (serverIp : Ipv4Address) : VPNHelper := setAttribute {} (.serverAddress serverIp)

/-- `Install`: the application it creates, with the default of `GetTypeId` for
every attribute that was not set. The default of an address is `unset`. -/
def install (unset : Ipv4Address) (helper : VPNHelper) : VPNApplication where
  serverAddress := helper.serverAddress.getD unset
  serverPort := helper.serverPort.getD 1194
  clientVPNAddress := helper.clientAddress.getD unset
  clientPort := helper.clientPort.getD 50000
  cipherKey := helper.cipherKey.getD (str "12345678901234567890123456789012")

/-- A constructor without a key leaves the default one. -/
theorem install_ofClient (unset clientIp : Ipv4Address) (clientPort : UInt16) :
    (ofClient clientIp clientPort).install unset =
      (ofClientKey clientIp clientPort (str "12345678901234567890123456789012")).install unset :=
  rfl

theorem install_ofBoth (unset serverIp clientIp : Ipv4Address) (serverPort clientPort : UInt16) :
    (ofBoth serverIp clientIp serverPort clientPort).install unset =
      (ofBothKey serverIp clientIp serverPort clientPort
        (str "12345678901234567890123456789012")).install unset := by
  by_cases h : serverPort ≠ 0
  · simp only [ofBoth, ofBothKey, if_pos h]
    rfl
  · simp only [ofBoth, ofBothKey, if_neg h]
    rfl

/-- A server port of 0 leaves the default one. -/
theorem install_ofBothKey (unset serverIp clientIp : Ipv4Address) (serverPort clientPort : UInt16)
    (cipherKey : Str) :
    (ofBothKey serverIp clientIp serverPort clientPort cipherKey).install unset =
      { serverAddress := serverIp
        serverPort := if serverPort = 0 then 1194 else serverPort
        clientVPNAddress := clientIp
        clientPort := clientPort
        cipherKey := cipherKey } := by
  by_cases h : serverPort = 0
  · simp only [ofBothKey, if_neg (not_not.mpr h), if_pos h]
    rfl
  · simp only [ofBothKey, if_pos h, if_neg h]
    rfl

end VPNHelper

namespace VPNApplication

/-- `SetServer(addr, port)`. -/
def setServer (app : VPNApplication) (addr : Ipv4Address) (port : UInt16) : VPNApplication :=
  { app with serverAddress := addr, serverPort := port }

/-- `SetServer(addr)`. -/
def setServerAddress (app : VPNApplication) (addr : Ipv4Address) : VPNApplication :=
  { app with serverAddress := addr }

/-- `SetCipherKey`. -/
def setCipherKey (app : VPNApplication) (cipherKey : Str) : VPNApplication :=
  { app with cipherKey := cipherKey }

/-- Setting an attribute of the helper does to every application it installs what
the setter does to one. -/
theorem install_setters (helper : VPNHelper) (unset addr : Ipv4Address) (port : UInt16)
    (key : Str) :
    ((helper.setAttribute (.serverAddress addr)).setAttribute (.serverPort port)).install unset =
        (helper.install unset).setServer addr port ∧
      (helper.setAttribute (.serverAddress addr)).install unset =
        (helper.install unset).setServerAddress addr ∧
      (helper.setAttribute (.cipherKey key)).install unset =
        (helper.install unset).setCipherKey key :=
  ⟨rfl, rfl, rfl⟩

end VPNApplication

/-! ## A client and its server -/

/-- What `sender` sends for a packet goes to `address` and the port of
`receiver`, which delivers it. -/
def Reaches (ns3 : Ns3) (sender receiver : VPNApplication) (address : Ipv4Address) (p : Packet) :
    Prop :=
  ∃ datagram, sender.sendPacket p.bytes =
      .ok (true, [.sendTo datagram address receiver.clientPort]) ∧
    receiver.receivePacket ns3 datagram = .ok [.tapReceive p.bytes 0x0800]

/-- When a packet is delivered. -/
theorem opened_eq_tap_iff {app : VPNApplication} {cipherKey : Str} {p : Packet} :
    opened app cipherKey p = .ok [.tapReceive p.bytes 0x0800] ↔
      app.clientVPNAddress = p.destination ∧ ValidKey aes128 app.cipherKey ∧
        KeysAgree cipherKey app.cipherKey := by
  rw [opened, ← keyFault_none_iff]
  by_cases hmine : app.clientVPNAddress = p.destination
  · rw [if_pos hmine, and_iff_right hmine]
    cases keyFault app.cipherKey with
    | some e => exact iff_of_false nofun fun h => nomatch h.1
    | none =>
      by_cases hagree : KeysAgree cipherKey app.cipherKey
      · simp only [if_pos hagree]
        exact iff_of_true trivial ⟨trivial, hagree⟩
      · simp only [if_neg hagree]
        exact iff_of_false nofun fun h => hagree h.2
  · rw [if_neg hmine]
    exact iff_of_false nofun fun h => hmine h.1

theorem reaches_iff {ns3 : Ns3} (hns : ns3.Documented) {sender receiver : VPNApplication}
    {address : Ipv4Address} {p : Packet} : Reaches ns3 sender receiver address p ↔
      (sender.serverAddress = address ∧ sender.serverPort = receiver.clientPort ∧
        receiver.clientVPNAddress = p.destination) ∧
      ValidKey aes128 sender.cipherKey ∧ ValidKey aes128 receiver.cipherKey ∧
        KeysAgree sender.cipherKey receiver.cipherKey := by
  have hsend := sendPacket_any sender p.bytes
  refine ⟨?_, ?_⟩
  · rintro ⟨datagram, hsent, hreceived⟩
    cases hfault : keyFault sender.cipherKey with
    | some e =>
      rw [hsent, hfault] at hsend
      cases hsend
    | none =>
      rw [hsent, hfault] at hsend
      obtain ⟨-, hevents⟩ := Prod.mk.inj (Except.ok.inj hsend)
      obtain ⟨rfl, rfl, hport⟩ := Event.sendTo.inj (List.cons.inj hevents).1
      rw [receivePacket_any hns, opened_eq_tap_iff] at hreceived
      obtain ⟨hmine, hkey, hagree⟩ := hreceived
      exact ⟨⟨rfl, hport.symm, hmine⟩, keyFault_none_iff.mp hfault, hkey, hagree⟩
  · rintro ⟨⟨rfl, hport, hmine⟩, hkey, hkey', hagree⟩
    rw [keyFault_none_iff.mpr hkey] at hsend
    refine ⟨_, hport ▸ hsend, ?_⟩
    rw [receivePacket_any hns]
    exact opened_eq_tap_iff.mpr ⟨hmine, hkey', hagree⟩

/-- **A client and a server from the helper.** The client is made with the
address of the server, the server without. A packet of the client reaches the
server exactly if it is for the VPN address of the server, the ports match (a
server port of 0 stands for 1194), and the keys are good and agree. A packet of
the server reaches the client only if the client has the address that was never
set, and port 1194; after `SetServer`, if that names the client. -/
theorem paired_iff {ns3 : Ns3} (hns : ns3.Documented)
    (unset serverIp clientIp vpnIp : Ipv4Address) (serverPort clientPort port : UInt16)
    (key key' : Str) (address : Ipv4Address) (p : Packet) :
    let client := (VPNHelper.ofBothKey serverIp clientIp serverPort clientPort key).install unset
    let server := (VPNHelper.ofClientKey vpnIp port key').install unset
    (Reaches ns3 client server address p ↔
      (serverIp = address ∧ (if serverPort = 0 then 1194 else serverPort) = port ∧
        vpnIp = p.destination) ∧
      ValidKey aes128 key ∧ ValidKey aes128 key' ∧ KeysAgree key key') ∧
    (Reaches ns3 server client address p ↔
      (unset = address ∧ 1194 = clientPort ∧ clientIp = p.destination) ∧
      ValidKey aes128 key' ∧ ValidKey aes128 key ∧ KeysAgree key' key) ∧
    ∀ addr port', Reaches ns3 (server.setServer addr port') client address p ↔
      (addr = address ∧ port' = clientPort ∧ clientIp = p.destination) ∧
      ValidKey aes128 key' ∧ ValidKey aes128 key ∧ KeysAgree key' key := by
  intro client server
  have hclient : client = _ := VPNHelper.install_ofBothKey unset serverIp clientIp serverPort
    clientPort key
  rw [hclient]
  exact ⟨reaches_iff hns, reaches_iff hns, fun addr port' => reaches_iff hns⟩

/-- With the default port, a client reaches a server that listens on port 1194. -/
theorem paired_iff_default :
    Reaches wire ((VPNHelper.ofBothKey 0xc0a80001 0x0a010102 0 50000 zeroKey).install 0)
      ((VPNHelper.ofClientKey 0x0a010101 1194 zeroKey).install 0) 0xc0a80001
      (plainUdp [0x61]) :=
  (paired_iff wire_documented 0 0xc0a80001 0x0a010102 0x0a010101 0 50000 1194 zeroKey zeroKey
    0xc0a80001 (plainUdp [0x61])).1.mpr
    ⟨⟨rfl, rfl, rfl⟩, validKey_zeroKey, validKey_zeroKey, rfl⟩

end SimpleVpn
