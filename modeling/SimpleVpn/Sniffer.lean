import SimpleVpn.Config

/-!
# The sniffer of the simulations

The function `Sniffer` of the two sniffing simulations, a trace sink on a
point-to-point device: it takes a VPN header off the front of what it is given,
tries the key of 32 zeros on it, and logs the addresses and ports of the inner
packet if the header passes.

What it is given is a frame, and a frame begins with the header of its link
layer. `sniff_frame` says that it fails there whatever the keys are, and
`sniff_sealed` what it would do on the payload of the datagram.
-/

namespace SimpleVpn

open Exec AES VPNApplication

/-! ## What is used of the simulator -/

/-- What the sniffer uses of the header classes of ns-3 beyond the application. -/
structure SnifferNs3 : Type 1 extends Ns3 where
  /-- `Ipv4Header::GetProtocol` -/
  getProtocol : Ipv4Header → UInt8
  /-- `Ipv4Header::GetSource` -/
  getSource : Ipv4Header → Ipv4Address
  /-- `UdpHeader::GetSourcePort` -/
  udpSourcePort : UdpHeader → UInt16
  /-- `TcpHeader` -/
  TcpHeader : Type
  /-- `TcpHeader::Deserialize` -/
  tcpDeserialize : Bytes → Exec (TcpHeader × ℕ)
  /-- `TcpHeader::GetSourcePort` -/
  tcpSourcePort : TcpHeader → UInt16
  /-- `TcpHeader::GetDestinationPort` -/
  tcpDestinationPort : TcpHeader → UInt16

/-- The source address in an IPv4 header. -/
def sourceField (header : Bytes) : Ipv4Address := UInt32.ofNat (beNat ((header.drop 12).take 4))

/-- The source port in a UDP or TCP header: its first field. -/
def sourcePortField (header : Bytes) : UInt16 := UInt16.ofNat (beNat (header.take 2))

/-- The documented behaviour of the header classes. -/
structure SnifferNs3.Documented (ns3 : SnifferNs3) : Prop where
  /-- an IPv4 header is read as long as it is, with these fields -/
  ipv4 : ∀ {header : Bytes} {protocol : UInt8} {destination : Ipv4Address} (rest : Bytes),
    IsIpv4Header header protocol destination →
    ∃ h, ns3.ipv4Deserialize (header ++ rest) = .ok (h, header.length) ∧
      ns3.getDestination h = destination ∧ ns3.getProtocol h = protocol ∧
      ns3.getSource h = sourceField header
  /-- a UDP header is 8 bytes -/
  udp : ∀ {header : Bytes} (rest : Bytes), header.length = 8 →
    ∃ h, ns3.udpDeserialize (header ++ rest) = .ok (h, 8) ∧
      ns3.getDestinationPort h = portField header ∧ ns3.udpSourcePort h = sourcePortField header
  /-- a TCP header is read as long as its data offset says -/
  tcp : ∀ {header : Bytes} (rest : Bytes), IsTransportHeader 6 header →
    ∃ h, ns3.tcpDeserialize (header ++ rest) = .ok (h, header.length) ∧
      ns3.tcpDestinationPort h = portField header ∧ ns3.tcpSourcePort h = sourcePortField header

/-! ## The code -/

/-- The five lines logged about an inner packet. -/
structure Sniffed : Type where
  source : Ipv4Address
  destination : Ipv4Address
  sourcePort : UInt16
  destinationPort : UInt16
  size : ℕ
  deriving DecidableEq

/-- What the sniffer logs. -/
inductive SnifferLog : Type where
  /-- `>> SNIFFING FAIL` -/
  | fail
  /-- `>> SNIFFING SUCCESS`, after what is said about a TCP or UDP packet -/
  | success (sniffed : Option Sniffed)
  deriving DecidableEq

/-- `Sniffer`, with the key it tries. -/
def sniffWith (ns3 : SnifferNs3) (cipherKey : Str) (packet : Bytes) : Exec SnifferLog := do
  let (vpnHeader, copy) ← removeHeader VpnHeader.deserialize packet
  let decrypted ← vpnHeader.decryptInput cipherKey
  if decrypted ≠ vpnHeader.sentOrigin then
    return .fail
  else
    let (ipHeader, copy) ← removeHeader ns3.ipv4Deserialize copy
    if ns3.getProtocol ipHeader = 6 then
      let (tcpHeader, copy) ← removeHeader ns3.tcpDeserialize copy
      return .success (some
        { source := ns3.getSource ipHeader
          destination := ns3.getDestination ipHeader
          sourcePort := ns3.tcpSourcePort tcpHeader
          destinationPort := ns3.tcpDestinationPort tcpHeader
          size := copy.length })
    else if ns3.getProtocol ipHeader = 17 then
      let (udpHeader, copy) ← removeHeader ns3.udpDeserialize copy
      return .success (some
        { source := ns3.getSource ipHeader
          destination := ns3.getDestination ipHeader
          sourcePort := ns3.udpSourcePort udpHeader
          destinationPort := ns3.getDestinationPort udpHeader
          size := copy.length })
    else
      return .success none

/-- `Sniffer`. -/
def sniffer (ns3 : SnifferNs3) (packet : Bytes) : Exec SnifferLog :=
  sniffWith ns3 (str "00000000000000000000000000000000") packet

/-- Header classes that keep the bytes they have read. -/
def wireSniffer : SnifferNs3 where
  toNs3 := wire
  getProtocol header := header.getD 9 0
  getSource := sourceField
  udpSourcePort := sourcePortField
  TcpHeader := Bytes
  tcpDeserialize packet := do
    let size := 4 * ((← load packet 12) / 16).toNat
    if size ≤ packet.length then .ok (packet.take size, size) else .error .outOfBounds
  tcpSourcePort := sourcePortField
  tcpDestinationPort := portField

theorem wireSniffer_documented : wireSniffer.Documented where
  ipv4 := by
    intro header protocol destination rest h
    obtain ⟨read, hread, -⟩ := wire_documented.ipv4 rest h
    obtain ⟨b, -, hsize⟩ := bind_eq_ok hread
    obtain ⟨-, heq⟩ := ite_eq_ok hsize
    obtain ⟨rfl, hlen⟩ := Prod.mk.inj heq
    rw [hlen, List.take_left] at hread
    refine ⟨header, hread, h.destination, ?_, rfl⟩
    exact (List.getD_eq_getElem?_getD).trans (congrArg (Option.getD · 0) h.protocol)
  udp := by
    intro header rest h
    refine ⟨header, ?_, rfl, rfl⟩
    simp only [wireSniffer, wire, List.length_append, h, Nat.le_add_right, if_true,
      List.take_left' h]
  tcp := by
    intro header rest h
    cases h with
    | tcp hoffset hlen h20 =>
      have hload : load (header ++ rest) 12 = _ := load_eq_of_getElem? (by
        rw [List.getElem?_append_left (by omega), hoffset])
      refine ⟨header, ?_, rfl, rfl⟩
      simp only [wireSniffer, hload, ok_bind, ← hlen, List.length_append, Nat.le_add_right, if_true,
        List.take_left]

/-! ## Frames -/

variable {ns3 : SnifferNs3} {cipherKey : Str}

/-- A header that does not pass is all that the sniffer looks at. -/
theorem sniffWith_rejects (hkey : ValidKey aes128 cipherKey) {packet : Bytes}
    (h64 : 64 ≤ packet.length) (hfail : ¬(VpnHeader.ofBytes packet).Accepts cipherKey) :
    sniffWith ns3 cipherKey packet = .ok .fail := by
  have hwf := VpnHeader.wellFormed_ofBytes h64
  have hrun := VpnHeader.decryptInput_eq hkey hwf.encrypted
  rw [VpnHeader.Accepts, hrun, Except.ok.injEq] at hfail
  rw [sniffWith, removeHeader_eq (VpnHeader.deserialize_eq h64), ok_bind]
  dsimp only
  rw [hrun, ok_bind, if_pos hfail]
  rfl

/-- **The sniffer never succeeds on a frame** that has a byte other than an
upper-case hex digit among its first 32: it fails, or reads out of bounds if the
frame is too short. -/
theorem sniff_frame (hkey : ValidKey aes128 cipherKey) {frame : Bytes}
    (hbad : ∃ b ∈ frame.take 32, ¬IsUpperHexDigit b) :
    sniffWith ns3 cipherKey frame =
      if 64 ≤ frame.length then .ok .fail else .error .outOfBounds := by
  by_cases h64 : 64 ≤ frame.length
  · rw [if_pos h64]
    refine sniffWith_rejects hkey h64 fun hacc => ?_
    obtain ⟨b, hb, hdigit⟩ := hbad
    have hwf := VpnHeader.wellFormed_ofBytes h64
    -- the first field of a header that passes is upper-case hex
    exact hdigit (((VpnHeader.accepts_iff_cipher hkey hwf).mp hacc).1 b hb)
  · rw [if_neg h64, sniffWith, removeHeader, VpnHeader.deserialize_short (Nat.lt_of_not_le h64),
      error_bind, error_bind]

/-- A frame of the point-to-point protocol begins with a zero byte. -/
theorem sniff_frame_ppp :
    sniffer wireSniffer
      (0x00 :: 0x21 :: (plainIpv4Header 17 ++ plainUdpHeader ++ sealBytes zeroKey)) =
      .ok .fail := by
  have hzero : ∃ b ∈ (0x00 :: 0x21 :: (plainIpv4Header 17 ++ plainUdpHeader ++
      sealBytes zeroKey)).take 32, ¬IsUpperHexDigit b :=
    ⟨0, List.mem_cons_self, by decide⟩
  refine (sniff_frame validKey_zeroKey hzero).trans (if_pos ?_)
  simp only [List.length_cons, List.length_append, length_sealBytes]
  omega

/-! ## Payloads -/

/-- **What the sniffer makes of a payload**: if its key agrees with the sender's,
it logs the addresses and ports of the inner packet and the size of what the
packet carries; otherwise it fails. -/
theorem sniff_sealed (hns : ns3.Documented) (hkey : ValidKey aes128 cipherKey) (key : Str)
    {ip header : Bytes} {protocol : UInt8} {destination : Ipv4Address}
    (hip : IsIpv4Header ip protocol destination) (htr : IsTransportHeader protocol header)
    (payload : Bytes) :
    sniffWith ns3 cipherKey (sealBytes key ++ (ip ++ (header ++ payload))) =
      .ok (if KeysAgree key cipherKey then
        .success (some ⟨sourceField ip, destination, sourcePortField header, portField header,
          payload.length⟩)
      else .fail) := by
  have hlen := length_sealBytes key
  obtain ⟨rest, hrest⟩ : ∃ rest, rest = ip ++ (header ++ payload) := ⟨_, rfl⟩
  have h64 : 64 ≤ (sealBytes key ++ rest).length := by
    rw [List.length_append]
    omega
  have hofBytes : VpnHeader.ofBytes (sealBytes key ++ rest) = sealHeader key := by
    rw [VpnHeader.ofBytes_append (Nat.le_of_eq hlen.symm), ofBytes_sealBytes]
  by_cases hagree : KeysAgree key cipherKey
  · have hacc : (sealHeader key).Accepts cipherKey := (accepts_sealHeader_iff hkey).mpr hagree
    obtain ⟨h, hread, hdest, hprotocol, hsource⟩ := hns.ipv4 (header ++ payload) hip
    have hremove := removeHeader_eq hread
    rw [List.drop_left] at hremove
    rw [if_pos hagree, sniffWith, removeHeader_vpn hlen, ok_bind, ofBytes_sealBytes]
    dsimp only
    rw [hacc, ok_bind, if_neg (not_not.mpr rfl), hremove, ok_bind]
    dsimp only
    rw [hprotocol]
    cases htr with
    | udp hudp =>
      obtain ⟨u, huread, hport, hsport⟩ := hns.udp payload hudp
      have huremove := removeHeader_eq huread
      rw [List.drop_left' hudp] at huremove
      rw [if_neg (by decide), if_pos rfl, huremove, ok_bind]
      dsimp only
      rw [hsource, hdest, hsport, hport]
      rfl
    | tcp hoffset htcp h20 =>
      obtain ⟨t, htread, hport, hsport⟩ := hns.tcp payload (.tcp hoffset htcp h20)
      have htremove := removeHeader_eq htread
      rw [List.drop_left] at htremove
      rw [if_pos rfl, htremove, ok_bind]
      dsimp only
      rw [hsource, hdest, hsport, hport]
      rfl
  · rw [if_neg hagree, ← hrest]
    refine sniffWith_rejects hkey h64 fun hacc => hagree ?_
    rw [hofBytes] at hacc
    exact (accepts_sealHeader_iff hkey).mp hacc

/-- A TCP segment from an application with the key of zeros. -/
theorem sniff_sealed_zeros :
    sniffer wireSniffer (sealBytes zeroKey ++ (plainIpv4Header 6 ++ (plainTcpHeader ++ [0x61]))) =
      .ok (.success (some ⟨0x0a010102, 0x0a010101, 50000, 80, 1⟩)) := by
  have hagree : KeysAgree zeroKey zeroKey := rfl
  refine (sniff_sealed wireSniffer_documented validKey_zeroKey zeroKey (isIpv4Header_plain 6)
    isTransportHeader_plainTcp [0x61]).trans ?_
  rw [if_pos hagree]
  rfl

end SimpleVpn
