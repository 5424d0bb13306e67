import Mathlib.Algebra.BigOperators.Group.Multiset.Basic
import Mathlib.Algebra.Order.Group.Multiset
import SimpleVpn.Transition
import SimpleVpn.Tunnel

/-!
# The tunnel as a relay of packets

What the tunnel is for, and that it does it. The abstract service is a bag of
packets: nodes put packets in, a node takes packets out that are in transit to
its socket, and hands each either to its own interface or, without its headers,
to the network. There are no bytes in front of a packet, no key and no lists.

The tunnel refines this service (`simulation`) as long as nothing is injected
and no packet is meant for the socket of an application. A datagram sealed in
flight is a packet in the bag; all other datagrams in flight are none of the
tunnel's business. So what holds of a bag holds of the tunnel: no packet is lost
or duplicated but by the network (`conservation`), and what is delivered was
submitted (`outcome_submitted`).
-/

namespace SimpleVpn

open Exec AES VPNApplication Transition

variable {ι : Type}

/-! ## Steps as actions -/

/-- What one step of a run does. -/
inductive Action (ι : Type) : Type where
  /-- a node sends a packet through its VPN interface -/
  | send (i : ι) (packet : Bytes) (events : List Event)
  /-- a node receives a datagram -/
  | receive (i : ι) (d : Datagram) (l₁ l₂ : List Datagram) (events : List Event)
  /-- the adversary looks at a datagram -/
  | observe (d : Datagram)
  /-- a datagram is lost -/
  | drop (d : Datagram) (l₁ l₂ : List Datagram)
  /-- a datagram is copied -/
  | duplicate (d : Datagram)
  /-- the adversary sends an observed header and bytes of its choice -/
  | inject (header tail : Bytes) (address : Ipv4Address) (port : UInt16)

/-- Node `i` receives what is sent to an address and a port. -/
def Network.Listens (net : Network ι) (i : ι) (address : Ipv4Address) (port : UInt16) : Prop :=
  address ∈ net.addresses i ∧ port = (net.app i).clientPort

/-- Some node receives what is sent to an address and a port. -/
def Network.IsSocket (net : Network ι) (address : Ipv4Address) (port : UInt16) : Prop :=
  ∃ i, net.Listens i address port

/-- The server of node `i` is an application. -/
def Network.Served (net : Network ι) (i : ι) : Prop :=
  net.IsSocket (net.app i).serverAddress (net.app i).serverPort

namespace Action

/-- When an action is possible. -/
def Enabled (ns3 : Ns3) (net : Network ι) (s : State ι) : Action ι → Prop
  | send i packet events => (net.app i).sendPacket packet = .ok (true, events)
  | receive i d l₁ l₂ events => s.inFlight = l₁ ++ d :: l₂ ∧ net.Listens i d.address d.port ∧
      (net.app i).receivePacket ns3 d.payload = .ok events
  | observe d => d ∈ s.inFlight
  | drop d l₁ l₂ => s.inFlight = l₁ ++ d :: l₂
  | duplicate d => d ∈ s.inFlight
  | inject header _ _ _ => header.length = 64 ∧ ∃ d ∈ s.observed, header <+: d.payload

/-- The state after an action. -/
def after (s : State ι) : Action ι → State ι
  | send _ packet events => { s with
      inFlight := sends events ++ s.inFlight
      sent := packet :: s.sent }
  | receive i _ l₁ l₂ events => { s with
      inFlight := sends events ++ (l₁ ++ l₂)
      forwarded := (sends events).map Datagram.payload ++ s.forwarded
      delivered := (taps events).map (Prod.mk i) ++ s.delivered }
  | observe d => { s with observed := d :: s.observed }
  | drop _ l₁ l₂ => { s with inFlight := l₁ ++ l₂ }
  | duplicate d => { s with inFlight := d :: s.inFlight }
  | inject header tail address port => { s with
      inFlight := ⟨header ++ tail, address, port⟩ :: s.inFlight
      injected := tail :: s.injected }

/-- The steps of a run are the possible actions. -/
theorem step_iff {ns3 : Ns3} {net : Network ι} {s s' : State ι} :
    Step ns3 net s s' ↔ ∃ a : Action ι, a.Enabled ns3 net s ∧ s' = a.after s := by
  refine ⟨?_, ?_⟩
  · intro h
    cases h with
    | send i packet events hrun => exact ⟨.send i packet events, hrun, rfl⟩
    | receive i d l₁ l₂ events hflight haddress hport hrun =>
      exact ⟨.receive i d l₁ l₂ events, ⟨hflight, ⟨haddress, hport⟩, hrun⟩, rfl⟩
    | observe d hd => exact ⟨.observe d, hd, rfl⟩
    | drop d l₁ l₂ hflight => exact ⟨.drop d l₁ l₂, hflight, rfl⟩
    | duplicate d hd => exact ⟨.duplicate d, hd, rfl⟩
    | inject d header tail address port hd hlen hheader =>
      exact ⟨.inject header tail address port, ⟨hlen, d, hd, hheader⟩, rfl⟩
  · rintro ⟨a, ha, rfl⟩
    cases a with
    | send i packet events => exact .send i packet events ha
    | receive i d l₁ l₂ events =>
      obtain ⟨hflight, ⟨haddress, hport⟩, hrun⟩ := ha
      exact .receive i d l₁ l₂ events hflight haddress hport hrun
    | observe d => exact .observe d ha
    | drop d l₁ l₂ => exact .drop d l₁ l₂ ha
    | duplicate d => exact .duplicate d ha
    | inject header tail address port =>
      obtain ⟨hlen, d, hd, hheader⟩ := ha
      exact .inject d header tail address port hd hlen hheader

end Action

/-! ## Packets -/

/-- A packet as `ReceivePacket` takes it apart: an IPv4 header, the 8 bytes it
removes as a UDP header, and the rest. -/
structure Packet : Type where
  ip : Bytes
  protocol : UInt8
  destination : Ipv4Address
  /-- the UDP header, or the first 8 bytes of another transport header -/
  head : Bytes
  body : Bytes
  isIpv4 : IsIpv4Header ip protocol destination
  length_head : head.length = 8

/-- The bytes of a packet. -/
def Packet.bytes (p : Packet) : Bytes := p.ip ++ (p.head ++ p.body)

/-- The datagram as which a packet is sent on. -/
def Packet.forward (p : Packet) : Datagram := ⟨p.body, p.destination, portField p.head⟩

/-- A packet is not meant for the socket of an application. -/
def Packet.Outward (net : Network ι) (p : Packet) : Prop :=
  ¬net.IsSocket p.forward.address p.forward.port

/-- A packet in transit to a socket. -/
structure Parcel : Type where
  packet : Packet
  address : Ipv4Address
  port : UInt16

/-- The datagram that carries a parcel. -/
def Parcel.datagram (cipherKey : Str) (x : Parcel) : Datagram :=
  ⟨sealBytes cipherKey ++ x.packet.bytes, x.address, x.port⟩

/-- What the handler does with a sealed packet. -/
theorem receivePacket_parcel {ns3 : Ns3} (hns : ns3.Documented) (net : Network ι) (i : ι)
    (p : Packet) :
    (net.app i).receivePacket ns3 (sealBytes net.cipherKey ++ p.bytes) =
      .ok [if (net.app i).clientVPNAddress = p.destination then .tapReceive p.bytes 0x0800
        else .sendTo p.forward.payload p.forward.address p.forward.port] := by
  have hsame : upper net.cipherKey = upper (net.app i).cipherKey := by rw [net.shared i]
  have h8 : 8 ≤ p.head.length := Nat.le_of_eq p.length_head.symm
  by_cases hmine : (net.app i).clientVPNAddress = p.destination
  · rw [if_pos hmine]
    exact receivePacket_seal hns net.valid (net.validKey i) hsame p.isIpv4 h8 p.body hmine
  · rw [if_neg hmine, Packet.bytes,
      receivePacket_other hns (length_sealBytes _) p.isIpv4 h8 p.body hmine,
      drop_udp p.length_head]
    rfl

/-! ## The service -/

/-- What can be seen of a run. -/
inductive Visible (ι : Type) : Type where
  /-- a node has put a packet in -/
  | submit (i : ι) (packet : Bytes)
  /-- a node has taken a packet out, for its own interface -/
  | deliver (i : ι) (packet : Bytes)
  /-- a node has taken a packet out and sent it on -/
  | relay (i : ι) (packet : Bytes) (d : Datagram)
  /-- a packet is lost -/
  | lose (packet : Bytes)
  /-- a packet is copied -/
  | copy (packet : Bytes)

/-- A step of the service, on the bag of parcels in transit. -/
inductive ServiceStep (net : Network ι) :
    Multiset Parcel → Option (Visible ι) → Multiset Parcel → Prop
  | submit (i : ι) (p : Packet) (bag : Multiset Parcel) (hserved : net.Served i)
      (hout : p.Outward net) :
      ServiceStep net bag (some (.submit i p.bytes))
        (⟨p, (net.app i).serverAddress, (net.app i).serverPort⟩ ::ₘ bag)
  | deliver (i : ι) (x : Parcel) (bag : Multiset Parcel) (hsocket : net.Listens i x.address x.port)
      (hmine : (net.app i).clientVPNAddress = x.packet.destination) :
      ServiceStep net (x ::ₘ bag) (some (.deliver i x.packet.bytes)) bag
  | relay (i : ι) (x : Parcel) (bag : Multiset Parcel) (hsocket : net.Listens i x.address x.port)
      (hother : (net.app i).clientVPNAddress ≠ x.packet.destination) :
      ServiceStep net (x ::ₘ bag) (some (.relay i x.packet.bytes x.packet.forward)) bag
  | lose (x : Parcel) (bag : Multiset Parcel) :
      ServiceStep net (x ::ₘ bag) (some (.lose x.packet.bytes)) bag
  | copy (x : Parcel) (bag : Multiset Parcel) :
      ServiceStep net (x ::ₘ bag) (some (.copy x.packet.bytes)) (x ::ₘ x ::ₘ bag)

/-- The service, from an empty bag. -/
def service (net : Network ι) : System (Multiset Parcel) (Visible ι) where
  init := 0
  step := ServiceStep net

/-! ## The tunnel -/

/-- What the environment of the relay does not do: inject datagrams, and send
packets to the sockets of applications. -/
def Action.Honest (net : Network ι) : Action ι → Prop
  | .send _ packet _ => ∃ p : Packet, p.Outward net ∧ packet = p.bytes
  | .inject _ _ _ _ => False
  | .receive _ _ _ _ _ | .observe _ | .drop _ _ _ | .duplicate _ => True

open Classical in
/-- What can be seen of an action: what it does with a datagram in transit to a
socket. -/
noncomputable def Action.visible (net : Network ι) : Action ι → Option (Visible ι)
  | .send i packet _ => if net.Served i then some (.submit i packet) else none
  | .receive i d _ _ events => events.head?.map fun
    | .tapReceive packet _ => .deliver i packet
    | .sendTo packet address port => .relay i (d.payload.drop 64) ⟨packet, address, port⟩
  | .drop d _ _ => if net.IsSocket d.address d.port then some (.lose (d.payload.drop 64)) else none
  | .duplicate d =>
    if net.IsSocket d.address d.port then some (.copy (d.payload.drop 64)) else none
  | .observe _ | .inject _ _ _ _ => none

/-- The tunnel: honest actions, and what can be seen of them. -/
def tunnel (ns3 : Ns3) (net : Network ι) : System (State ι) (Visible ι) where
  init := {}
  step s o s' := ∃ a : Action ι, a.Enabled ns3 net s ∧ a.Honest net ∧ o = a.visible net ∧
    s' = a.after s

theorem listens_twoNodes : twoNodes.Listens 1 0xc0a80001 50000 := ⟨by decide, rfl⟩

theorem served_twoNodes (i : Fin 2) : twoNodes.Served i := ⟨1, listens_twoNodes⟩

/-- A packet to the VPN address of node 1. -/
def plainUdp (payload : Bytes) : Packet where
  ip := plainIpv4Header 17
  protocol := 17
  destination := 0x0a010101
  head := plainUdpHeader
  body := payload
  isIpv4 := isIpv4Header_plain 17
  length_head := rfl

theorem outward_plainUdp (payload : Bytes) : (plainUdp payload).Outward twoNodes := by
  have haddress : ∀ i, (0x0a010101 : Ipv4Address) ∉ twoNodes.addresses i := by decide
  rintro ⟨i, hmem, -⟩
  exact haddress i hmem

/-- Node 0 sends a packet to node 1. -/
theorem submit_run (payload : Bytes) :
    (tunnel wire twoNodes).Trace [.submit 0 (plainPacket payload)]
      { inFlight := [⟨sealBytes zeroKey ++ plainPacket payload, 0xc0a80001, 50000⟩]
        sent := [plainPacket payload] } :=
  .emit .nil ⟨.send 0 (plainPacket payload) _, send_twoNodes 0 _,
    ⟨plainUdp payload, outward_plainUdp payload, rfl⟩, (if_pos (served_twoNodes 0)).symm, rfl⟩

/-- And node 1 receives it. -/
theorem deliver_run (payload : Bytes) : ∃ s, (tunnel wire twoNodes).Trace
    [.submit 0 (plainPacket payload), .deliver 1 (plainPacket payload)] s :=
  ⟨_, (submit_run payload).emit ⟨.receive 1 _ [] [] _,
    ⟨rfl, listens_twoNodes, receive_plainPacket payload⟩, trivial, rfl, rfl⟩⟩

/-! ## The refinement -/

/-- How datagrams in flight carry the parcels of a bag. -/
structure Carries (net : Network ι) (inFlight : List Datagram) (bag : Multiset Parcel) : Prop where
  /-- they are the parcels, sealed, and datagrams that no application receives -/
  split : ∃ rest : Multiset Datagram,
    (inFlight : Multiset Datagram) = bag.map (Parcel.datagram net.cipherKey) + rest ∧
    ∀ d ∈ rest, ¬net.IsSocket d.address d.port
  /-- parcels are in transit to sockets -/
  sockets : ∀ x ∈ bag, net.IsSocket x.address x.port
  /-- and their packets are not -/
  outward : ∀ x ∈ bag, x.packet.Outward net

namespace Carries

variable {net : Network ι} {inFlight l₁ l₂ : List Datagram} {bag : Multiset Parcel} {d : Datagram}

/-- Another parcel. -/
theorem cons_parcel (h : Carries net inFlight bag) {x : Parcel}
    (hsocket : net.IsSocket x.address x.port) (hout : x.packet.Outward net) :
    Carries net (x.datagram net.cipherKey :: inFlight) (x ::ₘ bag) := by
  obtain ⟨rest, hsplit, hrest⟩ := h.split
  refine ⟨⟨rest, ?_, hrest⟩, Multiset.forall_mem_cons.mpr ⟨hsocket, h.sockets⟩,
    Multiset.forall_mem_cons.mpr ⟨hout, h.outward⟩⟩
  rw [← Multiset.cons_coe, hsplit, Multiset.map_cons, Multiset.cons_add]

/-- Another datagram that no application receives. -/
theorem cons_plain (h : Carries net inFlight bag) (hd : ¬net.IsSocket d.address d.port) :
    Carries net (d :: inFlight) bag := by
  obtain ⟨rest, hsplit, hrest⟩ := h.split
  refine ⟨⟨d ::ₘ rest, ?_, Multiset.forall_mem_cons.mpr ⟨hd, hrest⟩⟩, h.sockets, h.outward⟩
  rw [← Multiset.cons_coe, hsplit, Multiset.add_cons]

theorem coe_middle {α : Type} (a : α) (l₁ l₂ : List α) :
    ((l₁ ++ a :: l₂ : List α) : Multiset α) = a ::ₘ ((l₁ ++ l₂ : List α) : Multiset α) :=
  Multiset.coe_eq_coe.mpr List.perm_middle

/-- A datagram to a socket is a parcel; without it, the others are carried. -/
theorem take_socket (h : Carries net (l₁ ++ d :: l₂) bag) (hd : net.IsSocket d.address d.port) :
    ∃ x bag', bag = x ::ₘ bag' ∧ d = x.datagram net.cipherKey ∧ Carries net (l₁ ++ l₂) bag' := by
  obtain ⟨rest, hsplit, hrest⟩ := h.split
  rw [coe_middle] at hsplit
  have hmem : d ∈ bag.map (Parcel.datagram net.cipherKey) + rest :=
    hsplit ▸ Multiset.mem_cons_self d _
  rcases Multiset.mem_add.mp hmem with hd' | hd'
  · obtain ⟨x, hx, rfl⟩ := Multiset.mem_map.mp hd'
    obtain ⟨bag', rfl⟩ := Multiset.exists_cons_of_mem hx
    refine ⟨x, bag', rfl, rfl, ⟨rest, ?_, hrest⟩, (Multiset.forall_mem_cons.mp h.sockets).2,
      (Multiset.forall_mem_cons.mp h.outward).2⟩
    rwa [Multiset.map_cons, Multiset.cons_add, Multiset.cons_inj_right] at hsplit
  · exact absurd hd (hrest d hd')

/-- Any other datagram is no parcel. -/
theorem take_plain (h : Carries net (l₁ ++ d :: l₂) bag) (hd : ¬net.IsSocket d.address d.port) :
    Carries net (l₁ ++ l₂) bag := by
  obtain ⟨rest, hsplit, hrest⟩ := h.split
  rw [coe_middle] at hsplit
  have hmem : d ∈ bag.map (Parcel.datagram net.cipherKey) + rest :=
    hsplit ▸ Multiset.mem_cons_self d _
  rcases Multiset.mem_add.mp hmem with hd' | hd'
  · obtain ⟨x, hx, rfl⟩ := Multiset.mem_map.mp hd'
    exact absurd (h.sockets x hx) hd
  · obtain ⟨rest', rfl⟩ := Multiset.exists_cons_of_mem hd'
    refine ⟨⟨rest', ?_, (Multiset.forall_mem_cons.mp hrest).2⟩, h.sockets, h.outward⟩
    rwa [Multiset.add_cons, Multiset.cons_inj_right] at hsplit

end Carries

/-- A sealed packet, without its header. -/
theorem Parcel.drop_datagram (cipherKey : Str) (x : Parcel) :
    (x.datagram cipherKey).payload.drop 64 = x.packet.bytes :=
  List.drop_left' (length_sealBytes cipherKey)

/-- The service can follow an action, or need not. -/
def Follows (net : Network ι) (s : State ι) (bag : Multiset Parcel) (a : Action ι) : Prop :=
  (∃ bag', ServiceStep net bag (a.visible net) bag' ∧ Carries net (a.after s).inFlight bag') ∨
    (a.visible net = none ∧ Carries net (a.after s).inFlight bag)

section follows

variable {ns3 : Ns3} {net : Network ι} {s : State ι} {bag : Multiset Parcel} {d : Datagram}
  {l₁ l₂ : List Datagram}

theorem follows_send (h : Carries net s.inFlight bag) {i : ι} {p : Packet} {events : List Event}
    (hout : p.Outward net) (hrun : (net.app i).sendPacket p.bytes = .ok (true, events)) :
    Follows net s bag (.send i p.bytes events) := by
  have hafter : (Action.after s (.send i p.bytes events)).inFlight = _ :: s.inFlight :=
    congrArg (· ++ s.inFlight) (sendPacket_inv net hrun)
  rw [Follows, hafter]
  by_cases hserved : net.Served i
  · let x : Parcel := ⟨p, (net.app i).serverAddress, (net.app i).serverPort⟩
    have hsocket : net.IsSocket x.address x.port := hserved
    refine Or.inl ⟨x ::ₘ bag, ?_, h.cons_parcel hsocket hout⟩
    rw [Action.visible, if_pos hserved]
    exact .submit i p bag hserved hout
  · refine Or.inr ⟨?_, h.cons_plain hserved⟩
    rw [Action.visible, if_neg hserved]

theorem follows_receive (hns : ns3.Documented) (h : Carries net s.inFlight bag) {i : ι}
    {events : List Event} (hflight : s.inFlight = l₁ ++ d :: l₂)
    (hlisten : net.Listens i d.address d.port)
    (hrun : (net.app i).receivePacket ns3 d.payload = .ok events) :
    Follows net s bag (.receive i d l₁ l₂ events) := by
  rw [hflight] at h
  obtain ⟨x, bag', rfl, rfl, h'⟩ := h.take_socket ⟨i, hlisten⟩
  obtain rfl := Except.ok.inj (hrun.symm.trans (receivePacket_parcel hns net i x.packet))
  by_cases hmine : (net.app i).clientVPNAddress = x.packet.destination
  · refine Or.inl ⟨bag', ?_, ?_⟩
    · rw [if_pos hmine]
      exact .deliver i x bag' hlisten hmine
    · rw [if_pos hmine]
      exact h'
  · refine Or.inl ⟨bag', ?_, ?_⟩
    · have hstep := ServiceStep.relay i x bag' hlisten hmine
      rw [← x.drop_datagram net.cipherKey] at hstep
      rw [if_neg hmine]
      exact hstep
    · rw [if_neg hmine]
      exact h'.cons_plain (Multiset.forall_mem_cons.mp h.outward).1

theorem follows_drop (h : Carries net s.inFlight bag) (hflight : s.inFlight = l₁ ++ d :: l₂) :
    Follows net s bag (.drop d l₁ l₂) := by
  rw [hflight] at h
  by_cases hd : net.IsSocket d.address d.port
  · obtain ⟨x, bag', rfl, rfl, h'⟩ := h.take_socket hd
    refine Or.inl ⟨bag', ?_, h'⟩
    rw [Action.visible, if_pos hd, x.drop_datagram]
    exact .lose x bag'
  · refine Or.inr ⟨?_, h.take_plain hd⟩
    rw [Action.visible, if_neg hd]

theorem follows_duplicate (h : Carries net s.inFlight bag) (hmem : d ∈ s.inFlight) :
    Follows net s bag (.duplicate d) := by
  by_cases hd : net.IsSocket d.address d.port
  · obtain ⟨l₁, l₂, hflight⟩ := List.append_of_mem hmem
    rw [hflight] at h
    obtain ⟨x, bag', rfl, rfl, -⟩ := h.take_socket hd
    refine Or.inl ⟨x ::ₘ x ::ₘ bag', ?_, ?_⟩
    · rw [Action.visible, if_pos hd, x.drop_datagram]
      exact .copy x bag'
    · rw [← hflight] at h
      exact h.cons_parcel hd (Multiset.forall_mem_cons.mp h.outward).1
  · refine Or.inr ⟨?_, h.cons_plain hd⟩
    rw [Action.visible, if_neg hd]

end follows

/-- The service follows the tunnel, step by step. -/
theorem simulation {ns3 : Ns3} (hns : ns3.Documented) (net : Network ι) :
    Simulation (tunnel ns3 net) (service net)
      (fun s bag => Carries net s.inFlight bag) where
  init := ⟨⟨0, rfl, fun d hd => absurd hd (Multiset.notMem_zero d)⟩,
    fun x hx => absurd hx (Multiset.notMem_zero x), fun x hx => absurd hx (Multiset.notMem_zero x)⟩
  step := by
    rintro s bag o s' h ⟨a, ha, hhonest, rfl, rfl⟩
    cases a with
    | send i packet events =>
      obtain ⟨p, hout, rfl⟩ := hhonest
      exact follows_send h hout ha
    | receive i d l₁ l₂ events => exact follows_receive hns h ha.1 ha.2.1 ha.2.2
    | observe d => exact Or.inr ⟨rfl, h⟩
    | drop d l₁ l₂ => exact follows_drop h ha
    | duplicate d => exact follows_duplicate h ha
    | inject header tail address port => exact hhonest.elim

/-! ## What the refinement gives -/

/-- The packet that an event puts into the service. -/
def Visible.puts : Visible ι → Multiset Bytes
  | .submit _ packet | .copy packet => {packet}
  | .deliver _ _ | .relay _ _ _ | .lose _ => 0

/-- The packet that an event takes out of the service. -/
def Visible.takes : Visible ι → Multiset Bytes
  | .deliver _ packet | .relay _ packet _ | .lose packet => {packet}
  | .submit _ _ | .copy _ => 0

/-- A node has taken a packet out. -/
def Visible.IsOutcome : Visible ι → Prop
  | .deliver _ _ | .relay _ _ _ => True
  | .submit _ _ | .lose _ | .copy _ => False

open Classical in
/-- What the datagrams in flight to sockets carry after 64 bytes. -/
noncomputable def inTransit (net : Network ι) (s : State ι) : Multiset Bytes :=
  ((s.inFlight : Multiset Datagram).filter fun d => net.IsSocket d.address d.port).map
    fun d => d.payload.drop 64

/-- The packets of a bag. -/
def contents (bag : Multiset Parcel) : Multiset Bytes := bag.map fun x => x.packet.bytes

theorem contents_cons (x : Parcel) (bag : Multiset Parcel) :
    contents (x ::ₘ bag) = contents bag + {x.packet.bytes} := by
  rw [contents, Multiset.map_cons, ← Multiset.singleton_add, add_comm]
  rfl

section results

variable {ns3 : Ns3} {net : Network ι} {s : State ι} {bag : Multiset Parcel}
  {es : List (Visible ι)}

/-- What is in transit are the packets of the bag. -/
theorem Carries.inTransit_eq (h : Carries net s.inFlight bag) :
    inTransit net s = contents bag := by
  classical
  obtain ⟨rest, hsplit, hrest⟩ := h.split
  have hbag : ∀ d ∈ bag.map (Parcel.datagram net.cipherKey), net.IsSocket d.address d.port := by
    intro d hd
    obtain ⟨x, hx, rfl⟩ := Multiset.mem_map.mp hd
    exact h.sockets x hx
  rw [inTransit, hsplit, Multiset.filter_add, Multiset.filter_eq_self.mpr hbag,
    Multiset.filter_eq_nil.mpr hrest, add_zero, Multiset.map_map]
  exact Multiset.map_congr rfl fun x _ => x.drop_datagram net.cipherKey

/-- The service keeps a balance. -/
theorem service_balance (h : (service net).Trace es bag) :
    contents bag + System.total Visible.takes es = System.total Visible.puts es := by
  refine h.balance contents _ _ rfl ?_
  intro bag o bag' hstep
  cases hstep with
  | submit i p bag hout =>
    rw [contents_cons]
    exact add_zero _
  | deliver i x bag | relay i x bag | lose x bag =>
    rw [contents_cons]
    exact (add_zero _).symm
  | copy x bag =>
    rw [contents_cons x (x ::ₘ bag)]
    exact add_zero _

/-- Every run of the tunnel shows what some run of the service shows, which ends
in a bag that the datagrams in flight carry; what they carry balances. -/
theorem exists_bag (hns : ns3.Documented) (net : Network ι)
    (hrun : (tunnel ns3 net).Trace es s) :
    ∃ bag, (service net).Trace es bag ∧ Carries net s.inFlight bag ∧
      inTransit net s + System.total Visible.takes es =
        System.total Visible.puts es := by
  obtain ⟨bag, hbag, hcarries⟩ := (simulation hns net).trace hrun
  refine ⟨bag, hbag, hcarries, ?_⟩
  rw [hcarries.inTransit_eq]
  exact service_balance hbag

/-- **The tunnel refines the service**: whatever can be seen of a run of the
tunnel can be seen of a run of the service, and in the end the datagrams in
flight to sockets carry what is in its bag. -/
theorem tunnel_refines (hns : ns3.Documented) (net : Network ι)
    (hrun : (tunnel ns3 net).Trace es s) :
    ∃ bag, (service net).Trace es bag ∧ inTransit net s = contents bag := by
  obtain ⟨bag, hbag, hcarries, -⟩ := exists_bag hns net hrun
  exact ⟨bag, hbag, hcarries.inTransit_eq⟩

theorem tunnel_refines_submit :
    let es : List (Visible (Fin 2)) := [.submit 0 (plainPacket [0x61])]
    ∃ s bag, (tunnel wire twoNodes).Trace es s ∧ (service twoNodes).Trace es bag ∧
      inTransit twoNodes s = contents bag := by
  intro es
  have hrun := submit_run [0x61]
  obtain ⟨bag, hbag, htransit⟩ := tunnel_refines wire_documented twoNodes hrun
  exact ⟨_, bag, hrun, hbag, htransit⟩

/-- **Conservation.** In every run of the tunnel, what was put in is what has
been taken out and what is in transit, each packet as often. -/
theorem conservation (hns : ns3.Documented) (net : Network ι)
    (hrun : (tunnel ns3 net).Trace es s) :
    inTransit net s + System.total Visible.takes es = System.total Visible.puts es := by
  obtain ⟨-, -, -, hbalance⟩ := exists_bag hns net hrun
  exact hbalance

theorem conservation_submit :
    ∃ s, (tunnel wire twoNodes).Trace [.submit 0 (plainPacket [0x61])] s ∧
      inTransit twoNodes s = {plainPacket [0x61]} := by
  have hrun := submit_run [0x61]
  have hbalance := conservation wire_documented twoNodes hrun
  exact ⟨_, hrun, (add_zero _).symm.trans hbalance⟩

/-- In the service, every parcel was submitted. -/
theorem service_submitted (h : (service net).Trace es bag) :
    ∀ x ∈ bag, ∃ j, .submit j x.packet.bytes ∈ es := by
  refine h.inv (fun es bag => ∀ x ∈ bag, ∃ j, .submit j x.packet.bytes ∈ es)
    (fun x hx => absurd hx (Multiset.notMem_zero x)) ?_
  intro es bag o bag' ih hstep x hx
  have hold : x ∈ bag → ∃ j, .submit j x.packet.bytes ∈ es ++ o.toList := fun hx =>
    (ih x hx).imp fun j hj => List.mem_append_left _ hj
  cases hstep with
  | submit i p bag hout =>
    rcases Multiset.mem_cons.mp hx with rfl | hx
    · exact ⟨i, List.mem_append_right _ (List.mem_singleton_self _)⟩
    · exact hold hx
  | deliver i y bag | relay i y bag | lose y bag => exact hold (Multiset.mem_cons_of_mem hx)
  | copy y bag =>
    rcases Multiset.mem_cons.mp hx with rfl | hx
    · exact hold (Multiset.mem_cons_self x bag)
    · exact hold hx

/-- **What is delivered was submitted**, and was meant for the node; what is
relayed was submitted, and is sent to its destination without its headers. -/
theorem outcome_submitted (hns : ns3.Documented) (net : Network ι)
    (hrun : (tunnel ns3 net).Trace es s) {before : List (Visible ι)} {i : ι}
    {packet : Bytes} :
    (before ++ [.deliver i packet] <+: es → (∃ j, .submit j packet ∈ before) ∧
      ∃ p : Packet, packet = p.bytes ∧ p.destination = (net.app i).clientVPNAddress) ∧
    ∀ d, before ++ [.relay i packet d] <+: es → (∃ j, .submit j packet ∈ before) ∧
      ∃ p : Packet, packet = p.bytes ∧ p.destination ≠ (net.app i).clientVPNAddress ∧
        d = p.forward := by
  obtain ⟨bag, hbag, -⟩ := exists_bag hns net hrun
  refine ⟨fun hpre => ?_, fun d hpre => ?_⟩
  · obtain ⟨bag₁, bag₂, hbefore, hstep⟩ := hbag.step_of_prefix hpre
    cases hstep with
    | deliver i x bag hsocket hmine =>
      exact ⟨service_submitted hbefore x (Multiset.mem_cons_self x _), x.packet, rfl, hmine.symm⟩
  · obtain ⟨bag₁, bag₂, hbefore, hstep⟩ := hbag.step_of_prefix hpre
    cases hstep with
    | relay i x bag hsocket hother =>
      exact ⟨service_submitted hbefore x (Multiset.mem_cons_self x _), x.packet, rfl,
        hother.symm, rfl⟩

theorem outcome_submitted_deliver :
    let before : List (Visible (Fin 2)) := [.submit 0 (plainPacket [0x61])]
    ∃ s, (tunnel wire twoNodes).Trace (before ++ [.deliver 1 (plainPacket [0x61])]) s ∧
      (∃ j, .submit j (plainPacket [0x61]) ∈ before) ∧
      ∃ p : Packet, plainPacket [0x61] = p.bytes ∧ p.destination = 0x0a010101 := by
  intro before
  obtain ⟨s, hrun⟩ := deliver_run [0x61]
  have hall : before ++ [.deliver 1 (plainPacket [0x61])] <+:
      before ++ [.deliver 1 (plainPacket [0x61])] := List.prefix_rfl
  exact ⟨s, hrun, (outcome_submitted wire_documented twoNodes hrun).1 hall⟩

/-! ## Nothing gets stuck -/

/-- The receptions among the steps of the tunnel, from a state. -/
def receiving (ns3 : Ns3) (net : Network ι) (s₀ : State ι) : System (State ι) (Visible ι) where
  init := s₀
  step s o s' := ∃ i d l₁ l₂ events, (Action.receive i d l₁ l₂ events).Enabled ns3 net s ∧
    o = (Action.receive i d l₁ l₂ events).visible net ∧
    s' = (Action.receive i d l₁ l₂ events).after s

/-- A run of the tunnel can go on with receptions. -/
theorem tunnel_receiving (hrun : (tunnel ns3 net).Trace es s) {es' : List (Visible ι)}
    {s' : State ι} (hrun' : (receiving ns3 net s).Trace es' s') :
    (tunnel ns3 net).Trace (es ++ es') s' := by
  refine hrun.append rfl ?_ hrun'
  rintro s o s' ⟨i, d, l₁, l₂, events, hreceive, rfl, rfl⟩
  exact ⟨.receive i d l₁ l₂ events, hreceive, trivial, rfl, rfl⟩

theorem ServiceStep.card_lt {bag' : Multiset Parcel} {e : Visible ι}
    (h : ServiceStep net bag (some e) bag') (he : e.IsOutcome) : bag'.card < bag.card := by
  cases h with
  | deliver i x | relay i x =>
    rw [Multiset.card_cons]
    exact Nat.lt_succ_self _
  | submit | lose | copy => exact he.elim

/-- As long as something is in transit, some node can take a packet out. -/
theorem progress (hns : ns3.Documented) (s₀ : State ι) (h : Carries net s.inFlight bag)
    (hbag : bag ≠ 0) :
    ∃ e s' bag', (receiving ns3 net s₀).step s (some e) s' ∧ e.IsOutcome ∧
      Carries net s'.inFlight bag' ∧ bag'.card < bag.card := by
  obtain ⟨x, hx⟩ := Multiset.exists_mem_of_ne_zero hbag
  obtain ⟨i, hlisten⟩ := h.sockets x hx
  have hmem : x.datagram net.cipherKey ∈ s.inFlight := by
    obtain ⟨rest, hsplit, -⟩ := h.split
    rw [← Multiset.mem_coe, hsplit]
    exact Multiset.mem_add.mpr (Or.inl (Multiset.mem_map_of_mem _ hx))
  obtain ⟨l₁, l₂, hflight⟩ := List.append_of_mem hmem
  -- the handler of the node that listens does not fault
  have hrun := receivePacket_parcel hns net i x.packet
  obtain ⟨event, hevent⟩ : ∃ event, event =
      if (net.app i).clientVPNAddress = x.packet.destination then
        Event.tapReceive x.packet.bytes 0x0800
      else .sendTo x.packet.forward.payload x.packet.forward.address x.packet.forward.port :=
    ⟨_, rfl⟩
  rw [← hevent] at hrun
  let a : Action ι := .receive i (x.datagram net.cipherKey) l₁ l₂ [event]
  have hshow : ∃ e, a.visible net = some e ∧ e.IsOutcome := by
    cases event with
    | sendTo packet address port => exact ⟨_, rfl, trivial⟩
    | tapReceive packet protocol => exact ⟨_, rfl, trivial⟩
  obtain ⟨e, hvisible, he⟩ := hshow
  rcases follows_receive hns h hflight hlisten hrun with ⟨bag', hserve, hcarries⟩ | ⟨hnone, -⟩
  · have hstep : ServiceStep net bag (a.visible net) bag' := hserve
    rw [hvisible] at hstep
    exact ⟨e, _, bag', ⟨i, _, l₁, l₂, [event], ⟨hflight, hlisten, hrun⟩, hvisible.symm, rfl⟩, he,
      hcarries, hstep.card_lt he⟩
  · have hnone' : a.visible net = none := hnone
    rw [hvisible] at hnone'
    cases hnone'

/-- A bag can be emptied, packet by packet. -/
theorem empties (hns : ns3.Documented) : ∀ {bag : Multiset Parcel} {es : List (Visible ι)}
    {s₀ s : State ι}, Carries net s.inFlight bag → (receiving ns3 net s₀).Trace es s →
    ∃ es' s', (receiving ns3 net s₀).Trace (es ++ es') s' ∧ (∀ e ∈ es', e.IsOutcome) ∧
      Carries net s'.inFlight 0 := by
  intro bag
  induction hn : bag.card using Nat.strong_induction_on generalizing bag with
  | _ n ih =>
    intro es s₀ s h hrun
    by_cases hbag : bag = 0
    · exact ⟨[], s, by rwa [List.append_nil], nofun, hbag ▸ h⟩
    · obtain ⟨e, s₁, bag₁, hstep, he, h₁, hlt⟩ := progress hns s₀ h hbag
      obtain ⟨es', s', hrun', hout, h'⟩ := ih _ (hn ▸ hlt) rfl h₁ (hrun.emit hstep)
      refine ⟨e :: es', s', ?_, List.forall_mem_cons.mpr ⟨he, hout⟩, h'⟩
      rwa [List.append_assoc] at hrun'

theorem total_puts_outcomes (hout : ∀ e ∈ es, e.IsOutcome) :
    System.total Visible.puts es = 0 := by
  induction es with
  | nil => rfl
  | cons e es ih =>
    obtain ⟨he, hes⟩ := List.forall_mem_cons.mp hout
    rw [← List.singleton_append, System.total_append, System.total_singleton, ih hes]
    cases e with
    | deliver | relay => rfl
    | submit | lose | copy => exact he.elim

/-- **Every run can be brought to an end**: from where it is, by receiving alone,
until nothing is in transit; and the nodes then take out just what was in transit. -/
theorem drain (hns : ns3.Documented) (net : Network ι)
    (hrun : (tunnel ns3 net).Trace es s) :
    ∃ es' s', (receiving ns3 net s).Trace es' s' ∧ (tunnel ns3 net).Trace (es ++ es') s' ∧
      (∀ e ∈ es', e.IsOutcome) ∧ inTransit net s' = 0 ∧
      System.total Visible.takes es' = inTransit net s := by
  obtain ⟨bag, -, h, hbefore⟩ := exists_bag hns net hrun
  obtain ⟨es', s', hreceive, hout, h'⟩ :=
    empties hns h (.nil : (receiving ns3 net s).Trace [] s)
  rw [List.nil_append] at hreceive
  have hempty : inTransit net s' = 0 := h'.inTransit_eq
  have hrun' := tunnel_receiving hrun hreceive
  refine ⟨es', s', hreceive, hrun', hout, hempty, ?_⟩
  obtain ⟨-, -, -, hafter⟩ := exists_bag hns net hrun'
  rw [hempty, zero_add, System.total_append, System.total_append, total_puts_outcomes hout,
    add_zero, ← hbefore, add_comm] at hafter
  exact add_right_cancel hafter

theorem drain_submit :
    let es : List (Visible (Fin 2)) := [.submit 0 (plainPacket [0x61])]
    ∃ s es' s', (tunnel wire twoNodes).Trace es s ∧ (receiving wire twoNodes s).Trace es' s' ∧
      inTransit twoNodes s' = 0 ∧ System.total Visible.takes es' = inTransit twoNodes s := by
  intro es
  have hrun := submit_run [0x61]
  obtain ⟨es', s', hreceive, -, -, hempty, htakes⟩ := drain wire_documented twoNodes hrun
  exact ⟨_, es', s', hrun, hreceive, hempty, htakes⟩

end results

end SimpleVpn
