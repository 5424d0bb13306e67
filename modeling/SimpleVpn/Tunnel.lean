import Mathlib.Logic.Relation
import SimpleVpn.Application

/-!
# The tunnel as a protocol

Any number of VPN applications with one cipher key, the datagrams in flight
between them, and an adversary that sees and rearranges the datagrams but does
not know the key. A run is any sequence of steps in any order.

The header in front of a packet is sealed under the key, but it says nothing
about the packet: it is the same 64 bytes for every packet
(`VPNApplication.sendPacket_eq`). So what can be said about a delivered packet is
that such a header stood in front of it and where its bytes come from
(`Delivery`), and not that they were sent.

The keys are good, so a run is the same whether the nodes log or not
(`VPNApplication.receivePacketLogging_eq`).
-/

namespace SimpleVpn

open Exec AES VPNApplication

/-- A datagram in flight. -/
structure Datagram : Type where
  payload : Bytes
  address : Ipv4Address
  port : UInt16
  deriving DecidableEq

/-- The applications, one for each node, and the addresses of each node in the
underlying network. The applications share a cipher key of 32 hex digits. -/
structure Network (ι : Type) : Type where
  /-- the application of a node -/
  app : ι → VPNApplication
  /-- the addresses at which a node receives datagrams -/
  addresses : ι → List Ipv4Address
  /-- the key of all applications -/
  cipherKey : Str
  shared : ∀ i, (app i).cipherKey = cipherKey
  valid : ValidKey aes128 cipherKey

/-- The state of a run: what is in flight, what the adversary has seen, and the
history of the run. -/
structure State (ι : Type) : Type where
  /-- the datagrams in flight -/
  inFlight : List Datagram := []
  /-- the datagrams the adversary has observed -/
  observed : List Datagram := []
  /-- the packets passed to `SendPacket` -/
  sent : List Bytes := []
  /-- what the adversary has put after 64 observed bytes -/
  injected : List Bytes := []
  /-- the payloads that `ReceivePacket` has sent on -/
  forwarded : List Bytes := []
  /-- the packets delivered to a VPN interface -/
  delivered : List (ι × Bytes) := []

/-- The datagrams among the events of a handler. -/
def sends (events : List Event) : List Datagram :=
  events.filterMap fun
    | .sendTo packet address port => some ⟨packet, address, port⟩
    | .tapReceive _ _ => none

/-- The packets delivered to the VPN interface among the events of a handler. -/
def taps (events : List Event) : List Bytes :=
  events.filterMap fun
    | .sendTo _ _ _ => none
    | .tapReceive packet _ => some packet

variable {ι : Type}

/-- One step of a run. -/
inductive Step (ns3 : Ns3) (net : Network ι) : State ι → State ι → Prop
  /-- a node sends a packet through its VPN interface -/
  | send {s : State ι} (i : ι) (packet : Bytes) (events : List Event)
      (hrun : (net.app i).sendPacket packet = .ok (true, events)) :
      Step ns3 net s { s with
        inFlight := sends events ++ s.inFlight
        sent := packet :: s.sent }
  /-- a node receives a datagram that is addressed to its socket -/
  | receive {s : State ι} (i : ι) (d : Datagram) (l₁ l₂ : List Datagram) (events : List Event)
      (hflight : s.inFlight = l₁ ++ d :: l₂) (haddress : d.address ∈ net.addresses i)
      (hport : d.port = (net.app i).clientPort)
      (hrun : (net.app i).receivePacket ns3 d.payload = .ok events) :
      Step ns3 net s { s with
        inFlight := sends events ++ (l₁ ++ l₂)
        forwarded := (sends events).map Datagram.payload ++ s.forwarded
        delivered := (taps events).map (Prod.mk i) ++ s.delivered }
  /-- the adversary looks at a datagram -/
  | observe {s : State ι} (d : Datagram) (hd : d ∈ s.inFlight) :
      Step ns3 net s { s with observed := d :: s.observed }
  /-- the adversary takes a datagram away -/
  | drop {s : State ι} (d : Datagram) (l₁ l₂ : List Datagram)
      (hflight : s.inFlight = l₁ ++ d :: l₂) :
      Step ns3 net s { s with inFlight := l₁ ++ l₂ }
  /-- the adversary copies a datagram -/
  | duplicate {s : State ι} (d : Datagram) (hd : d ∈ s.inFlight) :
      Step ns3 net s { s with inFlight := d :: s.inFlight }
  /-- the adversary sends 64 bytes of an observed datagram and bytes of its choice -/
  | inject {s : State ι} (d : Datagram) (header tail : Bytes) (address : Ipv4Address)
      (port : UInt16) (hd : d ∈ s.observed) (hlen : header.length = 64)
      (hheader : header <+: d.payload) :
      Step ns3 net s { s with
        inFlight := ⟨header ++ tail, address, port⟩ :: s.inFlight
        injected := tail :: s.injected }

/-- A state that some run reaches. -/
def Reachable (ns3 : Ns3) (net : Network ι) (s : State ι) : Prop :=
  Relation.ReflTransGen (Step ns3 net) {} s

/-! ## What one step can do -/

theorem Network.validKey (net : Network ι) (i : ι) : ValidKey aes128 (net.app i).cipherKey := by
  rw [net.shared i]
  exact net.valid

/-- What `SendPacket` puts in flight: one datagram, the sealed packet. -/
theorem sendPacket_inv (net : Network ι) {i : ι} {packet : Bytes} {events : List Event}
    (hrun : (net.app i).sendPacket packet = .ok (true, events)) :
    sends events = [⟨sealBytes net.cipherKey ++ packet, (net.app i).serverAddress,
      (net.app i).serverPort⟩] := by
  rw [sendPacket_eq (net.validKey i), net.shared i] at hrun
  obtain ⟨-, rfl⟩ := Prod.mk.inj (Except.ok.inj hrun)
  rfl

/-- `RemoveHeader` leaves an end of the packet. -/
theorem removeHeader_suffix {H : Type} {deserialize : Bytes → Exec (H × ℕ)} {packet rest : Bytes}
    {h : H} (hrun : removeHeader deserialize packet = .ok (h, rest)) : rest <:+ packet := by
  obtain ⟨⟨h', size⟩, -, hrest⟩ := bind_eq_ok hrun
  obtain ⟨-, rfl⟩ := Prod.mk.inj (Except.ok.inj hrest)
  exact List.drop_suffix _ _

/-- The VPN header is the first 64 bytes, if it can be read. -/
theorem removeHeader_vpn_inv {packet rest : Bytes} {h : VpnHeader}
    (hrun : removeHeader VpnHeader.deserialize packet = .ok (h, rest)) :
    64 ≤ packet.length ∧ h = VpnHeader.ofBytes packet ∧ rest = packet.drop 64 := by
  obtain ⟨⟨h', size⟩, hread, hrest⟩ := bind_eq_ok hrun
  have h64 := VpnHeader.le_of_deserialize hread
  rw [VpnHeader.deserialize_eq h64] at hread
  obtain ⟨rfl, rfl⟩ := Prod.mk.inj (Except.ok.inj hread)
  obtain ⟨rfl, rfl⟩ := Prod.mk.inj (Except.ok.inj hrest)
  exact ⟨h64, rfl, rfl⟩

theorem isMine_inv {app : VPNApplication} {header : VpnHeader} {destination : Ipv4Address}
    (hmine : app.isMine header destination = .ok true) :
    app.clientVPNAddress = destination ∧ header.Accepts app.cipherKey := by
  rw [isMine] at hmine
  by_cases h : app.clientVPNAddress = destination
  · rw [if_pos h] at hmine
    obtain ⟨decrypted, hrun, hsame⟩ := bind_eq_ok hmine
    have horigin : header.sentOrigin = decrypted := of_decide_eq_true (Except.ok.inj hsame)
    exact ⟨h, hrun.trans (congrArg Except.ok horigin.symm)⟩
  · rw [if_neg h] at hmine
    cases hmine

/-- What `ReceivePacket` has found of a payload whose packet it delivers. -/
structure Admits (ns3 : Ns3) (app : VPNApplication) (payload : Bytes) : Prop where
  /-- there is a whole header -/
  length : 64 ≤ payload.length
  /-- it passes the check -/
  accepts : (VpnHeader.ofBytes payload).Accepts app.cipherKey
  /-- what follows is for the VPN address -/
  destination : ∃ h size, ns3.ipv4Deserialize (payload.drop 64) = .ok (h, size) ∧
    ns3.getDestination h = app.clientVPNAddress

/-- What `ReceivePacket` does: it delivers what follows the VPN header, if that
passes, or sends an end of it on. -/
theorem receivePacket_inv {ns3 : Ns3} {app : VPNApplication} {payload : Bytes}
    {events : List Event} (hrun : app.receivePacket ns3 payload = .ok events) :
    (events = [.tapReceive (payload.drop 64) 0x0800] ∧ Admits ns3 app payload) ∨
      ∃ packet address port, events = [.sendTo packet address port] ∧
        packet <:+ payload.drop 64 := by
  obtain ⟨⟨crypthdr, packet⟩, hvpn, hrun⟩ := bind_eq_ok hrun
  obtain ⟨h64, rfl, rfl⟩ := removeHeader_vpn_inv hvpn
  obtain ⟨-, -, hrun⟩ := bind_eq_ok hrun
  obtain ⟨⟨ipHeader, copy⟩, hip, hrun⟩ := bind_eq_ok hrun
  obtain ⟨⟨udpHeader, rest⟩, -, hrun⟩ := bind_eq_ok hrun
  obtain ⟨mine, hmine, hrun⟩ := bind_eq_ok hrun
  cases mine with
  | true =>
    obtain ⟨hdest, hacc⟩ := isMine_inv hmine
    obtain ⟨⟨h, size⟩, hread, hrest⟩ := bind_eq_ok hip
    obtain ⟨rfl, -⟩ := Prod.mk.inj (Except.ok.inj hrest)
    exact Or.inl ⟨(Except.ok.inj hrun).symm, h64, hacc, h, size, hread, hdest.symm⟩
  | false =>
    obtain ⟨⟨ipHeader', packet'⟩, hip', hrun⟩ := bind_eq_ok hrun
    obtain ⟨⟨udpHeader', packet''⟩, hudp, hrun⟩ := bind_eq_ok hrun
    refine Or.inr ⟨packet'', _, _, (Except.ok.inj hrun).symm, ?_⟩
    exact (removeHeader_suffix hudp).trans (removeHeader_suffix hip')

/-! ## Where bytes come from -/

namespace State

/-- A packet that a node has sent, or bytes that the adversary has injected. -/
def Offered (s : State ι) (packet : Bytes) : Prop := packet ∈ s.sent ∨ packet ∈ s.injected

/-- What may stand behind a header in flight: a packet that was sent, behind the
header that `SendPacket` makes; bytes that the adversary has put behind an observed
header; or, with its header, what a node has sent on. -/
def Carried (s : State ι) (net : Network ι) (header packet : Bytes) : Prop :=
  (header = sealBytes net.cipherKey ∧ packet ∈ s.sent) ∨
    ((∃ o ∈ s.observed, header <+: o.payload) ∧ packet ∈ s.injected) ∨
    header ++ packet ∈ s.forwarded

/-- The end of an offered packet. -/
def EndOf (s : State ι) (v : Bytes) : Prop := ∃ packet, s.Offered packet ∧ v <:+ packet

/-- The invariant of a run. -/
structure Traced (s : State ι) (net : Network ι) : Prop where
  /-- every datagram in flight is accounted for -/
  inFlight : ∀ d ∈ s.inFlight, s.Carried net (d.payload.take 64) (d.payload.drop 64)
  /-- whatever was sent on is the end of an offered packet -/
  forwarded : ∀ f ∈ s.forwarded, s.EndOf f

/-- The histories of `s` are part of those of `s'`. -/
structure Grows (s s' : State ι) : Prop where
  observed : s.observed ⊆ s'.observed
  sent : s.sent ⊆ s'.sent
  injected : s.injected ⊆ s'.injected
  forwarded : s.forwarded ⊆ s'.forwarded

variable {s s' : State ι} {net : Network ι}

theorem Grows.offered (h : s.Grows s') {packet : Bytes} (hp : s.Offered packet) :
    s'.Offered packet :=
  hp.imp (fun hs => h.sent hs) fun hi => h.injected hi

theorem Grows.carried (h : s.Grows s') {header packet : Bytes} (hp : s.Carried net header packet) :
    s'.Carried net header packet := by
  rcases hp with ⟨hseal, hsent⟩ | ⟨⟨o, ho, hpre⟩, hinj⟩ | hf
  · exact Or.inl ⟨hseal, h.sent hsent⟩
  · exact Or.inr (Or.inl ⟨⟨o, h.observed ho, hpre⟩, h.injected hinj⟩)
  · exact Or.inr (Or.inr (h.forwarded hf))

theorem Grows.endOf (h : s.Grows s') {v : Bytes} (hv : s.EndOf v) : s'.EndOf v := by
  obtain ⟨packet, hoff, hsuffix⟩ := hv
  exact ⟨packet, h.offered hoff, hsuffix⟩

/-- What follows the header of an accounted datagram ends a packet that was offered. -/
theorem Traced.endOf (hs : s.Traced net) {header packet : Bytes}
    (h : s.Carried net header packet) : s.EndOf packet := by
  rcases h with ⟨-, hsent⟩ | ⟨-, hinj⟩ | hf
  · exact ⟨packet, Or.inl hsent, List.suffix_rfl⟩
  · exact ⟨packet, Or.inr hinj, List.suffix_rfl⟩
  · obtain ⟨p, hoff, hsuffix⟩ := hs.forwarded _ hf
    exact ⟨p, hoff, (List.suffix_append header packet).trans hsuffix⟩

end State

open State

theorem Step.grows {ns3 : Ns3} {net : Network ι} {s s' : State ι} (h : Step ns3 net s s') :
    s.Grows s' := by
  have hsame : ∀ {α : Type} (l : List α), l ⊆ l := List.Subset.refl
  cases h with
  | send => exact ⟨hsame _, List.subset_cons_self _ _, hsame _, hsame _⟩
  | receive => exact ⟨hsame _, hsame _, hsame _, List.subset_append_right _ _⟩
  | observe => exact ⟨List.subset_cons_self _ _, hsame _, hsame _, hsame _⟩
  | inject => exact ⟨hsame _, hsame _, List.subset_cons_self _ _, hsame _⟩
  | drop | duplicate => exact ⟨hsame _, hsame _, hsame _, hsame _⟩

theorem mem_insert_middle {α : Type} {a b : α} {l₁ l₂ : List α} (h : a ∈ l₁ ++ l₂) :
    a ∈ l₁ ++ b :: l₂ := by
  rcases List.mem_append.mp h with h | h
  · exact List.mem_append_left _ h
  · exact List.mem_append_right _ (List.mem_cons_of_mem _ h)

/-- **Every step keeps the account.** -/
theorem Step.traced {ns3 : Ns3} {net : Network ι} {s s' : State ι} (h : Step ns3 net s s')
    (hs : s.Traced net) : s'.Traced net := by
  have hgrow := h.grows
  have hold : ∀ d ∈ s.inFlight, s'.Carried net (d.payload.take 64) (d.payload.drop 64) :=
    fun d hd => hgrow.carried (hs.inFlight d hd)
  have hfor : ∀ f ∈ s.forwarded, s'.EndOf f := fun f hf => hgrow.endOf (hs.forwarded f hf)
  cases h with
  | send i packet events hrun =>
    refine ⟨?_, hfor⟩
    rw [sendPacket_inv net hrun]
    refine List.forall_mem_cons.mpr ⟨Or.inl ⟨List.take_left' (length_sealBytes _), ?_⟩, hold⟩
    rw [List.drop_left' (length_sealBytes _)]
    exact List.mem_cons_self
  | receive i d l₁ l₂ events hflight _ _ hrun =>
    have hd := hs.inFlight d (hflight ▸ List.mem_append_cons_self)
    have hrest : ∀ e ∈ l₁ ++ l₂, e ∈ s.inFlight := fun e he => hflight ▸ mem_insert_middle he
    rcases receivePacket_inv hrun with ⟨rfl, -⟩ | ⟨packet, address, port, rfl, hsuffix⟩
    · exact ⟨fun e he => hold e (hrest e he), hfor⟩
    · refine ⟨List.forall_mem_cons.mpr ⟨Or.inr (Or.inr ?_), fun e he => hold e (hrest e he)⟩,
        List.forall_mem_cons.mpr ⟨?_, hfor⟩⟩
      · rw [List.take_append_drop]
        exact List.mem_cons_self
      · obtain ⟨p, hoff, hend⟩ := hs.endOf hd
        exact ⟨p, hgrow.offered hoff, hsuffix.trans hend⟩
  | observe d hd => exact ⟨hold, hfor⟩
  | drop d l₁ l₂ hflight => exact ⟨fun e he => hold e (hflight ▸ mem_insert_middle he), hfor⟩
  | duplicate d hd => exact ⟨List.forall_mem_cons.mpr ⟨hold d hd, hold⟩, hfor⟩
  | inject o header tail address port ho hlen hheader =>
    refine ⟨List.forall_mem_cons.mpr ⟨Or.inr (Or.inl ?_), hold⟩, hfor⟩
    rw [List.take_left' hlen, List.drop_left' hlen]
    exact ⟨⟨o, ho, hheader⟩, List.mem_cons_self⟩

/-- Every reachable state is accounted for. -/
theorem Reachable.traced {ns3 : Ns3} {net : Network ι} {s : State ι} (h : Reachable ns3 net s) :
    s.Traced net := by
  induction h with
  | refl => exact ⟨nofun, nofun⟩
  | tail _ hstep ih => exact hstep.traced ih

/-- How node `i` comes to deliver a packet: in state `s` there is a datagram
that carries it behind a header. -/
structure Delivery (ns3 : Ns3) (net : Network ι) (s : State ι) (i : ι) (packet : Bytes)
    (d : Datagram) (header : Bytes) : Prop where
  /-- the datagram is in flight -/
  inFlight : d ∈ s.inFlight
  /-- to the socket of the node -/
  socket : d.address ∈ net.addresses i ∧ d.port = (net.app i).clientPort
  /-- it is the header and the packet -/
  payload : d.payload = header ++ packet
  length : header.length = 64
  /-- the header passes the check under the key of the network -/
  accepts : (VpnHeader.ofBytes header).Accepts net.cipherKey
  /-- the packet is for the VPN address of the node -/
  destination : ∃ h size, ns3.ipv4Deserialize packet = .ok (h, size) ∧
    ns3.getDestination h = (net.app i).clientVPNAddress
  /-- one of three things has put the packet behind the header -/
  origin : s.Carried net header packet
  /-- and it is the end of what was sent or injected -/
  endOf : ∃ p, (p ∈ s.sent ∨ p ∈ s.injected) ∧ packet <:+ p

/-- What is known of an accounted datagram whose packet a node delivers. -/
theorem State.Traced.delivery {ns3 : Ns3} {net : Network ι} {s : State ι} (hs : s.Traced net)
    {i : ι} {d : Datagram} (hd : d ∈ s.inFlight)
    (hsocket : d.address ∈ net.addresses i ∧ d.port = (net.app i).clientPort)
    (hadmits : Admits ns3 (net.app i) d.payload) :
    Delivery ns3 net s i (d.payload.drop 64) d (d.payload.take 64) := by
  have hcarried := hs.inFlight d hd
  have hlen : (d.payload.take 64).length = 64 := List.length_take_of_le hadmits.length
  have hsplit : d.payload.take 64 ++ d.payload.drop 64 = d.payload := List.take_append_drop _ _
  have hread : VpnHeader.ofBytes (d.payload.take 64) = VpnHeader.ofBytes d.payload := by
    rw [← VpnHeader.ofBytes_append (Nat.le_of_eq hlen.symm) (d.payload.drop 64), hsplit]
  refine ⟨hd, hsocket, hsplit.symm, hlen, ?_, hadmits.destination, hcarried, hs.endOf hcarried⟩
  rw [hread, ← net.shared i]
  exact hadmits.accepts

/-- **What a step delivers**: at most one packet, from a datagram in flight. -/
theorem Step.delivery {ns3 : Ns3} {net : Network ι} {s s' : State ι} (h : Step ns3 net s s')
    (hs : s.Traced net) {i : ι} {packet : Bytes} (hdel : (i, packet) ∈ s'.delivered) :
    (i, packet) ∈ s.delivered ∨ (s'.delivered = (i, packet) :: s.delivered ∧
      ∃ d header, Delivery ns3 net s i packet d header) := by
  cases h with
  | receive j d l₁ l₂ events hflight haddress hport hrun =>
    have hd : d ∈ s.inFlight := hflight ▸ List.mem_append_cons_self
    rcases receivePacket_inv hrun with ⟨rfl, hadmits⟩ | ⟨rest, address, port, rfl, -⟩
    · rcases List.mem_cons.mp hdel with hnew | hold
      · obtain ⟨rfl, rfl⟩ := Prod.mk.inj hnew
        exact Or.inr ⟨rfl, d, _, hs.delivery hd ⟨haddress, hport⟩ hadmits⟩
      · exact Or.inl hold
    · exact Or.inl hdel
  | send | observe | drop | duplicate | inject => exact Or.inl hdel

/-- **Where delivered packets come from**, in any run: a packet has been delivered
in a step from some state `s₀`, out of a datagram that was in flight there to the
node, behind 64 bytes that pass the check (`Delivery`). -/
theorem delivered_origin (ns3 : Ns3) (net : Network ι) {s : State ι}
    (hreach : Reachable ns3 net s) {i : ι} {packet : Bytes} (hdel : (i, packet) ∈ s.delivered) :
    ∃ s₀ s₁ d header, Reachable ns3 net s₀ ∧ Step ns3 net s₀ s₁ ∧
      s₁.delivered = (i, packet) :: s₀.delivered ∧
      Relation.ReflTransGen (Step ns3 net) s₁ s ∧ Delivery ns3 net s₀ i packet d header := by
  induction hreach with
  | refl => exact absurd hdel List.not_mem_nil
  | tail hrun hstep ih =>
    rcases hstep.delivery (Reachable.traced hrun) hdel with hold | ⟨hnew, d, header, h⟩
    · obtain ⟨s₀, s₁, d, header, h₀, hfirst, hnew, hrest, h⟩ := ih hold
      exact ⟨s₀, s₁, d, header, h₀, hfirst, hnew, hrest.tail hstep, h⟩
    · exact ⟨_, _, d, header, hrun, hstep, hnew, .refl, h⟩

/-! ## A packet that nobody sent -/

/-- Two nodes with the zero key. Node 1 has the VPN address 10.1.1.1 and is the
server of both. -/
def twoNodes : Network (Fin 2) where
  app i :=
    { serverAddress := 0xc0a80001
      serverPort := 50000
      clientVPNAddress := if i = 1 then 0x0a010101 else 0x0a010102
      cipherKey := zeroKey }
  addresses i := if i = 1 then [0xc0a80001] else [0xc0a80002]
  cipherKey := zeroKey
  shared _ := rfl
  valid := validKey_zeroKey

/-- A packet to the VPN address of node 1. -/
def plainPacket (payload : Bytes) : Bytes := plainIpv4Header 17 ++ (plainUdpHeader ++ payload)

/-- A packet to the socket of node 1. -/
def nestedPacket (payload : Bytes) : Bytes :=
  [0x45, 0, 0, 28, 0, 0, 0, 0, 64, 17, 0, 0, 10, 1, 1, 2, 192, 168, 0, 1] ++
    ([0xc3, 0x50, 0xc3, 0x50, 0, 8, 0, 0] ++ payload)

theorem send_twoNodes (i : Fin 2) (packet : Bytes) : (twoNodes.app i).sendPacket packet =
    .ok (true, [.sendTo (sealBytes zeroKey ++ packet) 0xc0a80001 50000]) :=
  sendPacket_eq validKey_zeroKey packet

theorem receive_plainPacket (payload : Bytes) : (twoNodes.app 1).receivePacket wire
    (sealBytes zeroKey ++ plainPacket payload) = .ok [.tapReceive (plainPacket payload) 0x0800] :=
  receivePacket_seal wire_documented validKey_zeroKey validKey_zeroKey rfl (isIpv4Header_plain 17)
    (by decide) payload rfl

/-- Node 1 is the destination of a nested packet but not by its VPN address: it
sends the payload on to itself. -/
theorem receive_nestedPacket (payload : Bytes) : (twoNodes.app 1).receivePacket wire
    (sealBytes zeroKey ++ nestedPacket payload) = .ok [.sendTo payload 0xc0a80001 50000] :=
  receivePacket_other wire_documented (length_sealBytes zeroKey)
    (⟨⟨5, by decide, by decide, rfl, rfl⟩, rfl, rfl⟩ : IsIpv4Header _ 17 0xc0a80001) (by decide)
    payload (by decide)

/-- After one honest packet, the adversary puts its header in front of another. -/
theorem injected_run : ∃ s, Reachable wire twoNodes s ∧
    (1, plainPacket [0x61]) ∈ s.delivered ∧ plainPacket [0x61] ∉ s.sent := by
  have hsend : Reachable wire twoNodes _ :=
    .tail .refl (.send 0 (plainPacket []) _ (send_twoNodes 0 _))
  have hobserve := hsend.tail (.observe _ List.mem_cons_self)
  have hinject := hobserve.tail (.inject _ (sealBytes zeroKey) (plainPacket [0x61]) 0xc0a80001 50000
    List.mem_cons_self (length_sealBytes _) (List.prefix_append _ _))
  have hreceive := hinject.tail (.receive 1 _ [] _ _ rfl (by decide) rfl (receive_plainPacket _))
  have hnot : plainPacket [0x61] ∉ [plainPacket []] := by decide
  exact ⟨_, hreceive, List.mem_cons_self, hnot⟩

/-- Without the adversary: a sealed packet as the payload of an honest one. -/
theorem nested_run : ∃ s, Reachable wire twoNodes s ∧
    (1, plainPacket [0x61]) ∈ s.delivered ∧ plainPacket [0x61] ∉ s.sent ∧ s.injected = [] := by
  have hsend : Reachable wire twoNodes _ := .tail .refl
    (.send 0 (nestedPacket (sealBytes zeroKey ++ plainPacket [0x61])) _ (send_twoNodes 0 _))
  have hforward := hsend.tail (.receive 1 _ [] _ _ rfl (by decide) rfl (receive_nestedPacket _))
  have hreceive := hforward.tail (.receive 1 _ [] _ _ rfl (by decide) rfl (receive_plainPacket _))
  have hnot : plainPacket [0x61] ∉ [nestedPacket (sealBytes zeroKey ++ plainPacket [0x61])] := by
    intro h
    have hlen := congrArg List.length (List.mem_singleton.mp h)
    simp [plainPacket, nestedPacket, plainIpv4Header, plainUdpHeader, length_sealBytes] at hlen
  exact ⟨_, hreceive, List.mem_cons_self, hnot, rfl⟩

/-- **A packet that nobody sent is delivered**, with the adversary's help or
without it. -/
theorem delivered_not_sent :
    (∃ s, Reachable wire twoNodes s ∧
      (1, plainPacket [0x61]) ∈ s.delivered ∧ plainPacket [0x61] ∉ s.sent) ∧
    ∃ s, Reachable wire twoNodes s ∧
      (1, plainPacket [0x61]) ∈ s.delivered ∧ plainPacket [0x61] ∉ s.sent ∧ s.injected = [] :=
  ⟨injected_run, nested_run⟩

/-- The packet of the adversary, traced back to the datagram that carried it. -/
theorem delivered_origin_injected : ∃ s, Reachable wire twoNodes s ∧
    (1, plainPacket [0x61]) ∈ s.delivered ∧ plainPacket [0x61] ∉ s.sent ∧
    ∃ s₀ d header, Relation.ReflTransGen (Step wire twoNodes) s₀ s ∧
      Delivery wire twoNodes s₀ 1 (plainPacket [0x61]) d header := by
  obtain ⟨s, hreach, hdel, hnot⟩ := injected_run
  obtain ⟨s₀, s₁, d, header, -, hstep, -, hrest, h⟩ := delivered_origin wire twoNodes hreach hdel
  exact ⟨s, hreach, hdel, hnot, s₀, d, header, hrest.head hstep, h⟩

end SimpleVpn
