import Mathlib.Algebra.Order.Group.Nat
import SimpleVpn.Relay

/-!
# Traffic and forgery

What holds of every run, injections and nested packets included.

* Every reception uses up the 64 bytes of a header and what it delivers, and
  what it sends on is part of the rest. So a run cannot receive more than was put
  in flight (`traffic_bound`): forwarding, even of a node to itself, comes to an
  end, and nothing is amplified.
* The header does not depend on the packet. So an adversary that sees one sealed
  datagram can make every node accept every packet (`forge`).
-/

namespace SimpleVpn

open Exec AES VPNApplication Transition

variable {ι : Type}

/-! ## Traffic -/

/-- All steps of a run, each shown as the action it is. -/
def network (ns3 : Ns3) (net : Network ι) : System (State ι) (Action ι) where
  init := {}
  step s o s' := ∃ a : Action ι, a.Enabled ns3 net s ∧ o = some a ∧ s' = a.after s

/-- The number of bytes of some datagrams. -/
def bytesOf (l : List Datagram) : ℕ := (l.map fun d => d.payload.length).sum

/-- The number of bytes that an action other than a reception puts in flight. -/
def Action.puts : Action ι → ℕ
  | .send _ packet _ => 64 + packet.length
  | .duplicate d => d.payload.length
  | .inject header tail _ _ => header.length + tail.length
  | .receive _ _ _ _ _ | .observe _ | .drop _ _ _ => 0

/-- The number of bytes that a reception uses up: the VPN header, and what is
delivered. -/
def Action.uses : Action ι → ℕ
  | .receive _ _ _ _ events => 64 + ((taps events).map List.length).sum
  | .send _ _ _ | .observe _ | .drop _ _ _ | .duplicate _ | .inject _ _ _ _ => 0

/-- The runs of the network end in the reachable states. -/
theorem reachable_iff_trace {ns3 : Ns3} {net : Network ι} {s : State ι} :
    Reachable ns3 net s ↔ ∃ acts, (network ns3 net).Trace acts s := by
  refine ⟨?_, ?_⟩
  · intro h
    induction h with
    | refl => exact ⟨[], .nil⟩
    | tail _ hstep ih =>
      obtain ⟨acts, hrun⟩ := ih
      obtain ⟨a, ha, rfl⟩ := Action.step_iff.mp hstep
      exact ⟨acts ++ [a], hrun.emit ⟨a, ha, rfl, rfl⟩⟩
  · rintro ⟨acts, h⟩
    have hinit : Reachable ns3 net (network ns3 net).init := Relation.ReflTransGen.refl
    refine h.inv (fun _ s => Reachable ns3 net s) hinit ?_
    rintro acts s o s' hs ⟨a, ha, -, rfl⟩
    exact Relation.ReflTransGen.tail hs (Action.step_iff.mpr ⟨a, ha, rfl⟩)

section traffic

variable {ns3 : Ns3} {net : Network ι} {s : State ι}

theorem bytesOf_append (l₁ l₂ : List Datagram) :
    bytesOf (l₁ ++ l₂) = bytesOf l₁ + bytesOf l₂ := by
  rw [bytesOf, List.map_append, List.sum_append]
  rfl

theorem bytesOf_middle (d : Datagram) (l₁ l₂ : List Datagram) :
    bytesOf (l₁ ++ d :: l₂) = d.payload.length + bytesOf (l₁ ++ l₂) := by
  rw [bytesOf_append, bytesOf_append, ← add_assoc, add_comm d.payload.length, add_assoc]
  rfl

/-- A datagram that a node can receive is at least a header long. -/
theorem le_of_receivePacket {app : VPNApplication} {payload : Bytes} {events : List Event}
    (hrun : app.receivePacket ns3 payload = .ok events) : 64 ≤ payload.length := by
  obtain ⟨⟨crypthdr, packet⟩, hvpn, -⟩ := bind_eq_ok hrun
  exact (removeHeader_vpn_inv hvpn).1

/-- **What one reception uses up**: a datagram becomes at most the bytes after
its header, delivered or sent on. -/
theorem bytes_receivePacket {app : VPNApplication} {payload : Bytes} {events : List Event}
    (hrun : app.receivePacket ns3 payload = .ok events) :
    bytesOf (sends events) + (64 + ((taps events).map List.length).sum) ≤ payload.length := by
  have h64 := le_of_receivePacket hrun
  rcases receivePacket_inv hrun with ⟨rfl, -⟩ | ⟨packet, address, port, rfl, hsuffix⟩
  · have hlen : ((taps [.tapReceive (payload.drop 64) 0x0800]).map List.length).sum =
        payload.length - 64 := List.length_drop
    have hnone : bytesOf (sends [.tapReceive (payload.drop 64) 0x0800]) = 0 := rfl
    omega
  · have hle : packet.length ≤ payload.length - 64 :=
      hsuffix.length_le.trans (Nat.le_of_eq List.length_drop)
    have hsend : bytesOf (sends [.sendTo packet address port]) = packet.length := rfl
    have hnone : ((taps [.sendTo packet address port]).map List.length).sum = 0 := rfl
    omega

/-- What one action does to the bytes in flight. -/
theorem bytes_after {a : Action ι} (ha : a.Enabled ns3 net s) :
    bytesOf (a.after s).inFlight + a.uses ≤ bytesOf s.inFlight + a.puts := by
  cases a with
  | send i packet events =>
    have hafter : bytesOf (Action.after s (.send i packet events)).inFlight =
        bytesOf (sends events) + bytesOf s.inFlight := bytesOf_append _ _
    have hbytes : bytesOf (sends events) = 64 + packet.length := by
      rw [sendPacket_inv net ha, ← length_sealBytes net.cipherKey, ← List.length_append]
      rfl
    simp only [Action.uses, Action.puts]
    omega
  | receive i d l₁ l₂ events =>
    obtain ⟨hsplit, -, hrun⟩ := ha
    have hafter : bytesOf (Action.after s (.receive i d l₁ l₂ events)).inFlight =
        bytesOf (sends events) + bytesOf (l₁ ++ l₂) := bytesOf_append _ _
    have hstep := bytes_receivePacket hrun
    rw [hsplit, bytesOf_middle]
    simp only [Action.uses, Action.puts]
    omega
  | observe d => exact Nat.le_refl _
  | drop d l₁ l₂ =>
    have hafter : bytesOf (Action.after s (.drop d l₁ l₂)).inFlight = bytesOf (l₁ ++ l₂) := rfl
    rw [Action.Enabled] at ha
    rw [ha, bytesOf_middle]
    simp only [Action.uses, Action.puts]
    omega
  | duplicate d =>
    have hafter : bytesOf (Action.after s (.duplicate d)).inFlight =
        d.payload.length + bytesOf s.inFlight := rfl
    simp only [Action.uses, Action.puts]
    omega
  | inject header tail address port =>
    have hafter : bytesOf (Action.after s (.inject header tail address port)).inFlight =
        (header ++ tail).length + bytesOf s.inFlight := rfl
    rw [List.length_append] at hafter
    simp only [Action.uses, Action.puts]
    omega

/-- **The traffic of a run.** In every run, whatever the adversary does, the
bytes in flight, 64 bytes for every reception and the bytes delivered are together
no more than the bytes put in flight by sending, copying and injecting. -/
theorem traffic_bound {acts : List (Action ι)} (hrun : (network ns3 net).Trace acts s) :
    bytesOf s.inFlight + System.total Action.uses acts ≤ System.total Action.puts acts := by
  refine hrun.budget (fun s => bytesOf s.inFlight) _ _ rfl ?_
  rintro s o s' ⟨a, ha, rfl, rfl⟩
  rw [Option.toList_some, System.total_singleton, System.total_singleton]
  exact bytes_after ha

end traffic

theorem traffic_bound_send :
    let acts : List (Action (Fin 2)) := [.send 0 (plainPacket [0x61])
      [.sendTo (sealBytes zeroKey ++ plainPacket [0x61]) 0xc0a80001 50000]]
    ∃ s, (network wire twoNodes).Trace acts s ∧
      bytesOf s.inFlight + System.total Action.uses acts ≤ System.total Action.puts acts := by
  intro acts
  have hrun : (network wire twoNodes).Trace acts _ :=
    .emit .nil ⟨.send 0 (plainPacket [0x61]) _, send_twoNodes 0 _, rfl, rfl⟩
  exact ⟨_, hrun, traffic_bound hrun⟩

/-! ## Forgery -/

/-- What a node that accepts a packet does: it has delivered it, or has put in
flight what it forwards. -/
def State.Accepted (s : State ι) (net : Network ι) (i : ι) (p : Packet) : Prop :=
  if (net.app i).clientVPNAddress = p.destination then (i, p.bytes) ∈ s.delivered
  else p.forward ∈ s.inFlight

/-- A node that is not the destination of a packet forwards it, whatever the
header is. -/
theorem receivePacket_forward {ns3 : Ns3} (hns : ns3.Documented) {app : VPNApplication}
    {header : Bytes} (hlen : header.length = 64) {p : Packet}
    (hother : app.clientVPNAddress ≠ p.destination) :
    app.receivePacket ns3 (header ++ p.bytes) =
      .ok [.sendTo p.forward.payload p.forward.address p.forward.port] := by
  rw [Packet.bytes, receivePacket_other hns hlen p.isIpv4 (Nat.le_of_eq p.length_head.symm) p.body
    hother, drop_udp p.length_head]
  rfl

/-- **Forgery.** From any state with a datagram of at least 64 bytes in flight,
the adversary can make any node accept any packet without anybody sending
anything: the first 64 bytes of the datagram do as a header, if the packet is to
be forwarded, and those of a sealed datagram do in any case. -/
theorem forge {ns3 : Ns3} (hns : ns3.Documented) (net : Network ι) {s : State ι} {d : Datagram}
    (hd : d ∈ s.inFlight) (hlen : 64 ≤ d.payload.length) {i : ι} {address : Ipv4Address}
    (haddress : address ∈ net.addresses i) (p : Packet)
    (hseal : (net.app i).clientVPNAddress = p.destination →
      sealBytes net.cipherKey <+: d.payload) :
    ∃ s', Relation.ReflTransGen (Step ns3 net) s s' ∧ s'.sent = s.sent ∧ s'.Accepted net i p := by
  obtain ⟨header, hheader⟩ : ∃ header, header = d.payload.take 64 := ⟨_, rfl⟩
  have hlen : header.length = 64 := hheader ▸ List.length_take_of_le hlen
  have hpre : header <+: d.payload := hheader ▸ List.take_prefix _ _
  have hobserve : Relation.ReflTransGen (Step ns3 net) s _ := .single (.observe d hd)
  have hinject := hobserve.tail (.inject d header p.bytes address (net.app i).clientPort
    List.mem_cons_self hlen hpre)
  by_cases hmine : (net.app i).clientVPNAddress = p.destination
  · -- 64 observed bytes of a sealed datagram are its header
    have hsealed : header = sealBytes net.cipherKey := by
      refine List.IsPrefix.eq_of_length ?_ (hlen.trans (length_sealBytes _).symm)
      exact List.prefix_of_prefix_length_le hpre (hseal hmine)
        (Nat.le_of_eq (hlen.trans (length_sealBytes _).symm))
    have hrun := receivePacket_parcel hns net i p
    rw [if_pos hmine, ← hsealed] at hrun
    have hreceive := hinject.tail (.receive i _ [] _ _ rfl haddress rfl hrun)
    refine ⟨_, hreceive, rfl, ?_⟩
    rw [State.Accepted, if_pos hmine]
    exact List.mem_cons_self
  · have hrun := receivePacket_forward hns hlen hmine
    have hreceive := hinject.tail (.receive i _ [] _ _ rfl haddress rfl hrun)
    refine ⟨_, hreceive, rfl, ?_⟩
    rw [State.Accepted, if_neg hmine]
    exact List.mem_cons_self

theorem forge_twoNodes : ∃ s, Reachable wire twoNodes s ∧ s.sent = [plainPacket []] ∧
    (1, plainPacket [0x61]) ∈ s.delivered := by
  let d : Datagram := ⟨sealBytes zeroKey ++ plainPacket [], 0xc0a80001, 50000⟩
  let s : State (Fin 2) := { inFlight := [d], sent := [plainPacket []] }
  have hsend : Reachable wire twoNodes s :=
    .tail .refl (.send 0 (plainPacket []) _ (send_twoNodes 0 _))
  have hd : d ∈ s.inFlight := List.mem_cons_self
  have hseal : sealBytes twoNodes.cipherKey <+: d.payload := List.prefix_append _ _
  have hlen : 64 ≤ d.payload.length := Nat.le_trans (Nat.le_of_eq (length_sealBytes _).symm)
    hseal.length_le
  obtain ⟨s', hrun, hsent, haccept⟩ := forge wire_documented twoNodes hd hlen
    listens_twoNodes.1 (plainUdp [0x61]) fun _ => hseal
  exact ⟨s', hsend.trans hrun, hsent, haccept⟩

end SimpleVpn
