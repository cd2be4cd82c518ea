import GatewayModel.Net.Gateway
import GatewayModel.Net.Theorems.FlowKey
import GatewayModel.Pool.Theorems.Safety

open Go Execution RoundRobin Pool Pool.State

namespace Net

variable (checksumIBM : Bytes → UInt16) {buff frame pkt : Bytes} {s : Pool.State}

section Receive

theorem readFrom_stored :
    (readFrom buff frame).1.take (readFrom buff frame).2 = frame.take buff.length := by
  have hl : (frame.take buff.length).length = min frame.length buff.length := by
    rw [List.length_take, Nat.min_comm]
  rw [readFrom, ← hl, List.take_left]

theorem index_readFrom (h : i < min frame.length buff.length) :
    index (readFrom buff frame).1 i = .ok (octet frame i) := by
  have hf : i < frame.length := by omega
  have ht : i < (frame.take buff.length).length := by
    rw [List.length_take]
    omega
  have ho := index_octet hf
  rw [index_eq_ok] at ho ⊢
  rw [readFrom, List.getElem?_append_left ht, List.getElem?_take_of_lt (by omega), ho]

theorem unmarshalBinary_readFrom (h : 14 ≤ min frame.length buff.length) :
    unmarshalBinary ((readFrom buff frame).1.take (readFrom buff frame).2) =
      some ((frame.take buff.length).drop 14) := by
  have hn : ¬ (frame.take buff.length).length < 14 := by
    rw [List.length_take]
    omega
  rw [readFrom_stored, unmarshalBinary, if_neg hn]

theorem index_payload (h : 24 ≤ min frame.length buff.length) :
    index ((frame.take buff.length).drop 14) 9 = .ok (octet frame 23) := by
  have ho : index frame 23 = .ok (octet frame 23) := index_octet (by omega)
  rw [index_eq_ok] at ho ⊢
  rw [List.getElem?_drop, List.getElem?_take_of_lt (by omega), ho]

-- The test for the port 67 looks at the protocol field again.
theorem readFromNetworkInterface_eq (h : 24 ≤ min frame.length buff.length) :
    readFromNetworkInterface buff frame = .ok ((readFrom buff frame).1,
      if octet frame 23 = 17 then .started ((frame.take buff.length).drop 14) else .ignored) := by
  have hm : unmarshalBinary ((readFrom buff frame).1.take (readFrom buff frame).2) =
      some ((frame.take buff.length).drop 14) := unmarshalBinary_readFrom (by omega)
  have hb : index (readFrom buff frame).1 23 = .ok (octet frame 23) := index_readFrom (by omega)
  simp only [readFromNetworkInterface, hm, index_payload h, hb, ok_bind]
  split
  case h_1 hu =>
    have hn : ¬ octet frame 23 = 67 := by simp [hu]
    rw [if_neg hn, if_pos hu]
    rfl
  case h_2 hu =>
    rw [if_neg hu]
    rfl

theorem le_of_readFromNetworkInterface {round : Round}
    (h : readFromNetworkInterface buff frame = .ok (buff', round)) (hn : round ≠ .fatal) :
    24 ≤ min frame.length buff.length := by
  simp only [readFromNetworkInterface, readFrom_stored] at h
  split at h
  case h_1 => cases h; contradiction
  case h_2 ipBuff hm =>
    obtain ⟨_, hi, _⟩ := bind_eq_ok.mp h
    have hlt := (List.getElem?_eq_some_iff.mp (index_eq_ok.mp hi)).fst
    unfold unmarshalBinary at hm
    split at hm
    case isTrue  => contradiction
    case isFalse =>
      cases hm
      rw [List.length_drop, List.length_take] at hlt
      omega

end Receive

section Handle

theorem getChan_initRuleMap (h : 24 ≤ pkt.length) :
    (∃ code, getChan checksumIBM (initRuleMap s) pkt = do
      let (s, reply) ← s.get code
      return (initRuleMap s, reply.conn, reply.lock)) ∨
    getChan checksumIBM (initRuleMap s) pkt = .ok (initRuleMap s, none, none) := by
  simp only [initRuleMap, getChan, natRule_of_le h, pktCrc16_of_le h, bind, Except.bind]
  split
  case isTrue  => exact .inl ⟨_, rfl⟩
  case isFalse => exact .inr rfl

theorem handleIncomingRequestsFromIPv4_ok (hr : PoolRun natFluxMaxAge ls s)
    (hl : live (trace ls) ≠ []) (h : 24 ≤ pkt.length) :
    ∃ s' o, handleIncomingRequestsFromIPv4 checksumIBM pkt (initRuleMap s) =
      .ok (initRuleMap s', o) ∧ (o = .dropped ∨ ∃ conn, o = .dispatched conn pkt) := by
  rw [handleIncomingRequestsFromIPv4]
  cases getChan_initRuleMap checksumIBM (s := s) h
  case inr hg => exact ⟨s, .dropped, by rw [hg]; rfl, .inl rfl⟩
  case inl hg =>
    have ⟨code, hg⟩ := hg
    have ⟨r, hrf, hi⟩ := exists_intact hr
    have hage : s.fluxMaxAge = natFluxMaxAge :=
      hr.invariant (P := fun s => s.fluxMaxAge = natFluxMaxAge) rfl
        fun hs hst => (step_inv hst).fluxMaxAge_eq.trans hs
    have ⟨s', reply, hget, hlock⟩ : ∃ s' reply, s.get code = .ok (s', reply) ∧
        (reply.conn ≠ none → reply.lock ≠ none) := by
      refine (hi.get_cases hrf fun _ => hl).resolve_right fun he => ?_
      rw [hage] at he
      exact absurd he.right (by decide)
    rw [hg, hget]
    cases hc : reply.conn
    case none => exact ⟨s', .dropped, by simp [bind, Except.bind, pure, Except.pure, hc], .inl rfl⟩
    case some conn =>
      have ⟨lock, hl⟩ := Option.ne_none_iff_exists'.mp (hlock (by simp [hc]))
      exact ⟨s', .dispatched conn pkt, by simp [bind, Except.bind, pure, Except.pure, hc, hl],
        .inr ⟨conn, rfl⟩⟩

theorem le_of_handleIncomingRequestsFromIPv4
    (h : handleIncomingRequestsFromIPv4 checksumIBM pkt (initRuleMap s) = .ok r) (hl : 4 ≤ pkt.length) :
    24 ≤ pkt.length := by
  simp only [handleIncomingRequestsFromIPv4, initRuleMap, getChan, natRule, getPortsFromPkt,
    getPortsFromBytes, if_neg (Nat.not_lt.mpr hl), bind_assoc] at h
  obtain ⟨_, _, h⟩ := bind_eq_ok.mp h
  obtain ⟨_, _, h⟩ := bind_eq_ok.mp h
  obtain ⟨_, _, h⟩ := bind_eq_ok.mp h
  obtain ⟨_, hi, _⟩ := bind_eq_ok.mp h
  exact (List.getElem?_eq_some_iff.mp (index_eq_ok.mp hi)).fst

end Handle

-- The frame is ignored, or its packet is dropped or dispatched.
def Handled (buff frame : Bytes) (s : Pool.State) : Prop :=
  ∃ buff' round, readFromNetworkInterface buff frame = .ok (buff', round) ∧
    (round = .ignored ∨ ∃ pktBuff s' o, round = .started pktBuff ∧
      handleIncomingRequestsFromIPv4 checksumIBM pktBuff (initRuleMap s) = .ok (initRuleMap s', o) ∧
      (o = .dropped ∨ ∃ conn, o = .dispatched conn pktBuff))

-- A frame is handled without a panic if, and only if, it has at least 24 bytes, or 38 if its protocol
-- is UDP.
theorem frame_handled (hr : PoolRun natFluxMaxAge ls s) (hl : live (trace ls) ≠ []) :
    Handled checksumIBM buff frame s ↔ 24 ≤ min frame.length buff.length ∧
      ((octet frame 23 = 17) → 38 ≤ min frame.length buff.length) := by
  have hlen : ((frame.take buff.length).drop 14).length = min frame.length buff.length - 14 := by
    rw [List.length_drop, List.length_take, Nat.min_comm]
  constructor
  case mp =>
    rintro ⟨buff', round, h, ho⟩
    have hne : round ≠ .fatal := by
      rcases ho with rfl | ⟨_, _, _, rfl, _⟩ <;> simp
    have hle := le_of_readFromNetworkInterface h hne
    refine ⟨hle, fun hp => ?_⟩
    rw [readFromNetworkInterface_eq hle, if_pos hp] at h
    cases h
    rcases ho with ho | ⟨_, s', o, ho, hh, _⟩
    case inl => contradiction
    case inr =>
      cases ho
      have := le_of_handleIncomingRequestsFromIPv4 checksumIBM hh (by omega)
      omega
  case mpr =>
    rintro ⟨hle, hu⟩
    refine ⟨_, _, readFromNetworkInterface_eq hle, ?_⟩
    split
    case isFalse   => exact .inl rfl
    case isTrue hp =>
      have hle : 24 ≤ ((frame.take buff.length).drop 14).length := by
        have := hu hp
        omega
      obtain ⟨s', o, hh, ho⟩ := handleIncomingRequestsFromIPv4_ok checksumIBM hr hl hle
      exact .inr ⟨_, s', o, rfl, hh, ho⟩

def exampleFrame (payload : Bytes) : Bytes :=
  List.replicate 12 0 ++ [8, 0] ++ payload

def exampleBuff : Bytes :=
  List.replicate 68 0

def exampleOps : List Op :=
  [.add (some 0) (some 0) 1 false 10]

theorem frame_handled_udp :
    let frame := exampleFrame (exampleDatagram 5 1 64 [] (19, 136) [])
    ∃ ls s, PoolRun natFluxMaxAge ls s ∧ live (trace ls) ≠ [] ∧ octet frame 23 = 17 ∧
      38 ≤ min frame.length exampleBuff.length ∧ Handled Crc16.ibm.checksum exampleBuff frame s := by
  intro frame
  have ⟨s, ls, hr, ht⟩ : ∃ s ls, PoolRun natFluxMaxAge ls s ∧
      decide (live (trace ls) ≠ []) = true := Run.of_passes exampleOps (by decide)
  have hl := of_decide_eq_true ht
  have ⟨hp, hu⟩ : octet frame 23 = 17 ∧ 38 ≤ min frame.length exampleBuff.length := by decide
  exact ⟨ls, s, hr, hl, hp, hu,
    (frame_handled Crc16.ibm.checksum hr hl).mpr ⟨by omega, fun _ => hu⟩⟩

-- A frame without a payload, and one with the first ten bytes of a UDP packet.
theorem frame_crashes :
    let pkt := (exampleDatagram 5 1 64 [] (19, 136) []).take 10
    ∃ ls s, PoolRun natFluxMaxAge ls s ∧ live (trace ls) ≠ [] ∧
      (exampleFrame []).length = 14 ∧ (exampleFrame pkt).length = 24 ∧
      readFromNetworkInterface exampleBuff (exampleFrame []) = .error .indexOutOfRange ∧
      (∃ buff', readFromNetworkInterface exampleBuff (exampleFrame pkt) = .ok (buff', .started pkt)) ∧
      handleIncomingRequestsFromIPv4 Crc16.ibm.checksum pkt (initRuleMap s) =
        .error .indexOutOfRange := by
  intro pkt
  have ⟨s, ls, h, ht⟩ : ∃ s ls, PoolRun natFluxMaxAge ls s ∧
      decide (live (trace ls) ≠ []) = true := Run.of_passes exampleOps (by decide)
  exact ⟨ls, s, h, of_decide_eq_true ht, rfl, rfl, rfl, ⟨_, rfl⟩, rfl⟩

section Whole

variable {header padding : Bytes}

-- A packet is passed on whole if, and only if, it fits into the buffer together with the Ethernet
-- header.
theorem packet_passed_whole (hh : header.length = 14) (hp : octet pkt 9 = 17) (hl : 28 ≤ pkt.length) :
    (∃ buff' pktBuff, readFromNetworkInterface buff (header ++ pkt ++ padding) =
      .ok (buff', .started pktBuff) ∧ pkt <+: pktBuff) ↔ pkt.length + 14 ≤ buff.length := by
  have ho : octet (header ++ pkt ++ padding) 23 = 17 := by
    rw [← hp, octet, octet, List.append_assoc, List.getD_append_right _ _ _ _ (by omega), hh,
      List.getD_append _ _ _ _ (by omega)]
  have hlen : (header ++ pkt ++ padding).length = 14 + pkt.length + padding.length := by
    rw [List.length_append, List.length_append, hh]
  have hd : ((header ++ pkt ++ padding).take buff.length).drop 14 =
      (pkt ++ padding).take (buff.length - 14) := by
    rw [List.drop_take, List.append_assoc, List.drop_left' hh]
  constructor
  case mp =>
    rintro ⟨buff', pktBuff, h, hpre⟩
    have hle := le_of_readFromNetworkInterface h (by simp)
    rw [readFromNetworkInterface_eq hle, if_pos ho, hd] at h
    cases h
    have := hpre.length_le
    rw [List.length_take] at this
    omega
  case mpr =>
    intro hb
    have hle : 24 ≤ min (header ++ pkt ++ padding).length buff.length := by omega
    have hr := readFromNetworkInterface_eq hle
    rw [if_pos ho, hd] at hr
    refine ⟨_, _, hr, ?_⟩
    rw [List.take_append, List.take_of_length_le (by omega)]
    exact List.prefix_append ..

theorem packet_passed_whole_fitting :
    let pkt := exampleDatagram 5 1 64 [] (19, 136) (List.replicate 26 7)
    (Datagram pkt ∧ pkt.length = 54 ∧ exampleBuff.length = 68) ∧
    ∃ buff' pktBuff, readFromNetworkInterface exampleBuff (exampleFrame [] ++ pkt ++ [0, 0]) =
      .ok (buff', .started pktBuff) ∧ pkt <+: pktBuff := by
  intro pkt
  have ⟨d, hl⟩ : Datagram pkt ∧ pkt.length = 54 := by decide
  exact ⟨⟨d, hl, rfl⟩, (packet_passed_whole rfl d.protocol (by omega)).mpr (by rw [hl]; decide)⟩

-- A packet as long as the MTU loses its last 14 bytes.
theorem packet_truncated :
    let pkt := exampleDatagram 5 1 64 [] (19, 136) (List.replicate 40 7)
    Datagram pkt ∧ pkt.length = 68 ∧ exampleBuff.length = 68 ∧
    (∃ buff', readFromNetworkInterface exampleBuff (exampleFrame pkt) =
      .ok (buff', .started (pkt.take 54))) ∧ ¬ pkt <+: pkt.take 54 := by
  intro pkt
  exact ⟨by decide, by decide, rfl, ⟨_, rfl⟩, by decide⟩

end Whole
end Net
