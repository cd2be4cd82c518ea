import Mathlib.Data.Fintype.EquivFin
import GatewayModel.Net.Theorems.FlowKey

open Go

namespace Net

variable {c : Crc16} {pkt p₁ p₂ : Bytes} {high low : UInt8}

section Buffer

theorem toNat_word : (word high low).toNat = high.toNat * 256 + low.toNat := by
  have hl : low.toNat < 2 ^ 8 := low.toNat_lt
  rw [word, UInt16.toNat_or, Crc16.toNat_shiftLeft_byte, UInt8.toNat_toUInt16, ← Nat.shiftLeft_eq,
    ← Nat.shiftLeft_add_eq_or_of_lt hl, Nat.shiftLeft_eq]

theorem word_high : (word high low >>> 8).toUInt8 = high := by
  rw [← UInt8.toNat_inj, UInt16.toNat_toUInt8, UInt16.toNat_shiftRight, toNat_word]
  have hh := high.toNat_lt
  have hl := low.toNat_lt
  have hs : (8 : UInt16).toNat % 16 = 8 := rfl
  rw [hs, Nat.shiftRight_eq_div_pow]
  omega

theorem word_low : (word high low &&& 255).toUInt8 = low := by
  rw [← UInt8.toNat_inj, UInt16.toNat_toUInt8, UInt16.toNat_and, toNat_word]
  have hl := low.toNat_lt
  have hm : (255 : UInt16).toNat = 2 ^ 8 - 1 := rfl
  rw [hm, Nat.and_two_pow_sub_one_eq_mod]
  omega

inductive Source
  | octet (i : Nat)
  | fixed (v : UInt8)
  deriving Repr, DecidableEq

def Source.value (pkt : Bytes) : Source → UInt8
  | octet i => Net.octet pkt i
  | fixed v => v

def layout : List Source :=
  List.replicate 22 (.fixed 0) ++ [.fixed 0xff, .fixed 0xff] ++ [12, 13, 14, 15].map .octet ++
  List.replicate 10 (.fixed 0) ++ [.fixed 0xff, .fixed 0xff] ++ [16, 17, 18, 19].map .octet ++
  [20, 21, 22, 23].map .octet

def buffer (pkt : Bytes) : Bytes :=
  layout.map (Source.value pkt)

theorem flowBytes_eq_buffer :
    flowBytes (address pkt 12) (address pkt 16) (word (octet pkt 20) (octet pkt 21))
      (word (octet pkt 22) (octet pkt 23)) = buffer pkt := by
  rw [flowBytes, word_high, word_low, word_high, word_low]
  rfl

theorem pktCrc16_eq (h : 24 ≤ pkt.length) :
    pktCrc16 c.checksum pkt = .ok (c.checksum (buffer pkt), none) := by
  rw [pktCrc16_of_le h, flowBytes_eq_buffer]

end Buffer

section Burst

def starts : List Nat :=
  [12, 13, 14, 16, 17, 18, 20, 21, 22]

-- No other byte of the buffer comes from these two, which are next to each other there as well.
theorem layout_apart : ∀ i ∈ starts, ∃ n, n + 1 < layout.length ∧
    ∀ j < layout.length, (j ≠ n) → (j ≠ n + 1) →
      layout[j]? ≠ some (.octet i) ∧ layout[j]? ≠ some (.octet (i + 1)) := by
  intro i hi
  refine ⟨layout.idxOf (.octet i), ?_⟩
  revert i
  decide

theorem mem_layout : ∀ j < 24, (12 ≤ j) → .octet j ∈ layout := by
  decide

theorem bounds_of_mem_layout (h : .octet k ∈ layout) : 12 ≤ k ∧ k ≤ 23 := by
  simp [layout] at h
  omega

theorem buffer_eq_of_burst (h : c.Invertible) (hi : i ∈ starts)
    (hd : ∀ j, (12 ≤ j) → (j ≤ 23) → (j ≠ i) → (j ≠ i + 1) → octet p₁ j = octet p₂ j)
    (he : c.checksum (buffer p₁) = c.checksum (buffer p₂)) : buffer p₁ = buffer p₂ := by
  have ⟨n, hn, ha⟩ := layout_apart i hi
  refine Crc16.eq_of_checksum_eq h (by simp [buffer]) (n := n) (by simpa [buffer] using hn) ?_ he
  intro j h₁ h₂
  simp only [buffer, List.getElem?_map]
  cases hj : layout[j]?
  case none => rfl
  case some x =>
    have hx := ha j (List.getElem?_eq_some_iff.mp hj).fst h₁ h₂
    cases x
    case fixed => rfl
    case octet k =>
      have ⟨hge, hle⟩ := bounds_of_mem_layout (List.mem_of_getElem? hj)
      rw [hj] at hx
      exact congrArg some (hd k hge hle (by simpa using hx.left) (by simpa using hx.right))

theorem octet_eq_of_buffer_eq (h : buffer p₁ = buffer p₂) (h₁ : 12 ≤ j) (h₂ : j ≤ 23) :
    octet p₁ j = octet p₂ j :=
  List.map_inj_left.mp h _ (mem_layout j (by omega) h₁)

end Burst

section SourcePort

variable {port port₁ port₂ : UInt16}

def withSourcePort (pkt : Bytes) (port : UInt16) : Bytes :=
  (pkt.set 20 (port >>> 8).toUInt8).set 21 (port &&& 255).toUInt8

theorem length_withSourcePort : (withSourcePort pkt port).length = pkt.length := by
  simp [withSourcePort]

theorem octet_withSourcePort (h₁ : j ≠ 20) (h₂ : j ≠ 21) :
    octet (withSourcePort pkt port) j = octet pkt j := by
  simp [octet, withSourcePort, List.getD_eq_getElem?_getD, h₁.symm, h₂.symm]

theorem octet_withSourcePort_high (h : 24 ≤ pkt.length) :
    octet (withSourcePort pkt port) 20 = (port >>> 8).toUInt8 := by
  have hl : 20 < pkt.length := by omega
  simp [octet, withSourcePort, List.getD_eq_getElem?_getD, hl]

theorem octet_withSourcePort_low (h : 24 ≤ pkt.length) :
    octet (withSourcePort pkt port) 21 = (port &&& 255).toUInt8 := by
  have hl : 21 < pkt.length := by omega
  simp [octet, withSourcePort, List.getD_eq_getElem?_getD, hl]

theorem word_bytes (port : UInt16) : word (port >>> 8).toUInt8 (port &&& 255).toUInt8 = port := by
  have hp := port.toNat_lt
  have hs : (8 : UInt16).toNat % 16 = 8 := rfl
  have hm : (255 : UInt16).toNat = 2 ^ 8 - 1 := rfl
  rw [← UInt16.toNat_inj, toNat_word, UInt16.toNat_toUInt8, UInt16.toNat_toUInt8,
    UInt16.toNat_shiftRight, UInt16.toNat_and, hs, hm, Nat.shiftRight_eq_div_pow,
    Nat.and_two_pow_sub_one_eq_mod]
  omega

theorem checksum_withSourcePort_injective (h : c.Invertible) (hl : 24 ≤ pkt.length) :
    Function.Injective fun port => c.checksum (buffer (withSourcePort pkt port)) := by
  intro port₁ port₂ he
  have hb := buffer_eq_of_burst h (i := 20) (by decide) (fun j _ _ h₁ h₂ => by
    rw [octet_withSourcePort h₁ h₂, octet_withSourcePort h₁ h₂]) he
  have hh := octet_eq_of_buffer_eq hb (j := 20) (by decide) (by decide)
  have hw := octet_eq_of_buffer_eq hb (j := 21) (by decide) (by decide)
  rw [octet_withSourcePort_high hl, octet_withSourcePort_high hl] at hh
  rw [octet_withSourcePort_low hl, octet_withSourcePort_low hl] at hw
  rw [← word_bytes port₁, hh, hw, word_bytes]

theorem bijective_of_injective {f : UInt16 → UInt16} (h : Function.Injective f) :
    Function.Bijective f := by
  have : Finite UInt16 := Finite.of_injective UInt16.toFin fun _ _ he => UInt16.toFin_inj.mp he
  exact Finite.injective_iff_bijective.mp h

-- Packets that differ only in two adjacent bytes of an address, or of the ports, have different codes.
-- For fixed addresses and a fixed target port, each code belongs to exactly one source port.
theorem codes_never_collide (h : c.poly = 0xA001) :
    (∀ p₁ p₂, (24 ≤ p₁.length) → (24 ≤ p₂.length) →
      (∃ j, 12 ≤ j ∧ j ≤ 23 ∧ octet p₁ j ≠ octet p₂ j) →
      (∃ i ∈ starts, ∀ j, (12 ≤ j) → (j ≤ 23) → (j ≠ i) → (j ≠ i + 1) → octet p₁ j = octet p₂ j) →
      ∃ c₁ c₂, pktCrc16 c.checksum p₁ = .ok (c₁, none) ∧ pktCrc16 c.checksum p₂ = .ok (c₂, none) ∧
        c₁ ≠ c₂) ∧
    (∀ pkt, (24 ≤ pkt.length) → ∃ code : UInt16 → UInt16, Function.Bijective code ∧
      ∀ port, pktCrc16 c.checksum (withSourcePort pkt port) = .ok (code port, none)) := by
  have hi : c.Invertible := by rw [Crc16.Invertible, h]; decide
  constructor
  case left =>
    intro p₁ p₂ h₁ h₂ ⟨j, hj₁, hj₂, hne⟩ ⟨i, him, hd⟩
    refine ⟨_, _, pktCrc16_eq h₁, pktCrc16_eq h₂, fun he => hne ?_⟩
    exact octet_eq_of_buffer_eq (buffer_eq_of_burst hi him hd he) hj₁ hj₂
  case right =>
    intro pkt hl
    refine ⟨_, bijective_of_injective (checksum_withSourcePort_injective hi hl), fun port => ?_⟩
    exact pktCrc16_eq (by rwa [length_withSourcePort])

theorem codes_never_collide_ports :
    let p₁ := exampleDatagram 5 1 64 [] (19, 136) []
    let p₂ := exampleDatagram 5 1 64 [] (20, 137) []
    ((Crc16.ibm.poly = 0xA001 ∧ 24 ≤ p₁.length ∧ 24 ≤ p₂.length ∧ octet p₁ 20 ≠ octet p₂ 20) ∧
      ∃ c₁ c₂, pktCrc16 Crc16.ibm.checksum p₁ = .ok (c₁, none) ∧
        pktCrc16 Crc16.ibm.checksum p₂ = .ok (c₂, none) ∧ c₁ ≠ c₂) ∧
    ∃ code : UInt16 → UInt16, Function.Bijective code ∧
      ∀ port, pktCrc16 Crc16.ibm.checksum (withSourcePort p₁ port) = .ok (code port, none) := by
  intro p₁ p₂
  have h : Crc16.ibm.poly = 0xA001 := rfl
  have ⟨h₁, h₂, hne⟩ : 24 ≤ p₁.length ∧ 24 ≤ p₂.length ∧ octet p₁ 20 ≠ octet p₂ 20 := by decide
  have hd : ∀ j < 24, (12 ≤ j) → (j ≠ 20) → (j ≠ 20 + 1) → octet p₁ j = octet p₂ j := by decide
  have ⟨hc, hb⟩ := codes_never_collide h
  refine ⟨⟨⟨h, h₁, h₂, hne⟩, ?_⟩, hb p₁ h₁⟩
  exact hc p₁ p₂ h₁ h₂ ⟨20, by decide, by decide, hne⟩
    ⟨20, by decide, fun j hj hj' => hd j (by omega) hj⟩

end SourcePort
end Net
