/-
`NodeSpec` of `Common.h` and `Common.cpp`: a node as a user writes it, with
`Network::resolveHost`.  How a name is resolved is a parameter.
-/
import Web3Core.Decimal
import Web3Core.NodeTable

namespace Web3Core

/-- What is asked of the network library: the address that a text is, and the
first endpoint that a host and a service have by their names. -/
structure Resolver where
  fromString : Bytes → Option Address
  resolve : Bytes → Bytes → Option (Address × UInt16)

/-- `c_defaultIPPort`. -/
def defaultIPPort : Nat := 30303

/-- `Network::resolveHost`. -/
def Resolver.resolveHost (net : Resolver) (addr : Bytes) : Address × UInt16 :=
  let split := addr.splitOn 0x3a
  let port :=
    if split.length > 1 then
      match stoi (split.getD 1 []) with
      | .ok n => toUnsigned n
      | .error _ => defaultIPPort
    else defaultIPPort
  match net.fromString (split.getD 0 []) with
  | some address => (address, UInt16.ofNat port)
  | none =>
      (net.resolve (split.getD 0 []) (decimal port)).getD (.unspecified, 0)

structure NodeSpec where
  address : Bytes := []
  tcpPort : UInt16 := 0
  udpPort : UInt16 := 0
  id : NodeID := FixedHash.zero 64
deriving DecidableEq

namespace NodeSpec

/-- The conversion to `uint16_t`. -/
def toPort (x : Int) : UInt16 := UInt16.ofNat (toUnsigned x)

/-- The constructor from an address and ports. -/
def ofHost (addr : Bytes) (port : UInt16) (udpPort : Int := -1) : NodeSpec where
  address := addr
  tcpPort := port
  udpPort := if udpPort = -1 then port else toPort udpPort

/-- The id at the beginning of a text, if there is one, and the rest. -/
def readID (user : Bytes) : Except Exception (NodeID × Bytes) :=
  if user.take 8 = ascii "enode://" ∧ user.idxOf? 0x40 = some 136 then do
    let id ← FixedHash.fromString 64 ((user.drop 8).take 128) .failIfDifferent
    .ok (id, user.drop 137)
  else .ok (FixedHash.zero 64, user)

/-- The tcp port and the udp port; a single number is both. -/
def readPorts (ports : Bytes) : Except Exception (UInt16 × UInt16) :=
  match cutAt 0x2e ports with
  | some (tcp, udp) => do
      let udpPort ← stoi udp
      let tcpPort ← stoi tcp
      .ok (toPort tcpPort, toPort udpPort)
  | none => do
      let port ← stoi ports
      .ok (toPort port, toPort port)

/-- The host and the ports that are behind the id. -/
def readHost (id : NodeID) (address : Bytes) : Except Exception NodeSpec :=
  match cutAt 0x3a address with
  | some (host, ports) => do
      let (tcpPort, udpPort) ← readPorts ports
      .ok ⟨host, tcpPort, udpPort, id⟩
  | none => .ok ⟨address, 0, 0, id⟩

/-- Accepts user-readable strings of the form
(enode://pubkey@)host({:port,:tcpport.udpport}). -/
def ofString (user : Bytes) : Except Exception NodeSpec := do
  let (id, address) ← readID user
  readHost id address

def nodeIPEndpoint (net : Resolver) (s : NodeSpec) : NodeIPEndpoint :=
  ⟨(net.resolveHost s.address).1, s.udpPort, s.tcpPort⟩

/-- What `enode` writes behind the address. -/
def portText (s : NodeSpec) : Bytes :=
  if s.tcpPort ≠ 0 then
    if s.udpPort ≠ 0 ∧ s.tcpPort ≠ s.udpPort then
      ascii ":" ++ decimal s.tcpPort.toNat ++ ascii "." ++
        decimal s.udpPort.toNat
    else ascii ":" ++ decimal s.tcpPort.toNat
  else if s.udpPort ≠ 0 then ascii ":" ++ decimal s.udpPort.toNat
  else []

def enode (s : NodeSpec) : Bytes :=
  let ret := s.address ++ s.portText
  if s.id.isSet then
    ascii "enode://" ++ toHex s.id.data 2 false ++ ascii "@" ++ ret
  else ret

/-- The text form is read back as it was written, and both are resolved to the
same endpoint. -/
def Survives (net : Resolver) (s : NodeSpec) : Prop :=
  ∃ s', ofString s.enode = .ok s' ∧
    s'.id = s.id ∧ s'.address = s.address ∧
    s'.tcpPort = s.tcpPort ∧ s'.udpPort = s.udpPort ∧
    s'.nodeIPEndpoint net = s.nodeIPEndpoint net

/-- One port stands for both. -/
def withBothPorts (s : NodeSpec) : NodeSpec :=
  { s with
    tcpPort := if s.tcpPort = 0 then s.udpPort else s.tcpPort
    udpPort := if s.udpPort = 0 then s.tcpPort else s.udpPort }

variable {s : NodeSpec}

theorem toPort_toNat (n : UInt16) : toPort (n.toNat : Int) = n := by
  have hlt := n.toNat_lt
  rw [toPort, toUnsigned_of_lt (by omega), UInt16.ofNat_toNat]

theorem stoi_port (n : UInt16) : stoi (decimal n.toNat) = .ok n.toNat := by
  have hlt := n.toNat_lt
  exact stoi_decimal (by omega)

/-- No character of a number is a separator. -/
theorem not_mem_decimal {c : Byte} (h : c < 0x30 ∨ 0x39 < c) (n : Nat) :
    c ∉ decimal n := by
  intro hc
  obtain ⟨hlow, hhigh⟩ := mem_decimal hc
  rcases h with h | h
  · exact absurd hlow (UInt8.not_le.2 h)
  · exact absurd hhigh (UInt8.not_le.2 h)

/-- The hex digits of an id have no `@`. -/
theorem not_mem_toHex (b : Bytes) : 0x40 ∉ toHex b 2 false := by
  intro h
  have hnone : fromHexDigit 0x40 = none := by decide
  have hdigit := (spells_toHex b).digits _ h
  rw [hnone, Option.isSome_none] at hdigit
  cases hdigit

theorem fromString_toHex (id : NodeID) :
    FixedHash.fromString 64 (toHex id.data 2 false) .failIfDifferent =
      .ok id := by
  have hsmall : id.data.length < 2 ^ 31 := by
    rw [id.size_data]
    decide
  rw [FixedHash.fromString, fromHex_toHex hsmall]
  change Except.ok (FixedHash.fromBytes 64 id.data .failIfDifferent) = _
  rw [FixedHash.fromBytes, FixedHash.construct, dif_pos id.size_data]

/-- An id that is written is read, whatever follows. -/
theorem readID_prefixed (id : NodeID) (rest : Bytes) :
    readID (ascii "enode://" ++ toHex id.data 2 false ++ ascii "@" ++ rest) =
      .ok (id, rest) := by
  have hscheme : (ascii "enode://").length = 8 := by decide
  have hsize : (toHex id.data 2 false).length = 128 := by
    rw [(spells_toHex id.data).length_eq, id.size_data]
  have hat : 0x40 ∉ ascii "enode://" ++ toHex id.data 2 false := by
    rw [List.mem_append, not_or]
    exact ⟨by decide, not_mem_toHex id.data⟩
  have hfront : (ascii "enode://" ++ toHex id.data 2 false).length = 136 := by
    rw [List.length_append, hscheme, hsize]
  have hfind := idxOf?_append (b := rest) hat
  have htext : ascii "enode://" ++ toHex id.data 2 false ++ ascii "@" ++ rest =
      ascii "enode://" ++ toHex id.data 2 false ++ 0x40 :: rest := by
    rw [List.append_assoc _ (ascii "@")]
    rfl
  have hbehind : ∀ {front back : Bytes} (c : Byte), front.length = 136 →
      (front ++ c :: back).drop 137 = back := by
    rintro front back c hlen
    rw [← List.drop_drop (i := 1) (j := 136), List.drop_left' hlen]
    rfl
  rw [htext, readID, hfind, hfront, List.append_assoc,
    if_pos ⟨List.take_left' hscheme, rfl⟩, List.drop_left' hscheme,
    List.take_left' hsize, fromString_toHex, ← List.append_assoc,
    hbehind 0x40 hfront]
  rfl

/-- The port text: nothing, one number that stands for both ports, or both. -/
theorem portText_cases (s : NodeSpec) :
    (s.portText = [] ∧ s.tcpPort = 0 ∧ s.udpPort = 0) ∨
    (∃ n : UInt16, s.portText = 0x3a :: decimal n.toNat ∧
      s.withBothPorts = { s with tcpPort := n, udpPort := n }) ∨
    (s.portText =
        0x3a :: (decimal s.tcpPort.toNat ++ 0x2e :: decimal s.udpPort.toNat) ∧
      s.withBothPorts = s) := by
  rw [portText, withBothPorts]
  by_cases htcp : s.tcpPort = 0
  · by_cases hudp : s.udpPort = 0
    · exact .inl ⟨by rw [if_neg (not_not.2 htcp), if_neg (not_not.2 hudp)],
        htcp, hudp⟩
    · refine .inr (.inl ⟨s.udpPort, ?_, ?_⟩)
      · rw [if_neg (not_not.2 htcp), if_pos hudp]
        rfl
      · rw [if_pos htcp, if_neg hudp]
  · by_cases hboth : s.udpPort ≠ 0 ∧ s.tcpPort ≠ s.udpPort
    · refine .inr (.inr ⟨?_, ?_⟩)
      · rw [if_pos htcp, if_pos hboth, List.append_assoc, List.append_assoc]
        rfl
      · rw [if_neg htcp, if_neg hboth.1]
    · refine .inr (.inl ⟨s.tcpPort, ?_, ?_⟩)
      · rw [if_pos htcp, if_neg hboth]
        rfl
      · rw [if_neg htcp]
        by_cases hudp : s.udpPort = 0
        · rw [if_pos hudp]
        · rw [if_neg hudp, not_not.1 fun h => hboth ⟨hudp, h⟩]

/-- No id is read in front of a host without a colon. -/
theorem readID_plain (h : 0x3a ∉ s.address) :
    readID (s.address ++ s.portText) =
      .ok (FixedHash.zero 64, s.address ++ s.portText) := by
  have hdigits : ∀ (n : Nat) (rest more : Bytes),
      decimal n ++ rest ≠ ascii "//" ++ more := by
    intro n rest more heq
    obtain ⟨d, digits, hcons⟩ := List.exists_cons_of_ne_nil (decimal_ne_nil n)
    have hslash : d = 0x2f := by
      rw [hcons] at heq
      exact (List.cons.inj heq).1
    have hmem : d ∈ decimal n := hcons ▸ List.mem_cons_self
    exact not_mem_decimal (.inl (by decide)) n (hslash ▸ hmem)
  rw [readID, if_neg]
  rintro ⟨htake, -⟩
  have hcut : cutAt 0x3a (s.address ++ s.portText) =
      some (ascii "enode", ascii "//" ++ (s.address ++ s.portText).drop 8) := by
    rw [← cutAt_append (c := 0x3a) (a := ascii "enode") (by decide)]
    conv_lhs => rw [← List.take_append_drop 8 (s.address ++ s.portText), htake]
    rfl
  rcases s.portText_cases with ⟨hports, -⟩ | ⟨n, hports, -⟩ | ⟨hports, -⟩
  · rw [hports, List.append_nil, cutAt_eq_none_iff.2 h] at hcut
    cases hcut
  · rw [hports, cutAt_append h] at hcut
    have hrest := (Prod.mk.inj (Option.some.inj hcut)).2
    exact hdigits n.toNat [] _ ((List.append_nil _).trans hrest)
  · rw [hports, cutAt_append h] at hcut
    exact hdigits _ _ _ (Prod.mk.inj (Option.some.inj hcut)).2

theorem id_eq_zero (h : ¬ s.id.isSet = true) : s.id = FixedHash.zero 64 := by
  refine FixedHash.ext (List.eq_replicate_iff.2 ⟨s.id.size_data, ?_⟩)
  intro x hx
  by_contra hne
  exact h (List.any_eq_true.2 ⟨x, hx, bne_iff_ne.2 hne⟩)

theorem readID_enode (h : 0x3a ∉ s.address) :
    readID s.enode = .ok (s.id, s.address ++ s.portText) := by
  rw [enode]
  split
  · exact readID_prefixed s.id _
  · rename_i hid
    rw [readID_plain h, id_eq_zero hid]

theorem readPorts_one (n : UInt16) :
    readPorts (decimal n.toNat) = .ok (n, n) := by
  have hdot : 0x2e ∉ decimal n.toNat := not_mem_decimal (.inl (by decide)) _
  rw [readPorts, cutAt_eq_none_iff.2 hdot]
  simp only [stoi_port, ok_bind, toPort_toNat]

theorem readPorts_two (tcp udp : UInt16) :
    readPorts (decimal tcp.toNat ++ 0x2e :: decimal udp.toNat) =
      .ok (tcp, udp) := by
  have hdot : 0x2e ∉ decimal tcp.toNat := not_mem_decimal (.inl (by decide)) _
  rw [readPorts, cutAt_append hdot]
  simp only [stoi_port, ok_bind, toPort_toNat]

theorem readHost_of_cut {id : NodeID} {host ports : Bytes} {tcp udp : UInt16}
    (h : 0x3a ∉ host) (hports : readPorts ports = .ok (tcp, udp)) :
    readHost id (host ++ 0x3a :: ports) = .ok ⟨host, tcp, udp, id⟩ := by
  rw [readHost, cutAt_append h]
  simp only [hports, ok_bind]

/-- What is read has no colon in its address. -/
theorem not_mem_address {user : Bytes} (h : ofString user = .ok s) :
    0x3a ∉ s.address := by
  obtain ⟨⟨id, address⟩, -, h⟩ := exists_of_bind h
  change readHost id address = .ok s at h
  rw [readHost] at h
  split at h
  · rename_i host ports hcut
    obtain ⟨⟨tcpPort, udpPort⟩, -, h⟩ := exists_of_bind h
    obtain rfl := Except.ok.inj h
    exact not_mem_of_cutAt hcut
  · rename_i hcut
    obtain rfl := Except.ok.inj h
    exact cutAt_eq_none_iff.1 hcut

/-- What is read of the text form. -/
theorem ofString_enode (h : 0x3a ∉ s.address) :
    ofString s.enode = .ok s.withBothPorts := by
  rw [ofString, readID_enode h, ok_bind]
  change readHost s.id (s.address ++ s.portText) = _
  rcases s.portText_cases with
    ⟨hports, htcp, hudp⟩ | ⟨n, hports, hboth⟩ | ⟨hports, hboth⟩
  · rw [hports, List.append_nil, readHost, cutAt_eq_none_iff.2 h,
      withBothPorts, if_pos htcp, if_pos hudp, htcp, hudp]
  · rw [hports, hboth, readHost_of_cut h (readPorts_one n)]
  · rw [hports, hboth, readHost_of_cut h (readPorts_two _ _)]

theorem withBothPorts_eq_iff :
    s.withBothPorts = s ↔ (s.tcpPort = 0 ↔ s.udpPort = 0) := by
  obtain ⟨address, tcpPort, udpPort, id⟩ := s
  simp only [withBothPorts, mk.injEq, true_and, and_true]
  by_cases htcp : tcpPort = 0 <;> by_cases hudp : udpPort = 0
  · simp [htcp, hudp]
  · simp [htcp, hudp]
  · simp [htcp, hudp]
  · simp [htcp, hudp]

/-- A specification survives its text form if and only if its host has no colon
and none of its ports is zero without the other. -/
theorem survives_iff (net : Resolver) (s : NodeSpec) :
    s.Survives net ↔
      0x3a ∉ s.address ∧ (s.tcpPort = 0 ↔ s.udpPort = 0) := by
  constructor
  · rintro ⟨⟨address, tcpPort, udpPort, id⟩, hread, rfl, rfl, rfl, rfl, -⟩
    have hcolon : 0x3a ∉ s.address := not_mem_address hread
    rw [ofString_enode hcolon] at hread
    exact ⟨hcolon, withBothPorts_eq_iff.1 (Except.ok.inj hread)⟩
  · rintro ⟨hcolon, hports⟩
    refine ⟨s, ?_, rfl, rfl, rfl, rfl, rfl⟩
    rw [ofString_enode hcolon, withBothPorts_eq_iff.2 hports]

/-- No name has an address. -/
def offline : Resolver := ⟨fun _ => none, fun _ _ => none⟩

/-- The host of the first specification has colons; the second one has only a
udp port. -/
theorem not_survives :
    ¬ (ofHost (ascii "::1") 30303 30304).Survives offline ∧
      ¬ (ofHost (ascii "localhost") 0 30303).Survives offline := by
  have hthrows : ofString (ofHost (ascii "::1") 30303 30304).enode =
      .error .invalidArgument := by
    decide +kernel
  have hboth : ofString (ofHost (ascii "localhost") 0 30303).enode =
      .ok (ofHost (ascii "localhost") 30303 30303) := by
    decide +kernel
  constructor
  · rintro ⟨s', hread, -⟩
    rw [hthrows] at hread
    cases hread
  · rintro ⟨s', hread, -, -, htcp, -⟩
    rw [hboth] at hread
    obtain rfl := Except.ok.inj hread
    exact absurd htcp (by decide)

end NodeSpec

end Web3Core
