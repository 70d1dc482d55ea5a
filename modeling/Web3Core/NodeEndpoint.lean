/-
`NodeIPEndpoint` of `Common.h` and `Common.cpp`: where a node is reached.  An
address is what its bytes are; the interface that an address of the sixth
version may name is not sent and not modelled.
-/
import Web3Core.RLPFields

namespace Web3Core

open RLP (access Listing Rep)

/-- `bi::address`; the default one is that of four zeros. -/
inductive Address where
  | v4 (bytes : FixedHash 4)
  | v6 (bytes : FixedHash 16)
deriving DecidableEq

namespace Address

def unspecified : Address := .v4 (RLP.alignRight 4 [])

def isUnspecified : Address → Bool
  | v4 b => b.data.all (· == 0)
  | v6 b => b.data.all (· == 0)

/-- Determine if an address falls within one of the reserved ranges. -/
def isPrivateAddress : Address → Bool
  | v4 b =>
      let first := (b.data.getD 0 0).toNat
      let second := (b.data.getD 1 0).toNat
      first == 10 || first == 127 ||
        (first == 172 && decide (16 ≤ second) && decide (second ≤ 31)) ||
        (first == 192 && second == 168)
  | v6 b =>
      (b.data.getD 0 0 == 0xfd && b.data.getD 1 0 == 0) ||
        ((b.data.take 15).all (· == 0) &&
          (b.data.getD 15 0 == 0 || b.data.getD 15 0 == 1))

/-- Determine if an address is localhost. -/
def isLocalHostAddress (a : Address) : Bool :=
  a ∈ [v4 (RLP.alignRight 4 [127, 0, 0, 1]), v4 (RLP.alignRight 4 []),
    v6 (RLP.alignRight 16 [1]), v6 (RLP.alignRight 16 [])]

def isPublicAddress (a : Address) : Bool :=
  !(a.isPrivateAddress || a.isLocalHostAddress)

def toBytes : Address → Bytes
  | v4 b => b.data
  | v6 b => b.data

end Address

/-- How an endpoint is written. -/
inductive RLPAppend where
  | streamList
  | streamInline
deriving DecidableEq

structure NodeIPEndpoint where
  address : Address := .unspecified
  udpPort : UInt16 := 0
  tcpPort : UInt16 := 0
deriving DecidableEq

namespace NodeIPEndpoint

/-- `operator bool`. -/
def isSet (e : NodeIPEndpoint) : Bool :=
  !e.address.isUnspecified && decide (e.udpPort > 0) && decide (e.tcpPort > 0)

def isAllowed (allowLocal : Bool) (e : NodeIPEndpoint) : Bool :=
  if allowLocal then !e.address.isUnspecified else e.address.isPublicAddress

def streamRLP (e : NodeIPEndpoint) (s : RLPStream) (append : RLPAppend) :
    Except Exception RLPStream := do
  let s ← if append = .streamList then s.appendList 3 else .ok s
  let s ← s.append e.address.toBytes
  let s ← s.appendInt e.udpPort.toNat
  s.appendInt e.tcpPort.toNat

/-- The address, as the size of the first item tells. -/
def interpretAddress : StateT RLP (Except Exception) Address := do
  let first ← access 0
  let size ← first.size
  if size = 4 then
    let first ← access 0
    let b ← first.toBytes
    pure (.v4 (RLP.alignRight 4 b))
  else
    let first ← access 0
    let size ← first.size
    if size = 16 then
      let first ← access 0
      let b ← first.toBytes
      pure (.v6 (RLP.alignRight 16 b))
    else pure .unspecified

/-- Read the first three items of a list. -/
def interpretRLP : StateT RLP (Except Exception) NodeIPEndpoint := do
  let address ← interpretAddress
  let second ← access 1
  let udpPort ← second.toInt 2 .strict
  let third ← access 2
  let tcpPort ← third.toInt 2 .strict
  pure ⟨address, UInt16.ofNat udpPort, UInt16.ofNat tcpPort⟩

/-- An endpoint that is an item. -/
def ofRLP (r : RLP) : Except Exception NodeIPEndpoint :=
  interpretRLP.run' r

/-- What an endpoint is in a list. -/
def items (e : NodeIPEndpoint) : List RLPTree :=
  [.data e.address.toBytes, .int e.udpPort.toNat, .int e.tcpPort.toNat]

variable {r : RLP} {ts : List RLPTree} {e : NodeIPEndpoint}

theorem bytesRequired_port (n : UInt16) : bytesRequired n.toNat < 56 := by
  have hlt := n.toNat_lt
  have hle : bytesRequired n.toNat ≤ 2 :=
    (bytesRequired_le_iff n.toNat 2).2 (by omega)
  omega

/-- A port is read as it was written. -/
theorem toInt_port {n : UInt16} (h : Rep r (.int n.toNat)) :
    r.toInt 2 .strict = .ok n.toNat :=
  h.toInt n.toNat_lt (bytesRequired_port n) .strict

theorem alignRight_data {N : Nat} (x : FixedHash N) :
    RLP.alignRight N x.data = x :=
  FixedHash.ext (by simp [RLP.alignRight, x.size_data])

/-- An address is read from the first item. -/
theorem run_interpretAddress {a : Address} (h : Listing r ts)
    (hfirst : ts[0]? = some (.data a.toBytes)) :
    ∃ r', interpretAddress.run r = .ok (a, r') ∧ Listing r' ts := by
  obtain ⟨c, r₁, haccess, hc, h₁⟩ := h.access hfirst
  obtain ⟨c', r₂, haccess', hc', h₂⟩ := h₁.access hfirst
  rw [interpretAddress, RLP.access_bind haccess, RLP.lift_bind hc.size]
  cases a with
  | v4 b =>
      have hsize : (Address.v4 b).toBytes.length = 4 := b.size_data
      refine ⟨r₂, ?_, h₂⟩
      rw [if_pos hsize, RLP.access_bind haccess', RLP.lift_bind hc'.toBytes]
      rw [show (Address.v4 b).toBytes = b.data from rfl, alignRight_data b]
      rfl
  | v6 b =>
      have hsize : (Address.v6 b).toBytes.length = 16 := b.size_data
      have hnot : ¬ (Address.v6 b).toBytes.length = 4 := by omega
      obtain ⟨c'', r₃, haccess'', hc'', h₃⟩ := h₂.access hfirst
      refine ⟨r₃, ?_, h₃⟩
      rw [if_neg hnot, RLP.access_bind haccess', RLP.lift_bind hc'.size,
        if_pos hsize, RLP.access_bind haccess'', RLP.lift_bind hc''.toBytes]
      rw [show (Address.v6 b).toBytes = b.data from rfl, alignRight_data b]
      rfl

/-- An endpoint is read from the first items of a list. -/
theorem run_interpretRLP (h : Listing r (e.items ++ ts)) :
    ∃ r', interpretRLP.run r = .ok (e, r') ∧ Listing r' (e.items ++ ts) := by
  have hfirst : (e.items ++ ts)[0]? = some (.data e.address.toBytes) := rfl
  have hsecond : (e.items ++ ts)[1]? = some (.int e.udpPort.toNat) := rfl
  have hthird : (e.items ++ ts)[2]? = some (.int e.tcpPort.toNat) := rfl
  obtain ⟨r₁, haddress, h₁⟩ := run_interpretAddress h hfirst
  obtain ⟨second, r₂, haccess, hudp, h₂⟩ := h₁.access hsecond
  obtain ⟨third, r₃, haccess', htcp, h₃⟩ := h₂.access hthird
  refine ⟨r₃, ?_, h₃⟩
  rw [interpretRLP, StateT.run_bind, haddress, ok_bind,
    RLP.access_bind haccess, RLP.lift_bind (toInt_port hudp),
    RLP.access_bind haccess', RLP.lift_bind (toInt_port htcp)]
  simp

/-- An endpoint is read back from the list it is written as. -/
theorem ofRLP_list (h : Rep r (.list e.items)) : ofRLP r = .ok e := by
  have hlist : Listing r (e.items ++ []) := by
    rw [List.append_nil]
    exact h.listing
  obtain ⟨r', hrun, -⟩ := run_interpretRLP hlist
  rw [ofRLP, StateT.run'_eq, hrun]
  rfl

/-- An endpoint is written as its items. -/
theorem streamRLP_inline (e : NodeIPEndpoint) (s : RLPStream) :
    e.streamRLP s .streamInline = RLPTree.writeItems e.items s := by
  simp only [streamRLP, items, RLPTree.writeItems, RLPTree.write,
    RLPTree.appendInt_eq_write _ (bytesRequired_port _), RLPTree.int,
    reduceCtorEq, ↓reduceIte, ok_bind, RLP.bind_ok]

/-- An endpoint is written as the list of its items. -/
theorem streamRLP_list (e : NodeIPEndpoint) (s : RLPStream) :
    e.streamRLP s .streamList = RLPTree.write (.list e.items) s := by
  have hinline := e.streamRLP_inline
  simp only [streamRLP, reduceCtorEq, ↓reduceIte, ok_bind] at hinline ⊢
  rw [RLPTree.write]
  simp only [hinline]
  rfl

end NodeIPEndpoint

end Web3Core
