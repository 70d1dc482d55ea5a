/-
Discovery datagrams round trip: what is signed passes the checks of the
receiver, who learns the key that signed it and reads the packet that was sent.
-/
import Web3Core.Datagram

namespace Web3Core

open RLP (access Listing Rep)
open RLPTree (length_encodeData_le length_encode_list_le length_encodeItems_le)

/-- A number of 32 bits needs few bytes. -/
theorem bytesRequired_word (n : UInt32) : bytesRequired n.toNat < 56 := by
  have hlt := n.toNat_lt
  have hle : bytesRequired n.toNat ≤ 4 :=
    (bytesRequired_le_iff n.toNat 4).2 (by omega)
  omega

theorem toInt_word {r : RLP} {n : UInt32} (h : Rep r (.int n.toNat)) :
    r.toInt 4 .strict = .ok n.toNat :=
  h.toInt n.toNat_lt (bytesRequired_word n) .strict

theorem bytesRequired_version : bytesRequired c_protocolVersion < 56 := by
  have hle : bytesRequired c_protocolVersion ≤ 1 :=
    (bytesRequired_le_iff c_protocolVersion 1).2 (by decide)
  omega

variable {r : RLP} {b : BytesConstRef}

namespace PingNode

/-- The item that a packet is written as. -/
def tree (p : PingNode) : RLPTree :=
  .list [.int c_protocolVersion, .list p.source.items, .list p.destination.items,
    .int p.ts.toNat]

theorem streamRLP_eq (p : PingNode) (s : RLPStream) :
    p.streamRLP s = RLPTree.write p.tree s := by
  simp only [streamRLP, tree, RLPTree.write, RLPTree.writeItems,
    NodeIPEndpoint.streamRLP_list, RLPTree.int,
    RLPTree.appendInt_eq_write _ (bytesRequired_word _),
    RLPTree.appendInt_eq_write _ bytesRequired_version, RLP.bind_ok]
  rfl

/-- A packet is of this version. -/
theorem run_isCurrent (p : PingNode) (h : Rep r p.tree) :
    ∃ r', isCurrent.run r = .ok (true, r') ∧ Listing r' [
      .int c_protocolVersion, .list p.source.items, .list p.destination.items,
      .int p.ts.toNat] := by
  have hlist := Rep.listing h
  obtain ⟨c, r₁, haccess, hc, h₁⟩ := hlist.access (i := 0) rfl
  obtain ⟨c', r₂, haccess', hc', h₂⟩ := h₁.access (i := 0) rfl
  have hcount : r.itemCountStrict = .ok 4 := Rep.itemCountStrict h
  have hversion : c'.toInt 4 .strict = .ok c_protocolVersion :=
    hc'.toInt (by decide) bytesRequired_version .strict
  refine ⟨r₂, ?_, h₂⟩
  rw [isCurrent, StateT.run_bind, StateT.run_get, pure_bind]
  rw [RLP.lift_bind hcount, if_pos rfl, RLP.access_bind haccess,
    RLP.lift_bind (hc.isInt bytesRequired_version), if_pos rfl,
    RLP.access_bind haccess', RLP.lift_bind hversion]
  rfl

/-- A packet is read as of this version. -/
theorem run_interpretFields (p q : PingNode) (h : Rep r p.tree) :
    q.interpretFields.run' r =
      .ok { p with version := UInt32.ofNat c_protocolVersion } := by
  obtain ⟨r₁, hcurrent, h₁⟩ := p.run_isCurrent h
  obtain ⟨c, r₂, haccess, hc, h₂⟩ := h₁.access (i := 1) rfl
  obtain ⟨c', r₃, haccess', hc', h₃⟩ := h₂.access (i := 2) rfl
  obtain ⟨c'', r₄, haccess'', hc'', -⟩ := h₃.access (i := 3) rfl
  rw [StateT.run'_eq, interpretFields, StateT.run_bind, hcurrent, ok_bind,
    if_pos rfl, RLP.access_bind haccess,
    RLP.lift_bind (NodeIPEndpoint.ofRLP_list hc), RLP.access_bind haccess',
    RLP.lift_bind (NodeIPEndpoint.ofRLP_list hc'), RLP.access_bind haccess'',
    RLP.lift_bind (toInt_word hc'')]
  simp

theorem readFrom_of_rep (p : PingNode) (h : Rep r p.tree)
    (href : RLP.ofRef b .veryStrict = .ok r) :
    let p' := { p with version := UInt32.ofNat c_protocolVersion }
    interpretRLP {} b = .ok p' ∧ fromBytesConstRef b = p' := by
  intro p'
  have hread : interpretRLP {} b = .ok p' := by
    rw [interpretRLP, href, ok_bind]
    exact p.run_interpretFields {} h
  exact ⟨hread, by rw [fromBytesConstRef, hread]⟩

end PingNode

namespace Pong

def tree (p : Pong) : RLPTree :=
  .list [.list p.destination.items, .data p.echo.data, .int p.ts.toNat]

theorem streamRLP_eq (p : Pong) (s : RLPStream) :
    p.streamRLP s = RLPTree.write p.tree s := by
  simp only [streamRLP, tree, RLPTree.write, RLPTree.writeItems,
    NodeIPEndpoint.streamRLP_list, RLPTree.int, RLPStream.appendHash_eq,
    RLPTree.appendInt_eq_write _ (bytesRequired_word _), RLP.bind_ok]
  rfl

theorem run_interpretFields (p : Pong) (h : Rep r p.tree) :
    interpretFields.run' r = .ok p := by
  have hlist := Rep.listing h
  obtain ⟨c, r₁, haccess, hc, h₁⟩ := hlist.access (i := 0) rfl
  obtain ⟨c', r₂, haccess', hc', h₂⟩ := h₁.access (i := 1) rfl
  obtain ⟨c'', r₃, haccess'', hc'', -⟩ := h₂.access (i := 2) rfl
  rw [StateT.run'_eq, interpretFields, RLP.access_bind haccess,
    RLP.lift_bind (NodeIPEndpoint.ofRLP_list hc), RLP.access_bind haccess',
    RLP.lift_bind hc'.toHash_data, RLP.access_bind haccess'',
    RLP.lift_bind (toInt_word hc'')]
  simp

theorem readFrom_of_rep (p : Pong) (h : Rep r p.tree)
    (href : RLP.ofRef b .veryStrict = .ok r) :
    interpretRLP b = .ok p ∧ fromBytesConstRef b = p := by
  have hread : interpretRLP b = .ok p := by
    rw [interpretRLP, href, ok_bind]
    exact p.run_interpretFields h
  exact ⟨hread, by rw [fromBytesConstRef, hread]⟩

end Pong

namespace FindNode

def tree (p : FindNode) : RLPTree :=
  .list [.data p.target.data, .int p.ts.toNat]

theorem streamRLP_eq (p : FindNode) (s : RLPStream) :
    p.streamRLP s = RLPTree.write p.tree s := by
  simp only [streamRLP, tree, RLPTree.write, RLPTree.writeItems, RLPTree.int,
    RLPStream.appendHash_eq,
    RLPTree.appendInt_eq_write _ (bytesRequired_word _), RLP.bind_ok]
  rfl

theorem run_interpretFields (p : FindNode) (h : Rep r p.tree) :
    interpretFields.run' r = .ok p := by
  have hlist := Rep.listing h
  obtain ⟨c, r₁, haccess, hc, h₁⟩ := hlist.access (i := 0) rfl
  obtain ⟨c', r₂, haccess', hc', -⟩ := h₁.access (i := 1) rfl
  rw [StateT.run'_eq, interpretFields, RLP.access_bind haccess,
    RLP.lift_bind hc.toHash_data, RLP.access_bind haccess',
    RLP.lift_bind (toInt_word hc')]
  simp

theorem readFrom_of_rep (p : FindNode) (h : Rep r p.tree)
    (href : RLP.ofRef b .veryStrict = .ok r) :
    interpretRLP b = .ok p ∧ fromBytesConstRef b = p := by
  have hread : interpretRLP b = .ok p := by
    rw [interpretRLP, href, ok_bind]
    exact p.run_interpretFields h
  exact ⟨hread, by rw [fromBytesConstRef, hread]⟩

end FindNode

namespace Neighbour

def tree (n : Neighbour) : RLPTree :=
  .list (n.endpoint.items ++ [.data n.node.data])

theorem streamRLP_eq (n : Neighbour) (s : RLPStream) :
    n.streamRLP s = RLPTree.write n.tree s := by
  simp only [streamRLP, tree, RLPTree.write, RLPTree.writeItems_append,
    NodeIPEndpoint.streamRLP_inline, RLPStream.appendHash_eq]
  simp only [RLPTree.writeItems, RLPTree.write, RLP.bind_ok]
  rfl

theorem ofRLP_tree (n : Neighbour) (h : Rep r n.tree) : ofRLP r = .ok n := by
  obtain ⟨r₁, hendpoint, h₁⟩ :=
    NodeIPEndpoint.run_interpretRLP (Rep.listing h)
  obtain ⟨c, r₂, haccess, hc, -⟩ := h₁.access (i := 3) rfl
  rw [ofRLP, StateT.run'_eq, interpretFields, StateT.run_bind, hendpoint,
    ok_bind, RLP.access_bind haccess, RLP.lift_bind hc.toBytes]
  simp [FixedHash.ofBytes, n.node.size_data, NodeIPEndpoint.alignRight_data]

end Neighbour

namespace Neighbours

def tree (p : Neighbours) : RLPTree :=
  .list [.list (p.neighbours.map Neighbour.tree), .int p.ts.toNat]

theorem foldlM_streamRLP (ns : List Neighbour) (s : RLPStream) :
    ns.foldlM (fun s n => n.streamRLP s) s =
      RLPTree.writeItems (ns.map Neighbour.tree) s := by
  induction ns generalizing s with
  | nil => rfl
  | cons n ns ih =>
      rw [List.foldlM_cons, List.map_cons, RLPTree.writeItems,
        Neighbour.streamRLP_eq]
      simp only [ih]

theorem streamRLP_eq (p : Neighbours) (s : RLPStream) :
    p.streamRLP s = RLPTree.write p.tree s := by
  simp only [streamRLP, tree, RLPTree.write, RLPTree.writeItems, RLPTree.int,
    foldlM_streamRLP, List.length_map,
    RLPTree.appendInt_eq_write _ (bytesRequired_word _), RLP.bind_ok,
    bind_assoc]
  rfl

theorem mapM_ofRLP (ns : List Neighbour) {rs : List RLP}
    (h : List.Forall₂ Rep rs (ns.map Neighbour.tree)) :
    rs.mapM Neighbour.ofRLP = .ok ns := by
  induction ns generalizing rs with
  | nil =>
      cases h
      rfl
  | cons n ns ih =>
      cases h with
      | cons hn hns =>
          rw [List.mapM_cons, n.ofRLP_tree hn, ih hns]
          rfl

theorem run_interpretFields (p : Neighbours) (h : Rep r p.tree) :
    interpretFields.run' r = .ok p := by
  have hlist := Rep.listing h
  obtain ⟨c, r₁, haccess, hc, h₁⟩ := hlist.access (i := 0) rfl
  obtain ⟨c', r₂, haccess', hc', -⟩ := h₁.access (i := 1) rfl
  obtain ⟨rs, hitems, hrs⟩ := hc.toList
  rw [StateT.run'_eq, interpretFields, RLP.access_bind haccess,
    RLP.lift_bind hitems, RLP.lift_bind (mapM_ofRLP _ hrs),
    RLP.access_bind haccess', RLP.lift_bind (toInt_word hc')]
  simp

theorem readFrom_of_rep (p : Neighbours) (h : Rep r p.tree)
    (href : RLP.ofRef b .veryStrict = .ok r) :
    interpretRLP b = .ok p ∧ ∀ now, fromBytesConstRef now b = p := by
  have hread : interpretRLP b = .ok p := by
    rw [interpretRLP, href, ok_bind]
    exact p.run_interpretFields h
  exact ⟨hread, fun now => by rw [fromBytesConstRef, hread]⟩

end Neighbours

namespace RLPTree

/-- A short byte string has one byte in front. -/
theorem length_encode_data_short {b : Bytes} (hb : b.length < 56) :
    (encode (.data b)).length ≤ b.length + 1 := by
  rw [encode, encodeData]
  split
  · omega
  · rw [List.length_append, header, if_pos hb, List.length_singleton]
    omega

/-- A list of two items or more is of three bytes or more. -/
theorem length_encode_list_pos (t u : RLPTree) (ts : List RLPTree) :
    3 ≤ (encode (.list (t :: u :: ts))).length := by
  have hheader := length_header_pos 0xc0 (encodeItems (t :: u :: ts)).length
  have ht := length_encode_pos t
  have hu := length_encode_pos u
  rw [encode, encodeList]
  simp only [encodeItems, List.length_append] at hheader ⊢
  omega

end RLPTree

theorem NodeIPEndpoint.length_items (e : NodeIPEndpoint) :
    (RLPTree.encodeItems e.items).length ≤ 23 := by
  have haddress : e.address.toBytes.length ≤ 16 := by
    cases e.address with
    | v4 b => exact b.size_data.le.trans (by omega)
    | v6 b => exact b.size_data.le
  have hport : ∀ n : UInt16, (bigEndian n.toNat).length ≤ 2 := by
    intro n
    rw [length_bigEndian]
    exact (bytesRequired_le_iff n.toNat 2).2 n.toNat_lt
  have hfirst := @RLPTree.length_encode_data_short e.address.toBytes (by omega)
  have hudp := hport e.udpPort
  have htcp := hport e.tcpPort
  have hsecond := @RLPTree.length_encode_data_short
    (bigEndian e.udpPort.toNat) (by omega)
  have hthird := @RLPTree.length_encode_data_short
    (bigEndian e.tcpPort.toNat) (by omega)
  simp only [items, RLPTree.int, RLPTree.encodeItems, List.length_append,
    List.length_nil]
  omega

theorem Neighbour.length_tree (n : Neighbour) :
    (RLPTree.encode n.tree).length ≤ 105 := by
  have hendpoint := n.endpoint.length_items
  have hnode := @length_encodeData_le n.node.data (by rw [n.node.size_data]; omega)
  have hitems : (RLPTree.encodeItems
      (n.endpoint.items ++ [.data n.node.data])).length ≤ 96 := by
    rw [RLPTree.encodeItems_append, List.length_append]
    simp only [RLPTree.encodeItems, List.append_nil]
    rw [n.node.size_data] at hnode
    omega
  have hlist := length_encode_list_le
    (hitems.trans_lt (by omega : 96 < 2 ^ 64))
  rw [tree]
  omega

theorem length_encode_word (n : UInt32) :
    (RLPTree.encode (.int n.toNat)).length ≤ 5 := by
  have hn : (bigEndian n.toNat).length ≤ 4 := by
    rw [length_bigEndian]
    exact (bytesRequired_le_iff n.toNat 4).2 n.toNat_lt
  have hlength := @RLPTree.length_encode_data_short (bigEndian n.toNat)
    (by omega)
  rw [RLPTree.int]
  omega

namespace DatagramPacket

/-- The item that a packet is written as. -/
def tree : DatagramPacket → RLPTree
  | pingNode p => p.tree
  | pong p => p.tree
  | findNode p => p.tree
  | neighbours p => p.tree

/-- A packet as it is received: a ping is of this version. -/
def received : DatagramPacket → DatagramPacket
  | pingNode p => pingNode { p with version := UInt32.ofNat c_protocolVersion }
  | p => p

/-- There are not more neighbours than a vector has room for. -/
def Bounded : DatagramPacket → Prop
  | neighbours p => p.neighbours.length < 2 ^ 57
  | _ => True

theorem streamRLP_eq (p : DatagramPacket) (s : RLPStream) :
    p.streamRLP s = RLPTree.write p.tree s := by
  cases p with
  | pingNode p => exact p.streamRLP_eq s
  | pong p => exact p.streamRLP_eq s
  | findNode p => exact p.streamRLP_eq s
  | neighbours p => exact p.streamRLP_eq s

theorem length_tree_pos (p : DatagramPacket) :
    3 ≤ (RLPTree.encode p.tree).length := by
  cases p with
  | pingNode p => exact RLPTree.length_encode_list_pos _ _ _
  | pong p => exact RLPTree.length_encode_list_pos _ _ _
  | findNode p => exact RLPTree.length_encode_list_pos _ _ _
  | neighbours p => exact RLPTree.length_encode_list_pos _ _ _

theorem fits_tree (p : DatagramPacket) (h : p.Bounded) : p.tree.Fits := by
  have hendpoint : ∀ e : NodeIPEndpoint,
      (RLPTree.encode (.list e.items)).length ≤ 32 := by
    intro e
    have hitems := e.length_items
    have hlist := length_encode_list_le
      (hitems.trans_lt (by omega : 23 < 2 ^ 64))
    omega
  have hhash : ∀ {N : Nat} (x : FixedHash N), N ≤ 64 →
      (RLPTree.encode (.data x.data)).length ≤ 73 := by
    intro N x hN
    have hle := @length_encodeData_le x.data (by rw [x.size_data]; omega)
    rw [x.size_data] at hle
    omega
  have hfits : ∀ {ts : List RLPTree} {n : Nat},
      (RLPTree.encodeItems ts).length ≤ n → n < 2 ^ 64 - 0x200 →
      (RLPTree.list ts).Fits := by
    intro ts n hitems hn
    have hlist := length_encode_list_le (hitems.trans_lt (by omega : n < 2 ^ 64))
    rw [RLPTree.Fits]
    omega
  cases p with
  | pingNode p =>
      have hversion : (RLPTree.encode (.int c_protocolVersion)).length ≤ 5 :=
        length_encode_word 4
      have hsource := hendpoint p.source
      have hdestination := hendpoint p.destination
      have hts := length_encode_word p.ts
      refine hfits (n := 100) ?_ (by omega)
      simp only [RLPTree.encodeItems, List.length_append, List.length_nil]
      omega
  | pong p =>
      have hdestination := hendpoint p.destination
      have hecho := hhash p.echo (by omega)
      have hts := length_encode_word p.ts
      refine hfits (n := 200) ?_ (by omega)
      simp only [RLPTree.encodeItems, List.length_append, List.length_nil]
      omega
  | findNode p =>
      have htarget := hhash p.target (by omega)
      have hts := length_encode_word p.ts
      refine hfits (n := 100) ?_ (by omega)
      simp only [RLPTree.encodeItems, List.length_append, List.length_nil]
      omega
  | neighbours p =>
      have hcount : p.neighbours.length < 2 ^ 57 := h
      have hts := length_encode_word p.ts
      have hall : (RLPTree.encodeItems
          (p.neighbours.map Neighbour.tree)).length ≤
            p.neighbours.length * 105 := by
        have hle := @length_encodeItems_le (p.neighbours.map Neighbour.tree) 105
          fun t ht => by
            obtain ⟨n, -, rfl⟩ := List.mem_map.1 ht
            exact n.length_tree
        rwa [List.length_map] at hle
      have hlist := length_encode_list_le
        (hall.trans_lt (by omega : p.neighbours.length * 105 < 2 ^ 64))
      refine hfits (n := p.neighbours.length * 105 + 14) ?_ (by omega)
      simp only [RLPTree.encodeItems, List.length_append, List.length_nil]
      omega

variable {crypto : DatagramCrypto} {k : H256}

/-- What is signed: the type and the payload. -/
def signedBytes (p : DatagramPacket) : Bytes :=
  p.packetType :: RLPTree.encode p.tree

/-- The datagram of a packet: the hash, the signature and what was signed. -/
def datagram (crypto : DatagramCrypto) (p : DatagramPacket) (k : H256) : Bytes :=
  let sig := crypto.sign k (crypto.sha3 p.signedBytes)
  (crypto.sha3 (sig.data ++ p.signedBytes)).data ++ (sig.data ++ p.signedBytes)

/-- A hash, a signature and what was signed are put next to each other. -/
theorem copyTo_signed (hash : H256) (sig : FixedHash 65) (b data : Bytes) :
    let filled := copyTo b (copyTo sig.data
      (resize data (32 + 65 + b.length)) 32 65) (32 + 65) b.length
    filled.drop 32 = sig.data ++ b ∧
      copyTo hash.data filled 0 32 = hash.data ++ (sig.data ++ b) := by
  intro filled
  have hlength : (resize data (32 + 65 + b.length)).length =
      32 + 65 + b.length := by
    rw [resize, List.length_append, List.length_take, List.length_replicate]
    omega
  obtain ⟨front, middle, back, hbuffer, hfront, hmiddle, hback⟩ :
      ∃ front middle back, resize data (32 + 65 + b.length) =
          front ++ (middle ++ back) ∧ front.length = 32 ∧ middle.length = 65 ∧
          back.length = b.length := by
    refine ⟨(resize data (32 + 65 + b.length)).take 32,
      ((resize data (32 + 65 + b.length)).drop 32).take 65,
      ((resize data (32 + 65 + b.length)).drop 32).drop 65, ?_, ?_, ?_, ?_⟩
    · rw [List.take_append_drop, List.take_append_drop]
    · rw [List.length_take]
      omega
    · rw [List.length_take, List.length_drop]
      omega
    · rw [List.length_drop, List.length_drop]
      omega
  have hsig : copyTo sig.data (front ++ (middle ++ back)) 32 65 =
      (front ++ sig.data) ++ back := by
    rw [copyTo_middle hfront sig.size_data hmiddle, List.append_assoc]
  have hfilled : filled = front ++ (sig.data ++ b) := by
    have hpos : (front ++ sig.data).length = 32 + 65 := by
      rw [List.length_append, hfront, sig.size_data]
    show copyTo b (copyTo sig.data (resize data (32 + 65 + b.length)) 32 65)
      (32 + 65) b.length = _
    rw [hbuffer, hsig, copyTo_back hpos hback.symm, List.append_assoc]
  constructor
  · rw [hfilled, ← hfront, List.drop_left]
  · rw [hfilled, copyTo_front (hash.size_data.trans hfront.symm)
      hash.size_data.le]

/-- A packet is signed over whatever the datagram held. -/
theorem sign_eq (p : DatagramPacket) (h : p.Bounded) (data : Bytes) :
    p.sign crypto k data =
      .ok (crypto.sha3 p.signedBytes, p.datagram crypto k) := by
  have hfits := p.fits_tree h
  have hlt : (RLPTree.encode p.tree).length < 2 ^ 64 := by
    rw [RLPTree.Fits] at hfits
    omega
  have hstart : RLPStream.appendRaw {} [p.packetType] 1 =
      .ok ⟨[p.packetType], []⟩ := rfl
  have hstream : p.streamRLP ⟨[p.packetType], []⟩ = .ok ⟨p.signedBytes, []⟩ := by
    rw [p.streamRLP_eq, RLPTree.write_eq_appendRaw _ _ hlt]
    rfl
  have hout : RLPStream.out ⟨p.signedBytes, []⟩ = .ok p.signedBytes := rfl
  have hcopied := fun hash => copyTo_signed hash
    (crypto.sign k (crypto.sha3 p.signedBytes)) p.signedBytes data
  rw [sign, hstart, ok_bind, hstream, ok_bind, hout, ok_bind]
  dsimp only at hcopied ⊢
  rw [(hcopied _).2, (hcopied (crypto.sha3 [])).1]
  rfl

/-- The parts of a datagram as the receiver cuts it. -/
theorem cropped_datagram {hash sig b : Bytes} (hhash : hash.length = 32)
    (hsig : sig.length = 65) (hb : b.length < 2 ^ 64 - 0x80) :
    let packet := BytesConstRef.ofBytes (hash ++ (sig ++ b))
    let hashedBytes := packet.cropped 32 (packet.count - 32)
    let signed := hashedBytes.cropped 65 (hashedBytes.count - 65)
    (packet.cropped 0 32).toBytes = hash ∧
      (packet.cropped 32 65).toBytes = sig ∧
      hashedBytes.toBytes = sig ++ b ∧ signed.toBytes = b ∧
      signed.count = b.length := by
  intro packet hashedBytes signed
  have hcount : packet.count = 32 + (65 + b.length) := by
    show (hash ++ (sig ++ b)).length = _
    rw [List.length_append, List.length_append, hhash, hsig]
  have hmax : ∀ n, n < 2 ^ 64 - 1 → n ≠ sizeMax := by
    intro n hn
    rw [sizeMax]
    omega
  have hwindow : ∀ p n, p + n ≤ packet.count → n ≠ sizeMax →
      packet.cropped p n = .window (hash ++ (sig ++ b)) p n := by
    intro p n hle hn
    have hcropped := BytesConstRef.cropped_of_le
      (show packet.data = some 0 from rfl) hle hn
    rwa [Nat.zero_add] at hcropped
  have hall : (sig ++ b).length = packet.count - 32 := by
    rw [List.length_append, hcount, hsig]
    omega
  have hhashed : hashedBytes =
      .window (hash ++ (sig ++ b)) 32 (sig ++ b).length := by
    rw [hall]
    exact hwindow 32 (packet.count - 32) (by omega) (hmax _ (by omega))
  have hcountHashed : hashedBytes.count = 65 + b.length := by
    rw [hhashed]
    show (sig ++ b).length = _
    rw [List.length_append, hsig]
  have hsigned : signed = .window (hash ++ (sig ++ b)) (32 + 65) b.length := by
    have hcropped := @BytesConstRef.cropped_of_le hashedBytes 32
      (by rw [hhashed]; rfl) 65 (hashedBytes.count - 65) (by omega)
      (hmax _ (by omega))
    have hmem : hashedBytes.mem = hash ++ (sig ++ b) := by
      rw [hhashed]
      rfl
    rw [hmem, hcountHashed, Nat.add_sub_cancel_left] at hcropped
    rw [← hcropped, ← Nat.add_sub_cancel_left (m := b.length) (n := 65),
      ← hcountHashed]
  have hholds : Holds (hash ++ (sig ++ b)) 0 hash :=
    ⟨[], sig ++ b, rfl, rfl⟩
  have hholdsSig : Holds (hash ++ (sig ++ b)) 32 sig := ⟨hash, b, rfl, hhash⟩
  have hholdsAll : Holds (hash ++ (sig ++ b)) 32 (sig ++ b) :=
    ⟨hash, [], by rw [List.append_nil], hhash⟩
  have hholdsRest : Holds (hash ++ (sig ++ b)) (32 + 65) b := by
    refine ⟨hash ++ sig, [], ?_, ?_⟩
    · rw [List.append_nil, List.append_assoc]
    · rw [List.length_append, hhash, hsig]
  refine ⟨?_, ?_, ?_, ?_, ?_⟩
  · rw [hwindow 0 32 (by omega) (hmax _ (by omega))]
    rw [← hhash]
    exact hholds.toBytes
  · rw [hwindow 32 65 (by omega) (hmax _ (by omega))]
    rw [← hsig]
    exact hholdsSig.toBytes
  · rw [hhashed]
    exact hholdsAll.toBytes
  · rw [hsigned]
    exact hholdsRest.toBytes
  · rw [hsigned]
    rfl

/-- The checks let a datagram pass if the key is recovered. -/
theorem checkDatagram_eq (p : DatagramPacket) (h : p.Bounded)
    (hrecover : crypto.recover (crypto.sign k (crypto.sha3 p.signedBytes))
      (crypto.sha3 p.signedBytes) = crypto.toPublic k)
    (hpublic : (crypto.toPublic k).data.all (· == 0) = false) :
    checkDatagram crypto (.ofBytes (p.datagram crypto k)) =
      some (crypto.toPublic k, p.packetType,
        .window (p.datagram crypto k) 98 (RLPTree.encode p.tree).length) := by
  have hpos := p.length_tree_pos
  have hfits := p.fits_tree h
  rw [RLPTree.Fits] at hfits
  have hlength : p.signedBytes.length = (RLPTree.encode p.tree).length + 1 := rfl
  obtain ⟨sig, hsig⟩ : ∃ sig, sig = crypto.sign k (crypto.sha3 p.signedBytes) :=
    ⟨_, rfl⟩
  obtain ⟨hash, hhash⟩ : ∃ hash, hash = crypto.sha3 (sig.data ++ p.signedBytes) :=
    ⟨_, rfl⟩
  have hdata : p.datagram crypto k = hash.data ++ (sig.data ++ p.signedBytes) := by
    rw [hhash, hsig, datagram]
  rw [← hsig] at hrecover
  have hshort : p.signedBytes.length < 2 ^ 64 - 0x80 := by omega
  obtain ⟨hfront, hsigBytes, hhashed, hsigned, hcountSigned⟩ :=
    cropped_datagram hash.size_data sig.size_data hshort
  have hcount : (BytesConstRef.ofBytes
      (hash.data ++ (sig.data ++ p.signedBytes))).count =
        98 + (RLPTree.encode p.tree).length := by
    show (hash.data ++ (sig.data ++ p.signedBytes)).length = _
    rw [List.length_append, List.length_append, hash.size_data, sig.size_data,
      hlength]
    omega
  have hfirst : ∀ v : BytesConstRef, v.toBytes = p.signedBytes →
      v.count = p.signedBytes.length → v.get 0 = .ok p.packetType := by
    intro v hv hn
    have hget : p.signedBytes[0]? = some p.packetType := rfl
    rw [BytesConstRef.get, hv, hget, if_pos (by omega)]
  rw [hdata, checkDatagram, if_neg (by omega)]
  dsimp only
  rw [hhashed, hfront, if_neg (by rw [hhash]; simp), hsigned, hsigBytes,
    NodeIPEndpoint.alignRight_data, hrecover, hpublic]
  rw [hfirst _ hsigned hcountSigned,
    BytesConstRef.croppedFrom_of_le rfl (by omega), hcount]
  simp [BytesConstRef.ofBytes]

/-- A payload is read without an exception, and gives the packet. -/
def ReadFrom (b : BytesConstRef) : DatagramPacket → Prop
  | pingNode p =>
      PingNode.interpretRLP {} b = .ok p ∧ PingNode.fromBytesConstRef b = p
  | pong p => Pong.interpretRLP b = .ok p ∧ Pong.fromBytesConstRef b = p
  | findNode p =>
      FindNode.interpretRLP b = .ok p ∧ FindNode.fromBytesConstRef b = p
  | neighbours p => Neighbours.interpretRLP b = .ok p ∧
      ∀ now, Neighbours.fromBytesConstRef now b = p

/-- A packet is read from a view of its encoding. -/
theorem readFrom_received {mem : Bytes} {q : Nat} (p : DatagramPacket)
    (hfits : p.tree.Fits) (hholds : Holds mem q (RLPTree.encode p.tree)) :
    p.received.ReadFrom (.window mem q (RLPTree.encode p.tree).length) := by
  have hrep := Rep.of_holds hfits hholds
  have href := hrep.ofRef .veryStrict
  cases p with
  | pingNode p => exact p.readFrom_of_rep hrep href
  | pong p => exact p.readFrom_of_rep hrep href
  | findNode p => exact p.readFrom_of_rep hrep href
  | neighbours p => exact p.readFrom_of_rep hrep href

/-- What is signed is received: the datagram passes the checks, which give the
public key and the type, and the payload is read as the packet. -/
theorem datagram_received (crypto : DatagramCrypto) (k : H256)
    (hrecover : ∀ h, crypto.recover (crypto.sign k h) h = crypto.toPublic k)
    (hpublic : crypto.toPublic k ≠ RLP.alignRight 64 []) (p : DatagramPacket)
    (hbounded : p.Bounded) (data : Bytes) :
    ∃ sighash signed payload, p.sign crypto k data = .ok (sighash, signed) ∧
      checkDatagram crypto (.ofBytes signed) =
        some (crypto.toPublic k, p.packetType, payload) ∧
      p.received.ReadFrom payload := by
  have hnonzero : (crypto.toPublic k).data.all (· == 0) = false := by
    by_contra hall
    rw [Bool.not_eq_false, List.all_eq_true] at hall
    refine hpublic (FixedHash.ext ?_)
    have hreplicate := List.eq_replicate_of_mem fun x hx =>
      eq_of_beq (hall x hx)
    rw [hreplicate, (crypto.toPublic k).size_data]
    rfl
  refine ⟨_, _, _, p.sign_eq hbounded data,
    p.checkDatagram_eq hbounded (hrecover _) hnonzero, ?_⟩
  refine p.readFrom_received (p.fits_tree hbounded) ?_
  refine ⟨(crypto.sha3 ((crypto.sign k (crypto.sha3 p.signedBytes)).data ++
    p.signedBytes)).data ++ ((crypto.sign k (crypto.sha3 p.signedBytes)).data ++
      [p.packetType]), [], ?_, ?_⟩
  · rw [datagram, signedBytes]
    simp only [List.append_assoc, List.append_nil, List.singleton_append]
  · simp only [List.length_append, FixedHash.size_data, List.length_singleton]

/-- Cryptography for examples: a key signs with itself. -/
def plainDatagrams : DatagramCrypto where
  sha3 b := RLP.alignRight 32 b
  sign k h := RLP.alignRight 65 (k.data ++ h.data)
  recover sig _ := RLP.alignRight 64 ((sig.data.drop 1).take 32)
  toPublic k := RLP.alignRight 64 k.data

/-- Two neighbours, one of each version of addresses. -/
theorem datagram_received_neighbours :
    let k : H256 := RLP.alignRight 32 [1]
    let p := DatagramPacket.neighbours
      ⟨[⟨⟨.v4 (RLP.alignRight 4 [8, 8, 4, 4]), 30303, 30304⟩,
          RLP.alignRight 64 [1]⟩,
        ⟨⟨.v6 (RLP.alignRight 16 [0xfe, 0x80]), 0, 65535⟩,
          RLP.alignRight 64 []⟩], 0⟩
    ∃ sighash signed payload, p.sign plainDatagrams k [] =
        .ok (sighash, signed) ∧
      checkDatagram plainDatagrams (.ofBytes signed) =
        some (plainDatagrams.toPublic k, p.packetType, payload) ∧
      p.received.ReadFrom payload := by
  intro k p
  refine datagram_received plainDatagrams k (fun h => ?_) ?_ p ?_ []
  · have hlength : (k.data ++ h.data).length = 64 := by
      rw [List.length_append, k.size_data, h.size_data]
    have hsig : (plainDatagrams.sign k h).data = 0 :: (k.data ++ h.data) := by
      show List.replicate (65 - min 65 (k.data ++ h.data).length) 0 ++
        (k.data ++ h.data).take 65 = _
      rw [hlength, List.take_of_length_le (by omega)]
      rfl
    show RLP.alignRight 64 (((plainDatagrams.sign k h).data.drop 1).take 32) =
      RLP.alignRight 64 k.data
    rw [hsig]
    rfl
  · decide
  · exact (by decide : 2 < 2 ^ 57)

end DatagramPacket

end Web3Core
