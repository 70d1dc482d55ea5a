/-
The answers to a request for neighbours: all of the nearest nodes are in them,
in their order, but a datagram of thirteen nodes with addresses of the sixth
version may be longer than it is allowed to be.
-/
import Web3Core.DatagramRoundTrip
import Web3Core.NodeTableNearest

namespace Web3Core

namespace RLPTree

/-- How many bytes an integer is written as. -/
def intSize (n : Nat) : Nat := if n < 0x80 then 1 else bytesRequired n + 1

theorem length_encode_int {n : Nat} (h : bytesRequired n < 56) :
    (encode (.int n)).length = intSize n := by
  rw [int, encode, encodeData, intSize, length_bigEndian]
  have hone := bytesRequired_le_iff n 1
  have hvalue := fromBigEndian_bigEndian n
  split
  · next hsingle =>
      obtain ⟨hlength, hhead⟩ := hsingle
      obtain ⟨x, hx⟩ := List.length_eq_one_iff.mp
        ((length_bigEndian n).trans hlength)
      have hn : n = x.toNat := by
        rw [← hvalue, hx]
        simp [fromBigEndian]
      rw [hx, List.headD_cons, ← hn] at hhead
      rw [length_bigEndian, hlength, if_pos hhead]
  · next hnot =>
      have hheader : (header 0x80 (bytesRequired n)).length = 1 := by
        rw [header, if_pos h, List.length_singleton]
      rw [List.length_append, length_bigEndian, hheader]
      split
      · next hsmall =>
          have hlength : bytesRequired n = 0 := by
            by_contra hsome
            have heq : bytesRequired n = 1 := by omega
            obtain ⟨x, hx⟩ := List.length_eq_one_iff.mp
              ((length_bigEndian n).trans heq)
            have hn : n = x.toNat := by
              rw [← hvalue, hx]
              simp [fromBigEndian]
            refine hnot ⟨heq, ?_⟩
            rw [hx, List.headD_cons, ← hn]
            exact hsmall
          omega
      · omega

theorem intSize_pos (n : Nat) : 1 ≤ intSize n := by
  rw [intSize]
  split
  · exact le_rfl
  · exact Nat.le_add_left 1 _

theorem intSize_le {n k : Nat} (h : n < 256 ^ k) : intSize n ≤ k + 1 := by
  have hle := (bytesRequired_le_iff n k).mpr h
  rw [intSize]
  split
  · exact Nat.le_add_left 1 k
  · exact Nat.succ_le_succ hle

/-- The length of a list of a payload that is not short. -/
theorem length_encode_list_of_le (ts : List RLPTree) {k : Nat}
    (hlow : 56 ≤ (encodeItems ts).length)
    (hhigh : (encodeItems ts).length < 256 ^ k) :
    (encode (.list ts)).length ≤ (encodeItems ts).length + (k + 1) ∧
      (256 ^ (k - 1) ≤ (encodeItems ts).length →
        (encode (.list ts)).length = (encodeItems ts).length + (k + 1)) := by
  have hle := (bytesRequired_le_iff (encodeItems ts).length k).mpr hhigh
  have hlength : (encode (.list ts)).length =
      (encodeItems ts).length + (bytesRequired (encodeItems ts).length + 1) := by
    rw [encode, encodeList, List.length_append, header, if_neg (by omega),
      List.length_cons, length_bigEndian]
    omega
  refine ⟨by omega, fun hlong => ?_⟩
  have hnot := (bytesRequired_le_iff (encodeItems ts).length (k - 1)).not.mpr
    (by omega)
  omega

end RLPTree

namespace Neighbour

open RLPTree (intSize encode encodeItems)

/-- An address is of the fourth version. -/
def isV4 (n : Neighbour) : Bool :=
  match n.endpoint.address with
  | .v4 _ => true
  | .v6 _ => false

/-- The bytes of the ports of a neighbour. -/
def portSize (n : Neighbour) : Nat :=
  intSize n.endpoint.udpPort.toNat + intSize n.endpoint.tcpPort.toNat

theorem portSize_le (n : Neighbour) : 2 ≤ n.portSize ∧ n.portSize ≤ 6 := by
  have hle : ∀ p : UInt16, intSize p.toNat ≤ 3 := fun p =>
    RLPTree.intSize_le (k := 2) p.toNat_lt
  have hudp := hle n.endpoint.udpPort
  have htcp := hle n.endpoint.tcpPort
  have hudp' := RLPTree.intSize_pos n.endpoint.udpPort.toNat
  have htcp' := RLPTree.intSize_pos n.endpoint.tcpPort.toNat
  rw [portSize]
  omega

/-- The length of a neighbour depends on its address and its ports. -/
theorem length_encode_tree (n : Neighbour) :
    (encode n.tree).length =
      n.endpoint.address.toBytes.length + n.portSize + 69 := by
  have haddress : 4 ≤ n.endpoint.address.toBytes.length ∧
      n.endpoint.address.toBytes.length ≤ 16 := by
    cases n.endpoint.address with
    | v4 b => exact ⟨b.size_data.ge, b.size_data.le.trans (by omega)⟩
    | v6 b => exact ⟨b.size_data.ge.trans' (by omega), b.size_data.le⟩
  have hfirst : (encode (.data n.endpoint.address.toBytes)).length =
      n.endpoint.address.toBytes.length + 1 := by
    rw [encode, RLPTree.encodeData, if_neg (by omega), List.length_append,
      RLPTree.header, if_pos (by omega), List.length_singleton, Nat.add_comm]
  have hnode : (encode (.data n.node.data)).length = 66 := by
    have hheader : (RLPTree.header 0x80 64).length = 2 := by decide +kernel
    rw [encode, RLPTree.encodeData, n.node.size_data, if_neg (by omega),
      List.length_append, hheader, n.node.size_data]
  have hport : ∀ p : UInt16, (encode (.int p.toNat)).length = intSize p.toNat :=
    fun p => RLPTree.length_encode_int (NodeIPEndpoint.bytesRequired_port p)
  have hitems : (encodeItems (n.endpoint.items ++
      [.data n.node.data])).length =
        n.endpoint.address.toBytes.length + n.portSize + 67 := by
    rw [RLPTree.encodeItems_append, NodeIPEndpoint.items]
    simp only [encodeItems, List.length_append, List.length_nil, hfirst, hport,
      hnode, portSize]
    omega
  have hports := n.portSize_le
  have hlist := RLPTree.length_encode_list_of_le (k := 1)
    (n.endpoint.items ++ [.data n.node.data]) (by omega) (by omega)
  rw [tree, hlist.2 (by omega), hitems]

end Neighbour

namespace Neighbours

open RLPTree (intSize encode encodeItems)

/-- The length of the neighbours of a packet. -/
def listSize (ns : List Neighbour) : Nat :=
  (ns.map fun n => (encode n.tree).length).sum

theorem length_encodeItems_tree (ns : List Neighbour) :
    (encodeItems (ns.map Neighbour.tree)).length = listSize ns := by
  induction ns with
  | nil => rfl
  | cons n ns ih =>
      rw [List.map_cons, encodeItems, List.length_append, ih]
      exact List.sum_cons.symm

/-- The length of a datagram of neighbours. -/
theorem length_datagram (crypto : DatagramCrypto) (k : H256) (p : Neighbours)
    (hlow : 56 ≤ listSize p.neighbours) (hhigh : listSize p.neighbours < 60000) :
    ((DatagramPacket.neighbours p).datagram crypto k).length ≤
        listSize p.neighbours + intSize p.ts.toNat + 104 ∧
      (256 ≤ listSize p.neighbours →
        ((DatagramPacket.neighbours p).datagram crypto k).length =
          listSize p.neighbours + intSize p.ts.toNat + 104) := by
  have hlength : ((DatagramPacket.neighbours p).datagram crypto k).length =
      98 + (encode p.tree).length := by
    rw [DatagramPacket.datagram, DatagramPacket.signedBytes]
    simp only [List.length_append, List.length_cons, FixedHash.size_data]
    exact (by omega : ∀ n, 32 + (65 + (n + 1)) = 98 + n) _
  have hts : intSize p.ts.toNat ≤ 5 :=
    RLPTree.intSize_le (k := 4) p.ts.toNat_lt
  have hinner := RLPTree.length_encode_list_of_le (k := 2)
    (p.neighbours.map Neighbour.tree)
    (by rw [length_encodeItems_tree]; exact hlow)
    (by rw [length_encodeItems_tree]; omega)
  rw [length_encodeItems_tree] at hinner
  have hpos := RLPTree.length_encodeItems_lt (p.neighbours.map Neighbour.tree)
  rw [length_encodeItems_tree] at hpos
  have hitems : (encodeItems [.list (p.neighbours.map Neighbour.tree),
      .int p.ts.toNat]).length =
        (encode (.list (p.neighbours.map Neighbour.tree))).length +
          intSize p.ts.toNat := by
    rw [encodeItems, encodeItems, encodeItems, List.append_nil,
      List.length_append, RLPTree.length_encode_int (bytesRequired_word p.ts)]
  have houter := RLPTree.length_encode_list_of_le (k := 2)
    [.list (p.neighbours.map Neighbour.tree), .int p.ts.toNat]
    (by omega) (by omega)
  rw [hlength, tree]
  constructor
  · omega
  · intro hlong
    omega

/-- The length of some neighbours, of which as many as there are may have
addresses of the sixth version. -/
theorem listSize_eq (ns : List Neighbour) :
    listSize ns = (ns.map fun n => n.endpoint.address.toBytes.length).sum +
      (ns.map Neighbour.portSize).sum + ns.length * 69 := by
  induction ns with
  | nil => rfl
  | cons n ns ih =>
      have hcons : listSize (n :: ns) = (encode n.tree).length + listSize ns :=
        List.sum_cons
      rw [hcons, ih, n.length_encode_tree]
      simp only [List.map_cons, List.sum_cons, List.length_cons]
      omega

theorem sum_addresses_le (ns : List Neighbour) :
    (ns.map fun n => n.endpoint.address.toBytes.length).sum ≤ ns.length * 16 ∧
      (ns.any Neighbour.isV4 = true →
        (ns.map fun n => n.endpoint.address.toBytes.length).sum + 12 ≤
          ns.length * 16) ∧
      (ns.any Neighbour.isV4 = false →
        (ns.map fun n => n.endpoint.address.toBytes.length).sum =
          ns.length * 16) := by
  induction ns with
  | nil => simp
  | cons n ns ih =>
      obtain ⟨hle, hv4, hv6⟩ := ih
      simp only [List.map_cons, List.sum_cons, List.length_cons, List.any_cons,
        Neighbour.isV4]
      cases n.endpoint.address with
      | v4 b =>
          have hb : (Address.v4 b).toBytes.length = 4 := b.size_data
          rw [hb]
          refine ⟨by omega, fun _ => by omega, fun h => by cases h⟩
      | v6 b =>
          have hb : (Address.v6 b).toBytes.length = 16 := b.size_data
          rw [hb, Bool.false_or]
          refine ⟨by omega, fun h => ?_, fun h => ?_⟩
          · have hrest := hv4 h
            omega
          · have hrest := hv6 h
            omega

theorem sum_ports_le (ns : List Neighbour) :
    ns.length * 2 ≤ (ns.map Neighbour.portSize).sum ∧
      (ns.map Neighbour.portSize).sum ≤ ns.length * 6 := by
  induction ns with
  | nil => simp
  | cons n ns ih =>
      have hn := n.portSize_le
      simp only [List.map_cons, List.sum_cons, List.length_cons]
      omega

/-- A datagram of thirteen neighbours at most is no longer than it is allowed to
be, except that all thirteen have addresses of the sixth version and the ports
and the time take more than 71 bytes. -/
theorem datagram_le_iff (crypto : DatagramCrypto) (k : H256) (p : Neighbours)
    (hcount : 0 < p.neighbours.length) (hmax : p.neighbours.length ≤ 13) :
    ((DatagramPacket.neighbours p).datagram crypto k).length ≤ maxDatagramSize ↔
      p.neighbours.length < 13 ∨ p.neighbours.any Neighbour.isV4 = true ∨
        (p.neighbours.map Neighbour.portSize).sum + intSize p.ts.toNat ≤ 71 := by
  have hts : intSize p.ts.toNat ≤ 5 :=
    RLPTree.intSize_le (k := 4) p.ts.toNat_lt
  have hsize := listSize_eq p.neighbours
  obtain ⟨hle, hv4, hv6⟩ := sum_addresses_le p.neighbours
  have hports := sum_ports_le p.neighbours
  obtain ⟨hupper, hexact⟩ := length_datagram crypto k p (by omega) (by omega)
  unfold maxDatagramSize
  constructor
  · intro hfits
    by_contra hnot
    rw [not_or, not_or, Bool.not_eq_true] at hnot
    obtain ⟨hall, hnone, hlong⟩ := hnot
    have haddresses := hv6 hnone
    omega
  · rintro (hfew | hsome | hshort)
    · omega
    · have haddresses := hv4 hsome
      omega
    · omega

end Neighbours

namespace NodeTable

variable {ctx : NodeContext} {m : Moment} {t : NodeTable}

/-- What is told of an entry. -/
def toNeighbour (t : NodeTable) (p : NodePtr) : Option Neighbour :=
  t.entries[p]?.map fun e => ⟨e.endpoint, e.id⟩

theorem map_filterMap_toNeighbour {ps : List NodePtr}
    (h : ∀ p ∈ ps, (t.toNeighbour p).isSome = true) :
    (ps.filterMap t.toNeighbour).map some = ps.map t.toNeighbour := by
  induction ps with
  | nil => rfl
  | cons p ps ih =>
      obtain ⟨n, hn⟩ := Option.isSome_iff_exists.mp (h p List.mem_cons_self)
      rw [List.filterMap_cons_some hn, List.map_cons, List.map_cons, hn,
        ih fun q hq => h q (List.mem_cons_of_mem p hq)]

/-- No more than a bucket holds are returned, and all are known. -/
theorem exists_nearest (t : NodeTable) (target : NodeID) :
    ∃ ps, t.nearestNodeEntries ctx target = some ps ∧
      ps.length ≤ s_bucketSize ∧
      (ps.filterMap t.toNeighbour).map some = ps.map t.toNeighbour := by
  obtain ⟨ps, hps⟩ := @exists_nearestNodeEntries ctx t target
  have hfound := hps
  rw [nearestNodeEntries] at hfound
  obtain ⟨visited, -, hfound⟩ := Option.bind_eq_some_iff.mp hfound
  dsimp only at hfound
  rw [Option.some.injEq] at hfound
  refine ⟨ps, hps, ?_, map_filterMap_toNeighbour fun p hp => ?_⟩
  · rw [← hfound]
    exact List.length_take_le _ _
  · rw [← hfound] at hp
    have husable := (List.mem_filter.mp (List.mem_of_mem_take hp)).2
    rw [toNeighbour, Option.isSome_map]
    cases he : t.entries[p]? with
    | none =>
        rw [he] at husable
        cases husable
    | some e => rfl

theorem foldl_send (sender : UDPEndpoint) (packets : List OutgoingPacket)
    (hopen : t.isOpen = true) :
    packets.foldl (fun (t : NodeTable) p => t.send ⟨sender, p⟩) t =
      { t with sent := t.sent ++ packets.map fun p => ⟨sender, p⟩ } := by
  induction packets generalizing t with
  | nil => simp
  | cons p packets ih =>
      have hrest := @ih { t with sent := t.sent ++ [⟨sender, p⟩] } hopen
      rw [List.foldl_cons, send, if_pos hopen, hrest, List.map_cons,
        List.append_assoc, List.singleton_append]

/-- The nearest nodes are told in one packet or in two. -/
theorem neighboursFrom_eq (ns : List Neighbour) (hlength : ns.length ≤ 26) :
    neighboursFrom ns 0 =
      if 0 < ns.length then
        ns.take 13 :: if 13 < ns.length then [ns.drop 13] else []
      else [] := by
  have hlimit : nlimit = 13 := rfl
  rw [neighboursFrom]
  split
  · rw [neighboursFrom, hlimit, List.drop_zero]
    split
    · have hlast : (ns.drop 13).length ≤ 13 := by
        rw [List.length_drop]
        omega
      rw [neighboursFrom, if_neg (by omega), Nat.zero_add,
        List.take_of_length_le hlast]
    · rfl
  · rfl

/-- A request for neighbours is answered with all of the nearest nodes.  The
datagrams are no longer than they are allowed to be, except that there are
thirteen nodes or more, the first thirteen have addresses of the sixth version,
and their ports and the time take more than 71 bytes. -/
theorem onFindNode_iff (ctx : NodeContext) (m : Moment) (t : NodeTable)
    (sender : UDPEndpoint) (packet : FindNode) (k : H256)
    (hopen : t.isOpen = true) (hts : ¬ m.secondsSinceEpoch > packet.ts) :
    ∃ ps, ∃ ns : List Neighbour, ∃ answers : List Neighbours,
      t.nearestNodeEntries ctx packet.target = some ps ∧
      ns.map some = ps.map t.toNeighbour ∧
      t.onFindNode ctx m sender packet = some ({ t with
        sent := t.sent ++ answers.map fun a =>
          ⟨sender, .packet (.neighbours a)⟩ }, true) ∧
      answers.flatMap (·.neighbours) = ns ∧
      ((∀ a ∈ answers, ∃ sighash data,
          (DatagramPacket.neighbours a).sign ctx.crypto k [] =
            .ok (sighash, data) ∧ data.length ≤ maxDatagramSize) ↔
        ns.length < 13 ∨ (ns.take 13).any Neighbour.isV4 = true ∨
          ((ns.take 13).map Neighbour.portSize).sum +
            RLPTree.intSize (m.futureFromEpoch 60).toNat ≤ 71) := by
  obtain ⟨ps, hps, hlength, hmap⟩ := @exists_nearest ctx t packet.target
  obtain ⟨ns, hns⟩ : ∃ ns, ps.filterMap t.toNeighbour = ns := ⟨_, rfl⟩
  rw [hns] at hmap
  have hcount : ns.length = ps.length := by
    have hsame := congrArg List.length hmap
    rwa [List.length_map, List.length_map] at hsame
  have hroom : ps.length ≤ 16 := hlength
  have hchunks := neighboursFrom_eq ns (by omega)
  refine ⟨ps, ns, (neighboursFrom ns 0).map fun c => ⟨c, m.futureFromEpoch 60⟩,
    hps, hmap, ?_, ?_, ?_⟩
  · have hsent := @foldl_send t sender ((neighboursFrom ns 0).map fun c =>
      .packet (.neighbours ⟨c, m.futureFromEpoch 60⟩)) hopen
    rw [List.foldl_map, List.map_map] at hsent
    have hlist : (ps.filterMap fun p => t.entries[p]?.map fun e =>
        (⟨e.endpoint, e.id⟩ : Neighbour)) = ns := hns
    rw [onFindNode, if_neg hts, hps]
    simp only [Option.bind_eq_bind, Option.bind_some, hlist, hsent,
      List.map_map]
    rfl
  · rw [List.flatMap_map, List.flatMap_id', hchunks]
    split
    · split
      · simp
      · rw [List.flatten_singleton, List.take_of_length_le (by omega)]
    · rw [List.eq_nil_of_length_eq_zero (by omega : ns.length = 0)]
      rfl
  · have hsign : ∀ c : List Neighbour, c.length ≤ 13 →
        ((∃ sighash data, (DatagramPacket.neighbours
            ⟨c, m.futureFromEpoch 60⟩).sign ctx.crypto k [] =
              .ok (sighash, data) ∧ data.length ≤ maxDatagramSize) ↔
          ((DatagramPacket.neighbours ⟨c, m.futureFromEpoch 60⟩).datagram
            ctx.crypto k).length ≤ maxDatagramSize) := by
      intro c hc
      have hbounded : (DatagramPacket.neighbours
          ⟨c, m.futureFromEpoch 60⟩).Bounded :=
        hc.trans_lt (by omega : 13 < 2 ^ 57)
      rw [DatagramPacket.sign_eq _ hbounded]
      constructor
      · rintro ⟨sighash, data, heq, hle⟩
        cases heq
        exact hle
      · intro hle
        exact ⟨_, _, rfl, hle⟩
    rw [List.forall_mem_map, hchunks]
    by_cases hsome : 0 < ns.length
    · have htake : (ns.take 13).length = min 13 ns.length := List.length_take
      have hfew : (ns.take 13).length < 13 ↔ ns.length < 13 := by omega
      have hfirst := (hsign (ns.take 13) (by omega)).trans
        (Neighbours.datagram_le_iff ctx.crypto k
          ⟨ns.take 13, m.futureFromEpoch 60⟩ (by dsimp only; omega)
          (by dsimp only; omega))
      dsimp only at hfirst
      rw [if_pos hsome, List.forall_mem_cons, hfirst, hfew]
      by_cases hmore : 13 < ns.length
      · have hdrop : (ns.drop 13).length = ns.length - 13 := List.length_drop
        have hsecond := (hsign (ns.drop 13) (by omega)).mpr
          ((Neighbours.datagram_le_iff ctx.crypto k
            ⟨ns.drop 13, m.futureFromEpoch 60⟩ (by dsimp only; omega)
            (by dsimp only; omega)).mpr (.inl (by dsimp only; omega)))
        rw [if_pos hmore, List.forall_mem_singleton, and_iff_left hsecond]
      · rw [if_neg hmore, and_iff_left (by simp)]
    · rw [if_neg hsome]
      exact iff_of_true (by simp) (.inl (by omega))

/-- A table with some nodes in a bucket that have the same endpoint. -/
def tableOf (endpoint : NodeIPEndpoint) (n : Nat) : NodeTable where
  node := ⟨RLP.alignRight 64 [1], {}, .optional⟩
  entries := (List.range n).map fun k =>
    ⟨⟨RLP.alignRight 64 [UInt8.ofNat (16 + k)], endpoint, .optional⟩, 4, false⟩
  nodes := fun x => (List.range n).find? fun k =>
    x == RLP.alignRight 64 [UInt8.ofNat (16 + k)]
  state := fun i => if i.val = 3 then List.range n else []
  isOpen := true

/-- The answer of a table whose nodes have addresses of the fourth version. -/
theorem onFindNode_iff_v4 :
    let t := tableOf ⟨.v4 (RLP.alignRight 4 [8, 8, 8, 8]), 30303, 30303⟩ 14
    let m : Moment := ⟨0, 1000000000⟩
    let sender : UDPEndpoint := ⟨.v4 (RLP.alignRight 4 [8, 8, 4, 4]), 30303⟩
    ∃ ps, ∃ ns : List Neighbour, ∃ answers : List Neighbours,
      t.nearestNodeEntries lastBytes (RLP.alignRight 64 [1]) = some ps ∧
      ns.map some = ps.map t.toNeighbour ∧
      t.onFindNode lastBytes m sender ⟨RLP.alignRight 64 [1], 2000000000⟩ =
        some ({ t with sent := t.sent ++ answers.map fun a =>
          ⟨sender, .packet (.neighbours a)⟩ }, true) ∧
      answers.flatMap (·.neighbours) = ns ∧
      ((∀ a ∈ answers, ∃ sighash data,
          (DatagramPacket.neighbours a).sign lastBytes.crypto
            (RLP.alignRight 32 [1]) [] = .ok (sighash, data) ∧
          data.length ≤ maxDatagramSize) ↔
        ns.length < 13 ∨ (ns.take 13).any Neighbour.isV4 = true ∨
          ((ns.take 13).map Neighbour.portSize).sum +
            RLPTree.intSize (m.futureFromEpoch 60).toNat ≤ 71) := by
  intro t m sender
  exact onFindNode_iff lastBytes m t sender
    ⟨RLP.alignRight 64 [1], 2000000000⟩ (RLP.alignRight 32 [1]) rfl (by decide)

/-- The answer of a table of thirteen nodes that have addresses of the sixth
version is longer than 1280 bytes. -/
theorem onFindNode_v6 :
    let address : FixedHash 16 := RLP.alignRight 16
      [0x20, 0x01, 0x0d, 0xb8, 0, 0, 0, 0, 0, 0, 0, 0, 0, 0, 0, 1]
    let t := tableOf ⟨.v6 address, 30303, 30303⟩ 13
    let sender : UDPEndpoint := ⟨.v4 (RLP.alignRight 4 [8, 8, 4, 4]), 30303⟩
    ∃ answer, (t.onFindNode lastBytes ⟨0, 1000000000⟩ sender
        ⟨RLP.alignRight 64 [1], 2000000000⟩).map (fun r => r.1.sent) =
          some [⟨sender, .packet (.neighbours answer)⟩] ∧
      ∀ k sighash data, (DatagramPacket.neighbours answer).sign lastBytes.crypto
        k [] = .ok (sighash, data) → ¬ data.length ≤ maxDatagramSize := by
  intro address t sender
  refine ⟨⟨(List.range 13).map fun i => ⟨⟨.v6 address, 30303, 30303⟩,
    RLP.alignRight 64 [UInt8.ofNat (16 + i)]⟩, 1000000060⟩, by decide +kernel, ?_⟩
  intro k sighash data hsign
  have hbounded : DatagramPacket.Bounded (.neighbours ⟨(List.range 13).map
      fun i => ⟨⟨.v6 address, 30303, 30303⟩,
        RLP.alignRight 64 [UInt8.ofNat (16 + i)]⟩, 1000000060⟩) :=
    (by decide : 13 < 2 ^ 57)
  rw [DatagramPacket.sign_eq _ hbounded] at hsign
  obtain ⟨-, hdata⟩ := Prod.mk.inj (Except.ok.inj hsign)
  rw [← hdata, Neighbours.datagram_le_iff _ _ _ (by decide) (by decide)]
  decide +kernel

end NodeTable

end Web3Core
