/-
A saved network is restored: the key pair is read back, and the peers that were
saved are those that a fresh host has, with the times cut to whole seconds.
-/
import Web3Core.DatagramRoundTrip
import Web3Core.Host

namespace Web3Core

open RLP (access Listing Rep)
open RLPTree (length_encodeData_le length_encode_list_le length_encodeItems_le)

theorem toUnsigned_lt (x : Int) : toUnsigned x < 2 ^ 32 := by
  rw [toUnsigned]
  omega

theorem bytesRequired_unsigned {n : Nat} (hn : n < 2 ^ 32) :
    bytesRequired n < 56 := by
  have hle : bytesRequired n ≤ 4 := (bytesRequired_le_iff n 4).2 (by omega)
  omega

theorem toInt_unsigned {r : RLP} {n : Nat} (hn : n < 2 ^ 32)
    (h : Rep r (.int n)) : r.toInt 4 .strict = .ok n :=
  h.toInt (by omega) (bytesRequired_unsigned hn) .strict

variable {toPublic : H256 → H512} {allowLocal : Bool} {r : RLP} {p : Peer}
  {now : SystemTime} {h g : Host toPublic}

namespace Peer

/-- Whether a peer is required, as a number. -/
def requiredFlag (p : Peer) : Nat := if p.peerType = .required then 1 else 0

/-- The items of a peer after its endpoint and its id. -/
def stateItems (p : Peer) : List RLPTree :=
  [.int p.requiredFlag, .int (toUnsigned p.lastConnected.toSeconds),
    .int (toUnsigned p.lastAttempted.toSeconds), .int p.failedAttempts.toNat,
    .int p.lastDisconnect.toNat, .int p.score.toUInt32.toNat,
    .int p.rating.toUInt32.toNat]

/-- The item that a peer is saved as. -/
def tree (p : Peer) : RLPTree :=
  .list (p.endpoint.items ++ .data p.id.data :: p.stateItems)

/-- A peer as it is restored, its times cut to whole seconds. -/
def restored (p : Peer) : Peer :=
  { p with
    isOffline := true
    lastConnected := seconds p.lastConnected.toSeconds
    lastAttempted := seconds p.lastAttempted.toSeconds }

/-- The times of a peer are in the range of 32-bit seconds. -/
structure InTime (p : Peer) : Prop where
  connected : 0 ≤ p.lastConnected ∧ p.lastConnected < seconds (2 ^ 32)
  attempted : 0 ≤ p.lastAttempted ∧ p.lastAttempted < seconds (2 ^ 32)

theorem requiredFlag_lt (p : Peer) : p.requiredFlag < 2 := by
  rw [requiredFlag]
  split
  · omega
  · omega

/-- What is streamed of a time in range is its whole seconds. -/
theorem toUnsigned_toSeconds {t : Int} (h : 0 ≤ t ∧ t < seconds (2 ^ 32)) :
    (toUnsigned (SystemTime.toSeconds t) : Int) = SystemTime.toSeconds t := by
  have hone : (seconds 1 : Int) = 1000000000 := rfl
  have hmax : t < 4294967296 * 1000000000 := h.2
  have hdiv : SystemTime.toSeconds t = t / 1000000000 := by
    rw [SystemTime.toSeconds, hone, Int.tdiv_eq_ediv_of_nonneg h.1]
  have hge : 0 ≤ t / 1000000000 := Int.ediv_nonneg h.1 (by decide)
  rw [hdiv, toUnsigned, Int.emod_eq_of_lt hge (by omega)]
  exact Int.toNat_of_nonneg hge

end Peer

/-- The item that an entry of the node table is saved as. -/
def NodeEntry.tree (e : NodeEntry) : RLPTree :=
  .list (e.endpoint.items ++ [.data e.id.data])

namespace Host

theorem streamPeer_eq (s : RLPStream) (p : Peer) :
    streamPeer s p = RLPTree.write p.tree s := by
  have hflag : bytesRequired (if p.peerType = .required then 1 else 0) < 56 := by
    have hlt := p.requiredFlag_lt
    rw [Peer.requiredFlag] at hlt
    exact bytesRequired_unsigned (by omega)
  simp only [streamPeer, Peer.tree, Peer.stateItems, Peer.requiredFlag,
    RLPTree.write, RLPTree.writeItems_append, NodeIPEndpoint.streamRLP_inline,
    RLPStream.appendHash_eq, RLPTree.appendInt_eq_write _ hflag,
    RLPTree.appendInt_eq_write _ (bytesRequired_unsigned (toUnsigned_lt _)),
    RLPTree.appendInt_eq_write _ (bytesRequired_word _)]
  simp only [RLPTree.writeItems, RLPTree.write, RLP.bind_ok, RLPTree.int]
  rfl

theorem streamEntry_eq (s : RLPStream) (e : NodeEntry) :
    streamEntry s e = RLPTree.write e.tree s := by
  simp only [streamEntry, NodeEntry.tree, RLPTree.write,
    RLPTree.writeItems_append, NodeIPEndpoint.streamRLP_inline,
    RLPStream.appendHash_eq]
  simp only [RLPTree.writeItems, RLPTree.write, RLP.bind_ok]
  rfl

/-- Items are streamed one after the other. -/
theorem foldlM_write {α : Type} {stream : RLPStream → α → Except Exception RLPStream}
    {tree : α → RLPTree} (hstream : ∀ s a, stream s a = RLPTree.write (tree a) s)
    (as : List α) (s : RLPStream) :
    as.foldlM stream s = RLPTree.writeItems (as.map tree) s := by
  induction as generalizing s with
  | nil => rfl
  | cons a as ih =>
      rw [List.foldlM_cons, List.map_cons, RLPTree.writeItems, hstream]
      simp only [ih]

/-- The records of a saved network. -/
def records (allowLocal : Bool) (h : Host toPublic) (now : SystemTime) :
    List RLPTree :=
  (h.savedPeers allowLocal now).map Peer.tree ++ h.savedEntries.map NodeEntry.tree

/-- A saved network: the version, the secret and the records. -/
def networkItems (allowLocal : Bool) (h : Host toPublic) (now : SystemTime) :
    List RLPTree :=
  [.int c_protocolVersion, .data h.keyAlias.secret.data,
    .list (h.records allowLocal now)]

theorem length_peerTree (p : Peer) : (RLPTree.encode p.tree).length ≤ 256 := by
  have hendpoint := p.endpoint.length_items
  have hid := @length_encodeData_le p.id.data (by rw [p.id.size_data]; omega)
  rw [p.id.size_data] at hid
  have hint : ∀ n, n < 2 ^ 32 → (RLPTree.encode (.int n)).length ≤ 5 := by
    intro n hn
    have hword := length_encode_word (UInt32.ofNat n)
    rwa [UInt32.toNat_ofNat_of_lt' hn] at hword
  have hflag := hint p.requiredFlag (by have := p.requiredFlag_lt; omega)
  have hconnected := hint _ (toUnsigned_lt p.lastConnected.toSeconds)
  have hattempted := hint _ (toUnsigned_lt p.lastAttempted.toSeconds)
  have hfailed := length_encode_word p.failedAttempts
  have hdisconnect := length_encode_word p.lastDisconnect
  have hscore := length_encode_word p.score.toUInt32
  have hrating := length_encode_word p.rating.toUInt32
  have hitems : (RLPTree.encodeItems
      (p.endpoint.items ++ .data p.id.data :: p.stateItems)).length ≤ 200 := by
    rw [RLPTree.encodeItems_append, List.length_append, Peer.stateItems]
    simp only [RLPTree.encodeItems, List.length_append, List.length_nil]
    omega
  have hlist := length_encode_list_le (hitems.trans_lt (by omega : 200 < 2 ^ 64))
  rw [Peer.tree]
  omega

theorem length_entryTree (e : NodeEntry) :
    (RLPTree.encode e.tree).length ≤ 256 := by
  have hneighbour := Neighbour.length_tree ⟨e.endpoint, e.id⟩
  exact hneighbour.trans (by omega)

/-- A network that has not too many records fits. -/
theorem fits_networkItems
    (hcount : (h.records allowLocal now).length < 2 ^ 31) :
    (RLPTree.list (h.networkItems allowLocal now)).Fits := by
  have hall : (RLPTree.encodeItems (h.records allowLocal now)).length ≤
      (h.records allowLocal now).length * 256 := by
    refine length_encodeItems_le fun t ht => ?_
    rcases List.mem_append.1 ht with hpeer | hentry
    · obtain ⟨p, -, rfl⟩ := List.mem_map.1 hpeer
      exact length_peerTree p
    · obtain ⟨e, -, rfl⟩ := List.mem_map.1 hentry
      exact length_entryTree e
  have hrecords := length_encode_list_le
    (hall.trans_lt (by omega : (h.records allowLocal now).length * 256 < 2 ^ 64))
  have hversion : (RLPTree.encode (.int c_protocolVersion)).length ≤ 5 :=
    length_encode_word 4
  have hsecret := @length_encodeData_le h.keyAlias.secret.data
    (by rw [h.keyAlias.secret.size_data]; omega)
  rw [h.keyAlias.secret.size_data] at hsecret
  have hitems : (RLPTree.encodeItems (h.networkItems allowLocal now)).length ≤
      (h.records allowLocal now).length * 256 + 100 := by
    rw [networkItems]
    simp only [RLPTree.encodeItems, List.length_append, List.length_nil]
    omega
  have hlist := length_encode_list_le (hitems.trans_lt (by omega :
    (h.records allowLocal now).length * 256 + 100 < 2 ^ 64))
  rw [RLPTree.Fits]
  omega

/-- The records are streamed one after the other. -/
theorem stream_records
    (hlen : (RLPTree.encodeItems (h.records allowLocal now)).length < 2 ^ 64) :
    ∃ s, (h.savedPeers allowLocal now).foldlM streamPeer {} = .ok s ∧
      h.savedEntries.foldlM streamEntry s =
        .ok ⟨RLPTree.encodeItems (h.records allowLocal now), []⟩ := by
  rw [records, RLPTree.encodeItems_append, List.length_append] at hlen
  rw [records, RLPTree.encodeItems_append, foldlM_write streamPeer_eq]
  refine ⟨_, RLPTree.writeItems_top _ [] (by omega), ?_⟩
  rw [foldlM_write streamEntry_eq, RLPTree.writeItems_top _ _ (by omega),
    List.nil_append]

/-- The list of the records is the last item of three. -/
theorem append_records {s : RLPStream} {ts : List RLPTree}
    (hlen : (RLPTree.encodeItems ts).length < 2 ^ 64) :
    (do
      let ret ← s.appendList ts.length
      if ts.length ≠ 0 then do
        let b ← RLPStream.out ⟨RLPTree.encodeItems ts, []⟩
        let ret ← ret.appendRaw b ts.length
        ret.out
      else ret.out) =
    (do
      let ret ← s.appendRaw (RLPTree.encodeList (RLPTree.encodeItems ts)) 1
      ret.out) := by
  have hout : RLPStream.out ⟨RLPTree.encodeItems ts, []⟩ =
      .ok (RLPTree.encodeItems ts) := rfl
  cases ts with
  | nil =>
      have hnil := @RLPTree.appendListOf_eq_appendRaw s [] (by simp)
      rw [List.length_nil, RLPStream.appendList, if_neg (by simp), hnil]
      rfl
  | cons t ts =>
      have hpos : (t :: ts).length ≠ 0 := by simp
      simp only [if_pos hpos, hout, ok_bind]
      rw [← bind_assoc, RLPTree.appendList_appendRaw s hpos hlen]

/-- A network is saved as its items. -/
theorem saveNetwork_eq (hcount : (h.records allowLocal now).length < 2 ^ 31) :
    h.saveNetwork allowLocal now =
      .ok (RLPTree.encode (.list (h.networkItems allowLocal now))) := by
  have hfits := fits_networkItems hcount
  have hlength := RLPTree.length_encodeItems_lt (h.networkItems allowLocal now)
  have hrecordsLength : (h.savedPeers allowLocal now).length +
      h.savedEntries.length = (h.records allowLocal now).length := by
    rw [records, List.length_append, List.length_map, List.length_map]
  have hrecords : (RLPTree.encodeItems (h.records allowLocal now)).length <
      2 ^ 64 := by
    have hmem : (RLPTree.encode (.list (h.records allowLocal now))).length ≤
        (RLPTree.encodeItems (h.networkItems allowLocal now)).length :=
      RLPTree.length_encode_le_of_mem (by simp [networkItems])
    have hlt := RLPTree.length_encodeItems_lt (h.records allowLocal now)
    rw [RLPTree.Fits] at hfits
    omega
  obtain ⟨s, hpeers, hentries⟩ := stream_records hrecords
  obtain ⟨all, hall⟩ : ∃ all, all = h.networkItems allowLocal now := ⟨_, rfl⟩
  have hthree : all.length = 3 := by
    rw [hall]
    rfl
  rw [← hall] at hfits ⊢
  have hopen : RLPStream.ofList all.length = .ok (RLPTree.partialList all 0) :=
    RLPTree.ofList_eq (by rw [hall]; simp [networkItems])
  have hversion : (RLPTree.partialList all 0).appendInt c_protocolVersion =
      .ok (RLPTree.partialList all 1) := by
    rw [RLPTree.appendInt_eq_appendRaw _ bytesRequired_version]
    exact RLPTree.appendRaw_partialList hfits (by rw [hall]; rfl)
  have hsecret : (RLPTree.partialList all 1).append h.keyAlias.secret.data =
      .ok (RLPTree.partialList all 2) :=
    RLPTree.append_partialList hfits (by rw [hall]; rfl)
  have hlast : (RLPTree.partialList all 2).appendRaw
      (RLPTree.encode (.list (h.records allowLocal now))) 1 =
        .ok (RLPTree.partialList all 3) :=
    RLPTree.appendRaw_partialList hfits (by rw [hall]; rfl)
  have hout := RLPTree.out_partialList all
  rw [hthree] at hopen hout
  rw [saveNetwork]
  dsimp only
  rw [hpeers, ok_bind, hentries, ok_bind, hopen, ok_bind, hversion, ok_bind,
    hsecret, ok_bind, hrecordsLength, append_records hrecords]
  rw [RLPTree.encode] at hlast
  rw [hlast, ok_bind, hout]

/-- The address of a record tells if the record is read. -/
theorem run_hasAddress {e : NodeIPEndpoint} {ts : List RLPTree}
    (hlist : Listing r (e.items ++ ts)) :
    ∃ r', hasAddress.run r = .ok (e.address.isV4, r') ∧
      Listing r' (e.items ++ ts) := by
  obtain ⟨c, r₁, haccess, hc, h₁⟩ := hlist.access (i := 0) rfl
  obtain ⟨c', r₂, haccess', hc', h₂⟩ := h₁.access (i := 0) rfl
  refine ⟨r₂, ?_, h₂⟩
  rw [hasAddress, RLP.access_bind haccess, RLP.lift_bind hc.itemCount_data,
    if_pos (by decide), RLP.access_bind haccess', RLP.lift_bind hc'.size]
  have hsize : decide (e.address.toBytes.length = 4) = e.address.isV4 := by
    cases e.address with
    | v4 b => exact decide_eq_true b.size_data
    | v6 b =>
        refine decide_eq_false ?_
        rw [Address.toBytes, b.size_data]
        decide
  rw [hsize]
  rfl

/-- A host to which a peer is restored. -/
def withPeer (g : Host toPublic) (p : Peer) : Host toPublic :=
  let g := { g with peers := g.peers.insert p.restored }
  if p.peerType = .required then g.requirePeer p.id p.endpoint
  else g.addNode p.restored.toNode .known

/-- The state of a peer is read back. -/
theorem run_restorePeer (g : Host toPublic) (hin : p.InTime)
    (hallowed : p.peerType = .required ∨ p.endpoint.isAllowed allowLocal = true)
    (hlist : Listing r (p.endpoint.items ++ .data p.id.data :: p.stateItems)) :
    (g.restorePeer allowLocal ⟨p.id, p.endpoint, .optional⟩ 4).run' r =
      .ok (g.withPeer p) := by
  obtain ⟨flag, r₀, haccess₀, hflag, h₀⟩ := hlist.access (i := 4) rfl
  obtain ⟨connected, r₁, haccess₁, hconnected, h₁⟩ := h₀.access (i := 5) rfl
  obtain ⟨attempted, r₂, haccess₂, hattempted, h₂⟩ := h₁.access (i := 6) rfl
  obtain ⟨failed, r₃, haccess₃, hfailed, h₃⟩ := h₂.access (i := 7) rfl
  obtain ⟨disconnect, r₄, haccess₄, hdisconnect, h₄⟩ := h₃.access (i := 8) rfl
  obtain ⟨score, r₅, haccess₅, hscore, h₅⟩ := h₄.access (i := 9) rfl
  obtain ⟨rating, r₆, haccess₆, hrating, h₆⟩ := h₅.access (i := 10) rfl
  have hlt := p.requiredFlag_lt
  have hint : flag.toInt 1 .strict = .ok p.requiredFlag :=
    hflag.toInt (by omega) (bytesRequired_unsigned (by omega)) .strict
  have htype : (if p.requiredFlag ≠ 0 then PeerType.required else .optional) =
      p.peerType := by
    rw [Peer.requiredFlag]
    cases p.peerType <;> rfl
  have hgo : ¬ ((!p.endpoint.isAllowed allowLocal) = true ∧
      p.peerType = .optional) := by
    rintro ⟨hnot, hoptional⟩
    rcases hallowed with hrequired | hallowed
    · rw [hrequired] at hoptional
      cases hoptional
    · rw [hallowed] at hnot
      cases hnot
  have hpeer : ({ p.toNode with
      lastConnected := seconds (toUnsigned p.lastConnected.toSeconds)
      lastAttempted := seconds (toUnsigned p.lastAttempted.toSeconds)
      failedAttempts := UInt32.ofNat p.failedAttempts.toNat
      lastDisconnect := UInt32.ofNat p.lastDisconnect.toNat
      score := (UInt32.ofNat p.score.toUInt32.toNat).toInt32
      rating := (UInt32.ofNat p.rating.toUInt32.toNat).toInt32 } : Peer) =
        p.restored := by
    have hfirst := Peer.toUnsigned_toSeconds hin.connected
    have hsecond := Peer.toUnsigned_toSeconds hin.attempted
    rw [hfirst, hsecond, Peer.restored]
    simp
  rw [StateT.run'_eq, restorePeer, RLP.access_bind haccess₀, RLP.lift_bind hint]
  dsimp only
  rw [htype, if_neg hgo, RLP.access_bind haccess₁,
    RLP.lift_bind (toInt_unsigned (toUnsigned_lt _) hconnected),
    RLP.access_bind haccess₂,
    RLP.lift_bind (toInt_unsigned (toUnsigned_lt _) hattempted),
    RLP.access_bind haccess₃, RLP.lift_bind (toInt_word hfailed),
    RLP.access_bind haccess₄, RLP.lift_bind (toInt_word hdisconnect),
    RLP.access_bind haccess₅, RLP.lift_bind (toInt_word hscore),
    RLP.access_bind haccess₆, RLP.lift_bind (toInt_word hrating)]
  rw [withPeer, ← hpeer]
  rfl

/-- A peer is restored from its record. -/
theorem restoreItem_peer (g : Host toPublic) (hin : p.InTime)
    (hv4 : p.endpoint.address.isV4 = true)
    (hallowed : p.peerType = .required ∨ p.endpoint.isAllowed allowLocal = true)
    (hrep : Rep r p.tree) :
    (g.restoreItem allowLocal).run' r = .ok (g.withPeer p) := by
  obtain ⟨r₁, haddress, h₁⟩ := run_hasAddress (e := p.endpoint) hrep.listing
  obtain ⟨id, r₂, haccess, hid, h₂⟩ := h₁.access (i := 3) rfl
  obtain ⟨r₃, hendpoint, h₃⟩ := NodeIPEndpoint.run_interpretRLP h₂
  have hcount : r₁.itemCount = .ok 11 := h₁.itemCount
  rw [StateT.run'_eq, restoreItem, StateT.run_bind, haddress, ok_bind, hv4]
  dsimp only
  rw [if_neg (by decide), StateT.run_bind, StateT.run_get, pure_bind,
    RLP.lift_bind hcount, if_pos (by decide), RLP.access_bind haccess,
    RLP.lift_bind hid.toHash_data, StateT.run_bind, hendpoint, ok_bind]
  dsimp only
  rw [if_neg (by simp), if_pos rfl]
  exact run_restorePeer g hin hallowed h₃

/-- An entry of the node table is restored to the node table. -/
theorem restoreItem_entry (g : Host toPublic) {e : NodeEntry}
    (hrep : Rep r e.tree) :
    ∃ g', (g.restoreItem allowLocal).run' r = .ok g' ∧ g'.peers = g.peers := by
  obtain ⟨r₁, haddress, h₁⟩ := run_hasAddress (e := e.endpoint) hrep.listing
  rw [StateT.run'_eq, restoreItem, StateT.run_bind, haddress, ok_bind]
  dsimp only
  cases e.endpoint.address.isV4 with
  | false => exact ⟨g, rfl, rfl⟩
  | true =>
      obtain ⟨id, r₂, haccess, hid, h₂⟩ := h₁.access (i := 3) rfl
      obtain ⟨r₃, hendpoint, h₃⟩ := NodeIPEndpoint.run_interpretRLP h₂
      have hcount : r₁.itemCount = .ok 4 := h₁.itemCount
      rw [if_neg (by decide), StateT.run_bind, StateT.run_get, pure_bind,
        RLP.lift_bind hcount, if_pos (by decide), RLP.access_bind haccess,
        RLP.lift_bind hid.toHash_data, StateT.run_bind, hendpoint, ok_bind]
      dsimp only
      split
      · exact ⟨_, rfl, rfl⟩
      · rw [if_neg (by decide)]
        exact ⟨g, rfl, rfl⟩

theorem find_withPeer (g : Host toPublic) (p : Peer) (id : NodeID) :
    (g.withPeer p).peers.find id =
      if p.id = id then some p.restored else g.peers.find id := by
  have hinsert := g.peers.find_insert p.restored
  have hid : p.restored.id = p.id := rfl
  rw [withPeer]
  split
  · next hrequired =>
      have hself : (g.peers.insert p.restored).find p.id = some p.restored := by
        rw [hinsert, if_pos hid]
      have hsame : ({ p.restored with
          endpoint := p.endpoint, peerType := .required } : Peer) =
            p.restored := by
        rw [← hrequired]
        rfl
      have htwice : ((g.peers.insert p.restored).insert p.restored).find id =
          (g.peers.insert p.restored).find id := by
        rw [PeerMap.find_insert, hinsert]
        split
        · rfl
        · rfl
      rw [requirePeer, ← hid, ← hinsert, hid]
      dsimp only
      rw [hself]
      dsimp only
      rw [hsame]
      split
      · rfl
      · split
        · split
          · exact htwice
          · exact htwice
        · split
          · rfl
          · rfl
  · exact hinsert id

/-- The peers are restored one after the other. -/
theorem foldlM_restoreItem_peers (ps : List Peer) {rs : List RLP}
    (hrep : List.Forall₂ Rep rs (ps.map Peer.tree))
    (hin : ∀ p ∈ ps, p.InTime) (hv4 : ∀ p ∈ ps, p.endpoint.address.isV4 = true)
    (hallowed : ∀ p ∈ ps, p.peerType = .required ∨
      p.endpoint.isAllowed allowLocal = true)
    (hnodup : (ps.map (·.id)).Nodup) (g : Host toPublic) :
    ∃ g', rs.foldlM (fun g i => (restoreItem allowLocal g).run' i) g = .ok g' ∧
      ∀ id, g'.peers.find id =
        ((ps.find? (·.id == id)).map Peer.restored).or (g.peers.find id) := by
  induction ps generalizing rs g with
  | nil =>
      cases hrep
      exact ⟨g, rfl, fun id => rfl⟩
  | cons p ps ih =>
      cases hrep with
      | cons hp hps =>
          rw [List.map_cons, List.nodup_cons] at hnodup
          obtain ⟨g', hfold, hfind⟩ := ih hps
            (fun q hq => hin q (List.mem_cons_of_mem _ hq))
            (fun q hq => hv4 q (List.mem_cons_of_mem _ hq))
            (fun q hq => hallowed q (List.mem_cons_of_mem _ hq))
            hnodup.2 (g.withPeer p)
          refine ⟨g', ?_, fun id => ?_⟩
          · rw [List.foldlM_cons, restoreItem_peer g
              (hin p List.mem_cons_self) (hv4 p List.mem_cons_self)
              (hallowed p List.mem_cons_self) hp, ok_bind, hfold]
          · rw [hfind, find_withPeer, List.find?_cons]
            by_cases hid : p.id = id
            · have hnone : ps.find? (·.id == id) = none := by
                rw [List.find?_eq_none]
                intro q hq heq
                exact hnodup.1 (List.mem_map.2
                  ⟨q, hq, (eq_of_beq heq).trans hid.symm⟩)
              rw [hnone, if_pos hid, beq_iff_eq.2 hid]
              rfl
            · rw [if_neg hid, beq_eq_false_iff_ne.2 hid]

/-- The entries of the node table leave the peers as they are. -/
theorem foldlM_restoreItem_entries (es : List NodeEntry) {rs : List RLP}
    (hrep : List.Forall₂ Rep rs (es.map NodeEntry.tree)) (g : Host toPublic) :
    ∃ g', rs.foldlM (fun g i => (restoreItem allowLocal g).run' i) g = .ok g' ∧
      g'.peers = g.peers := by
  induction es generalizing rs g with
  | nil =>
      cases hrep
      exact ⟨g, rfl, rfl⟩
  | cons e es ih =>
      cases hrep with
      | cons he hes =>
          obtain ⟨g₁, hfirst, hpeers⟩ :=
            @restoreItem_entry toPublic allowLocal _ g e he
          obtain ⟨g', hfold, hpeers'⟩ := ih hes g₁
          refine ⟨g', ?_, hpeers'.trans hpeers⟩
          rw [List.foldlM_cons, hfirst, ok_bind, hfold]

/-- The peers that are saved are those of the map that pass the filter. -/
theorem find_savedPeers (h : Host toPublic) (id : NodeID) :
    (h.savedPeers allowLocal now).find? (·.id == id) =
      (h.peers.find id).filter (h.isSaved allowLocal now) := by
  have hmem : ∀ p, p ∈ h.savedPeers allowLocal now ↔
      p ∈ h.peers.peers ∧ h.isSaved allowLocal now p = true := by
    intro p
    rw [savedPeers, List.mem_filter, List.mem_mergeSort]
  cases hfind : h.peers.find id with
  | none =>
      rw [PeerMap.find, List.find?_eq_none] at hfind
      rw [Option.filter_none, List.find?_eq_none]
      exact fun p hp => hfind p ((hmem p).1 hp).1
  | some p =>
      rw [PeerMap.find] at hfind
      have hp := List.mem_of_find?_eq_some hfind
      have hid : p.id = id := by simpa using List.find?_some hfind
      have hunique : ∀ q ∈ h.peers.peers, q.id = id → q = p := fun q hq hqid =>
        List.inj_on_of_nodup_map h.peers.nodup hq hp (hqid.trans hid.symm)
      cases hsaved : h.isSaved allowLocal now p with
      | true =>
          rw [Option.filter_some_pos hsaved]
          cases hfound : (h.savedPeers allowLocal now).find? (·.id == id) with
          | none =>
              rw [List.find?_eq_none] at hfound
              exact absurd (beq_iff_eq.2 hid) (hfound p ((hmem p).2 ⟨hp, hsaved⟩))
          | some q =>
              have hq := (hmem q).1 (List.mem_of_find?_eq_some hfound)
              have hqid : q.id = id := by simpa using List.find?_some hfound
              rw [hunique q hq.1 hqid]
      | false =>
          rw [Option.filter_some_neg (by simp [hsaved]), List.find?_eq_none]
          intro q hq hqid
          obtain ⟨hqmem, hqsaved⟩ := (hmem q).1 hq
          rw [hunique q hqmem (eq_of_beq hqid), hsaved] at hqsaved
          cases hqsaved

/-- A host that has started and has no peers yet. -/
structure Fresh (g : Host toPublic) : Prop where
  started : g.isStarted = true
  keepsPeers : g.dropPeers = false
  noPeers : g.peers = .empty

/-- A network is restored from its items. -/
theorem restoreNetwork_eq (hfresh : g.Fresh)
    (hcount : (h.records allowLocal now).length < 2 ^ 31)
    (hin : ∀ p ∈ h.peers.peers, h.isSaved allowLocal now p = true → p.InTime) :
    ∃ g', g.restoreNetwork allowLocal
        (.ofBytes (RLPTree.encode (.list (h.networkItems allowLocal now)))) =
          .ok g' ∧
      ∀ id, g'.peers.find id =
        ((h.savedPeers allowLocal now).find? (·.id == id)).map Peer.restored := by
  have hsaved : ∀ p ∈ h.savedPeers allowLocal now,
      p ∈ h.peers.peers ∧ h.isSaved allowLocal now p = true := by
    intro p hp
    rwa [savedPeers, List.mem_filter, List.mem_mergeSort] at hp
  have hv4 : ∀ p ∈ h.savedPeers allowLocal now,
      p.endpoint.address.isV4 = true := by
    intro p hp
    have hpass := (hsaved p hp).2
    simp only [isSaved, Bool.and_eq_true] at hpass
    exact hpass.1.1.1.1
  have hallowed : ∀ p ∈ h.savedPeers allowLocal now,
      p.peerType = .required ∨ p.endpoint.isAllowed allowLocal = true := by
    intro p hp
    have hpass := (hsaved p hp).2
    simp only [isSaved, Bool.and_eq_true, Bool.or_eq_true,
      decide_eq_true_eq] at hpass
    exact hpass.2
  have hnodup : ((h.savedPeers allowLocal now).map (·.id)).Nodup := by
    have hperm := (List.mergeSort_perm h.peers.peers fun p q => !q.lt p).map (·.id)
    exact (hperm.nodup_iff.2 h.peers.nodup).sublist (List.filter_sublist.map _)
  obtain ⟨r, hread, hrep⟩ := Rep.ofBytes (fits_networkItems hcount)
  have hlist := hrep.listing
  obtain ⟨version, r₁, haccess, hversion, h₁⟩ := hlist.access (i := 0) rfl
  obtain ⟨version', r₂, haccess', hversion', h₂⟩ := h₁.access (i := 0) rfl
  obtain ⟨third, r₃, haccess₂, hthird, -⟩ := h₂.access (i := 2) rfl
  obtain ⟨rs, hitems, hrs⟩ := hthird.toList
  have hint : version.toInt 4 .strict = .ok c_protocolVersion :=
    hversion.toInt (by decide) bytesRequired_version .strict
  have hcountItems : r₁.itemCount = .ok 3 := h₁.itemCount
  have hfirst := List.forall₂_take_append _ _ _ hrs
  have hsecond := List.forall₂_drop_append _ _ _ hrs
  obtain ⟨g₁, hfold, hfind⟩ := foldlM_restoreItem_peers _ hfirst
    (fun p hp => hin p (hsaved p hp).1 (hsaved p hp).2) hv4 hallowed hnodup g
  obtain ⟨g', hfold', hpeers⟩ := @foldlM_restoreItem_entries toPublic allowLocal
    h.savedEntries _ hsecond g₁
  refine ⟨g', ?_, fun id => ?_⟩
  · have hpos := RLPTree.length_encode_pos (.list (h.networkItems allowLocal now))
    have hread' : RLP.ofRef (.ofBytes
        (RLPTree.encode (.list (h.networkItems allowLocal now)))) .veryStrict =
          .ok r := hread
    rw [restoreNetwork, if_neg (by exact hpos.ne'), hfresh.started,
      if_neg (by decide), hfresh.keepsPeers, if_neg (by decide), hread', ok_bind,
      StateT.run'_eq, restoreItems, RLP.access_bind haccess, RLP.lift_bind hint,
      StateT.run_bind, StateT.run_get, pure_bind, RLP.lift_bind hcountItems,
      RLP.access_bind haccess', RLP.lift_bind (hversion'.isInt bytesRequired_version),
      if_pos (by decide), RLP.access_bind haccess₂, RLP.lift_bind hitems]
    rw [← List.take_append_drop ((h.savedPeers allowLocal now).map Peer.tree).length rs,
      List.foldlM_append, hfold, ok_bind, hfold']
    rfl
  · rw [hpeers, hfind, hfresh.noPeers]
    exact Option.or_none

theorem ofSecret_secret (k : KeyPair toPublic) : .ofSecret k.secret = k := by
  obtain ⟨secret, pub, rfl⟩ := k
  rfl

/-- The key pair of a saved network is that of the host. -/
theorem networkAlias_eq (created : KeyPair toPublic)
    (hcount : (h.records allowLocal now).length < 2 ^ 31) :
    networkAlias created
      (.ofBytes (RLPTree.encode (.list (h.networkItems allowLocal now)))) =
        .ok h.keyAlias := by
  obtain ⟨r, hread, hrep⟩ := Rep.ofBytes (fits_networkItems hcount)
  have hread' : RLP.ofRef (.ofBytes
      (RLPTree.encode (.list (h.networkItems allowLocal now)))) .veryStrict =
        .ok r := hread
  have hlist := hrep.listing
  obtain ⟨version, r₁, haccess, hversion, h₁⟩ := hlist.access (i := 0) rfl
  obtain ⟨version', r₂, haccess', hversion', h₂⟩ := h₁.access (i := 0) rfl
  obtain ⟨second, r₃, haccess₂, hsecond, -⟩ := h₂.access (i := 1) rfl
  have hint : version'.toInt 4 .strict = .ok c_protocolVersion :=
    hversion'.toInt (by decide) bytesRequired_version .strict
  have hcountItems : r.itemCount = .ok 3 := hlist.itemCount
  have hsaved : hasAlias.run r = .ok (true, r₂) := by
    rw [hasAlias, StateT.run_bind, StateT.run_get, pure_bind,
      RLP.lift_bind hcountItems, if_pos rfl, RLP.access_bind haccess,
      RLP.lift_bind (hversion.isInt bytesRequired_version), if_pos rfl,
      RLP.access_bind haccess', RLP.lift_bind hint]
    rfl
  have hsecret : FixedHash.ofBytes 32 h.keyAlias.secret.data = h.keyAlias.secret := by
    rw [FixedHash.ofBytes, if_pos h.keyAlias.secret.size_data,
      NodeIPEndpoint.alignRight_data]
  rw [networkAlias, hread', ok_bind, StateT.run'_eq, StateT.run_bind, hsaved,
    ok_bind]
  dsimp only
  rw [if_pos rfl, RLP.access_bind haccess₂, RLP.lift_bind hsecond.toBytes, hsecret,
    ofSecret_secret]
  rfl

/-- There are not more records than peers and entries. -/
theorem records_lt
    (hcount : h.peers.peers.length + h.savedEntries.length < 2 ^ 31) :
    (h.records allowLocal now).length < 2 ^ 31 := by
  have hfilter := List.length_filter_le (h.isSaved allowLocal now)
    (h.peers.peers.mergeSort fun p q => !q.lt p)
  rw [List.length_mergeSort] at hfilter
  rw [records, savedPeers, List.length_append, List.length_map, List.length_map]
  omega

/-- A saved network is restored: the key pair is that of the host, and the peers
of a fresh host are those that were saved, with their times cut to seconds. -/
theorem restoreNetwork_saveNetwork (allowLocal : Bool) (h g : Host toPublic)
    (now : SystemTime) (created : KeyPair toPublic) (hfresh : g.Fresh)
    (hcount : h.peers.peers.length + h.savedEntries.length < 2 ^ 31)
    (hin : ∀ p ∈ h.peers.peers, p.InTime) :
    ∃ bytes g', h.saveNetwork allowLocal now = .ok bytes ∧
      networkAlias created (.ofBytes bytes) = .ok h.keyAlias ∧
      g.restoreNetwork allowLocal (.ofBytes bytes) = .ok g' ∧
      ∀ id, g'.peers.find id =
        ((h.peers.find id).filter (h.isSaved allowLocal now)).map
          Peer.restored := by
  have hrecords : (h.records allowLocal now).length < 2 ^ 31 := records_lt hcount
  obtain ⟨g', hrestore, hfind⟩ := restoreNetwork_eq hfresh hrecords
    fun p hp _ => hin p hp
  refine ⟨_, g', saveNetwork_eq hrecords, networkAlias_eq created hrecords,
    hrestore, fun id => ?_⟩
  rw [hfind, find_savedPeers]

/-- A required peer of negative score, and one that is not saved. -/
theorem restoreNetwork_saveNetwork_peers :
    let h : Host fun k => RLP.alignRight 64 k.data := {
      keyAlias := .ofSecret (RLP.alignRight 32 [1])
      peers := ⟨[
        { id := RLP.alignRight 64 [2]
          endpoint := ⟨.v4 (RLP.alignRight 4 [10, 0, 0, 1]), 30303, 30304⟩
          peerType := .required, score := -5, lastConnected := 1500000000 },
        { id := RLP.alignRight 64 [3]
          endpoint := ⟨.v6 (RLP.alignRight 16 [0xfe, 0x80]), 30303, 30303⟩ }],
        by decide⟩ }
    let g : Host fun k => RLP.alignRight 64 k.data := {
      keyAlias := .ofSecret (RLP.alignRight 32 [1])
      isStarted := true, run := true }
    ∃ bytes g', h.saveNetwork false (seconds 2) = .ok bytes ∧
      networkAlias g.keyAlias (.ofBytes bytes) = .ok h.keyAlias ∧
      g.restoreNetwork false (.ofBytes bytes) = .ok g' ∧
      ∀ id, g'.peers.find id =
        ((h.peers.find id).filter (h.isSaved false (seconds 2))).map
          Peer.restored := by
  intro h g
  refine restoreNetwork_saveNetwork false h g (seconds 2) g.keyAlias
    ⟨rfl, rfl, rfl⟩ (by decide) fun p hp => ?_
  rcases List.mem_cons.1 hp with rfl | hp
  · exact ⟨by decide, by decide⟩
  · rw [List.mem_singleton.1 hp]
    exact ⟨by decide, by decide⟩

/-- A peer without an id is saved and restored like any other. -/
theorem null_id_restored :
    ¬ ∀ (h g : Host fun k => RLP.alignRight 64 k.data) (now : SystemTime),
      g.Fresh → h.peers.peers.length + h.savedEntries.length < 2 ^ 31 →
      (∀ p ∈ h.peers.peers, p.InTime) →
      ∃ bytes g', h.saveNetwork false now = .ok bytes ∧
        networkAlias g.keyAlias (.ofBytes bytes) = .ok h.keyAlias ∧
        g.restoreNetwork false (.ofBytes bytes) = .ok g' ∧
        ∀ id, g'.peers.find id =
          ((h.peers.find id).filter fun p =>
            h.isSaved false now p && !p.id.data.all (· == 0)).map
              Peer.restored := by
  intro hclaim
  obtain ⟨p, hp⟩ : ∃ p : Peer, p = {
      id := RLP.alignRight 64 []
      endpoint := ⟨.v4 (RLP.alignRight 4 [8, 8, 8, 8]), 30303, 30303⟩ } :=
    ⟨_, rfl⟩
  obtain ⟨h, hh⟩ : ∃ h : Host fun k => RLP.alignRight 64 k.data, h = {
      keyAlias := .ofSecret (RLP.alignRight 32 [1])
      peers := ⟨[p], List.nodup_singleton _⟩ } := ⟨_, rfl⟩
  obtain ⟨g, hg⟩ : ∃ g : Host fun k => RLP.alignRight 64 k.data, g = {
      keyAlias := .ofSecret (RLP.alignRight 32 [1])
      isStarted := true, run := true } := ⟨_, rfl⟩
  have hfresh : g.Fresh := by
    rw [hg]
    exact ⟨rfl, rfl, rfl⟩
  have hin : ∀ q ∈ h.peers.peers, q.InTime := by
    intro q hq
    rw [hh] at hq
    rw [List.mem_singleton.1 hq, hp]
    exact ⟨by decide, by decide⟩
  have hlength : h.peers.peers.length + h.savedEntries.length < 2 ^ 31 := by
    rw [hh]
    exact (by decide : 1 + 0 < 2 ^ 31)
  have hsaved : h.isSaved false 0 p = true := by
    rw [hh, hp]
    decide
  have hfind : h.peers.find p.id = some p := by
    rw [hh, PeerMap.find]
    simp
  obtain ⟨bytes, g₁, hsave, -, hrestore, hclaimed⟩ :=
    hclaim h g 0 hfresh hlength hin
  have hrecords : (h.records false 0).length < 2 ^ 31 := records_lt hlength
  obtain ⟨g₂, hrestore', hrestored⟩ :=
    restoreNetwork_eq hfresh hrecords fun q hq _ => hin q hq
  rw [saveNetwork_eq hrecords] at hsave
  cases hsave
  rw [hrestore'] at hrestore
  cases hrestore
  have hnull : (!p.id.data.all (· == 0)) = false := by
    rw [hp]
    decide
  have hsome := hrestored p.id
  rw [hclaimed, find_savedPeers, hfind, Option.filter_some, Option.filter_some,
    hsaved, hnull] at hsome
  cases hsome

end Host

end Web3Core
