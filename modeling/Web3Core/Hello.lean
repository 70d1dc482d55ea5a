/-
The Hello packet: how `RLPXHandshake::transition` writes it and how
`Host::startPeerSession` reads it.  What is read comes in a frame, with padding
and a tag behind it.
-/
import Web3Core.Capabilities
import Web3Core.DatagramRoundTrip

namespace Web3Core

open RLP (access)

/-- What a host says of itself. -/
structure Hello where
  protocolVersion : UInt32
  clientVersion : Bytes
  caps : List CapDesc
  listenPort : UInt16
  id : H512

/-- What `startPeerSession` reads of it. -/
structure PeerInfo where
  protocolVersion : Nat
  clientVersion : Bytes
  caps : List CapDesc
  listenPort : Nat
deriving DecidableEq

namespace CapDesc

def streamRLP (c : CapDesc) (s : RLPStream) : Except Exception RLPStream := do
  let s ← s.appendList 2
  let s ← s.append c.name
  s.appendInt c.version

/-- `toPair<string, u256>`. -/
def interpretFields : StateT RLP (Except Exception) CapDesc := do
  let r ← get
  let count ← r.itemCountStrict
  if count ≠ 2 then throw .badCast
  else
    let name ← (← access 0).toString
    let version ← (← access 1).toInt 32 .strict
    pure { name, version }

def ofRLP (r : RLP) : Except Exception CapDesc := interpretFields.run' r

/-- `toVector<CapDesc>`. -/
def vectorOf (r : RLP) : Except Exception (List CapDesc) :=
  if r.isList then do
    let items ← r.toList
    items.mapM ofRLP
  else .ok []

end CapDesc

namespace Hello

/-- The packet: its type, and a list of five items. -/
def packet (h : Hello) : Except Exception Bytes := do
  let s ← RLPStream.appendInt {} 0
  let s ← s.appendList 5
  let s ← s.appendInt h.protocolVersion.toNat
  let s ← s.append h.clientVersion
  let s ← s.appendList h.caps.length
  let s ← h.caps.foldlM (fun s c => c.streamRLP s) s
  let s ← s.appendInt h.listenPort.toNat
  let s ← s.appendHash h.id
  s.out

end Hello

/-- The reads of `startPeerSession`. -/
def PeerInfo.interpretFields : StateT RLP (Except Exception) PeerInfo := do
  let protocolVersion ← (← access 0).toInt 4 .strict
  let clientVersion ← (← access 1).toString
  let caps ← CapDesc.vectorOf (← access 2)
  let listenPort ← (← access 3).toInt 2 .strict
  pure { protocolVersion, clientVersion, caps, listenPort }

def PeerInfo.ofRLP (r : RLP) : Except Exception PeerInfo :=
  interpretFields.run' r

namespace CapDesc

variable {r : RLP} {c : CapDesc}

def tree (c : CapDesc) : RLPTree := .list [.data c.name, .int c.version]

/-- The version is a `u256`. -/
theorem bytesRequired_version (h : c.version < 2 ^ 256) :
    bytesRequired c.version < 56 := by
  have hle : bytesRequired c.version ≤ 32 :=
    (bytesRequired_le_iff c.version 32).2 (by simpa using h)
  omega

theorem streamRLP_eq (h : c.version < 2 ^ 256) (s : RLPStream) :
    c.streamRLP s = RLPTree.write c.tree s := by
  simp only [streamRLP, tree, RLPTree.write, RLPTree.writeItems, RLPTree.int,
    RLPTree.appendInt_eq_write _ (bytesRequired_version h), RLP.bind_ok]
  rfl

theorem foldlM_streamRLP {cs : List CapDesc}
    (h : ∀ c ∈ cs, c.version < 2 ^ 256) (s : RLPStream) :
    cs.foldlM (fun s c => c.streamRLP s) s =
      RLPTree.writeItems (cs.map tree) s := by
  induction cs generalizing s with
  | nil => rfl
  | cons c cs ih =>
      rw [List.foldlM_cons, List.map_cons, RLPTree.writeItems,
        streamRLP_eq (h c List.mem_cons_self)]
      simp only [ih fun d hd => h d (List.mem_cons_of_mem c hd)]

theorem ofRLP_tree (h : c.version < 2 ^ 256) (hr : RLP.Rep r c.tree) :
    ofRLP r = .ok c := by
  have hcount : r.itemCountStrict = .ok 2 := RLP.Rep.itemCountStrict hr
  obtain ⟨a, r₁, haccess, ha, h₁⟩ := (RLP.Rep.listing hr).access (i := 0) rfl
  obtain ⟨b, r₂, haccess', hb, -⟩ := h₁.access (i := 1) rfl
  have hversion : b.toInt 32 .strict = .ok c.version :=
    hb.toInt (by simpa using h) (bytesRequired_version h) .strict
  rw [ofRLP, StateT.run'_eq, interpretFields, StateT.run_bind, StateT.run_get,
    pure_bind, RLP.lift_bind hcount, if_neg (by decide),
    RLP.access_bind haccess, RLP.lift_bind ha.toString,
    RLP.access_bind haccess', RLP.lift_bind hversion]
  rfl

theorem vectorOf_tree {cs : List CapDesc} (h : ∀ c ∈ cs, c.version < 2 ^ 256)
    (hr : RLP.Rep r (.list (cs.map tree))) : vectorOf r = .ok cs := by
  obtain ⟨rs, hitems, hrs⟩ := hr.toList
  have hall : ∀ {ds : List CapDesc} {rs : List RLP},
      (∀ c ∈ ds, c.version < 2 ^ 256) →
      List.Forall₂ RLP.Rep rs (ds.map tree) → rs.mapM ofRLP = .ok ds := by
    intro ds
    induction ds with
    | nil =>
        intro rs _ hrs
        cases hrs
        rfl
    | cons d ds ih =>
        intro rs hd hrs
        cases hrs with
        | cons hone hmore =>
            rw [List.mapM_cons, ofRLP_tree (hd d List.mem_cons_self) hone,
              ih (fun e he => hd e (List.mem_cons_of_mem d he)) hmore]
            rfl
  have hlist : r.isList = true := hr.isList
  rw [vectorOf, if_pos hlist, hitems, ok_bind, hall h hrs]

end CapDesc

namespace RLP

variable {mem : Bytes} {q : Nat} {ts : List RLPTree} {r : RLP} {t : RLPTree}

/-- An item is read of a list whose payload lies in memory. -/
theorem CacheOk.access (h : CacheOk mem q ts r)
    (hholds : Holds mem q (RLPTree.encodeItems ts)) (hfits : ∀ t ∈ ts, t.Fits)
    (hmax : ts.length < sizeMax) {i : Nat} (ht : ts[i]? = some t) :
    ∃ c r', (RLP.access i).run r = .ok (c, r') ∧ Rep c t ∧
      CacheOk mem q ts r' := by
  obtain ⟨hi, rfl⟩ := List.getElem?_eq_some_iff.1 ht
  obtain ⟨hcache, hitem⟩ := subscript_cacheOk hholds hfits hmax h i
  have hpair : r.subscript i = (.ok { data := itemView mem q ts i },
      (r.subscript i).2) := Prod.ext (hitem hi) rfl
  refine ⟨_, (r.subscript i).2, ?_, rep_itemView hholds hfits hi, hcache⟩
  show RLP.access i r = _
  rw [RLP.access, hpair]

end RLP

namespace Hello

variable {h : Hello}

/-- The list of the five items. -/
def tree (h : Hello) : RLPTree :=
  .list [.int h.protocolVersion.toNat, .data h.clientVersion,
    .list (h.caps.map CapDesc.tree), .int h.listenPort.toNat, .data h.id.data]

/-- The packet on the wire. -/
def wire (h : Hello) : Bytes := 0x80 :: RLPTree.encode h.tree

/-- What the other side takes from it. -/
def info (h : Hello) : PeerInfo :=
  ⟨h.protocolVersion.toNat, h.clientVersion, h.caps, h.listenPort.toNat⟩

/-- The versions are `u256`, and the packet is small enough for a frame of the
handshake. -/
structure Fits (h : Hello) : Prop where
  versions : ∀ c ∈ h.caps, c.version < 2 ^ 256
  size : h.wire.length ≤ 1024

theorem Fits.fits_tree (hfits : h.Fits) : h.tree.Fits := by
  have hsize := hfits.size
  rw [wire, List.length_cons] at hsize
  rw [RLPTree.Fits]
  omega

theorem bytesRequired_port (n : UInt16) : bytesRequired n.toNat < 56 := by
  have hle : bytesRequired n.toNat ≤ 2 :=
    (bytesRequired_le_iff n.toNat 2).2 (by simpa using n.toNat_lt)
  omega

theorem packet_eq (hfits : h.Fits) : h.packet = .ok h.wire := by
  have hzero : bytesRequired 0 < 56 := by decide
  have hwrite : h.packet = (do
      let s ← RLPTree.writeItems [.int 0, h.tree] {}
      s.out) := by
    simp only [packet, tree, RLPTree.writeItems, RLPTree.write, RLPTree.int,
      RLPTree.appendInt_eq_write _ hzero,
      RLPTree.appendInt_eq_write _ (bytesRequired_word _),
      RLPTree.appendInt_eq_write _ (bytesRequired_port _),
      CapDesc.foldlM_streamRLP hfits.versions, RLPStream.appendHash_eq,
      List.length_map, RLP.bind_ok, bind_assoc]
    rfl
  have hwire : RLPTree.encodeItems [.int 0, h.tree] = h.wire := by
    rw [RLPTree.encodeItems, RLPTree.encodeItems, RLPTree.encodeItems,
      List.append_nil]
    rfl
  have hsize := hfits.size
  rw [hwrite, RLPTree.writeItems_top _ _ (by rw [hwire]; omega), hwire]
  rfl

/-- The other side reads it, whatever follows in the frame. -/
theorem exists_ofRef (hfits : h.Fits) (rest : Bytes) :
    ∃ r, RLP.ofRef ((BytesConstRef.ofBytes (h.wire ++ rest)).croppedFrom 1)
        .throwIfTooSmall = .ok r ∧ PeerInfo.ofRLP r = .ok h.info := by
  have hholds : Holds (h.wire ++ rest) 1 (RLPTree.encode h.tree ++ rest) :=
    ⟨[0x80], [], by simp [wire], rfl⟩
  have hcrop : (BytesConstRef.ofBytes (h.wire ++ rest)).croppedFrom 1 =
      .window (h.wire ++ rest) 1 (RLPTree.encode h.tree ++ rest).length := by
    rw [BytesConstRef.croppedFrom_of_le rfl
      (by simp [BytesConstRef.ofBytes, wire])]
    simp [BytesConstRef.ofBytes, BytesConstRef.window, wire]
  obtain ⟨href, -, q, hitems, hcache⟩ :=
    RLP.exists_items_front hfits.fits_tree hholds rfl
  refine ⟨_, by rw [hcrop]; exact href, ?_⟩
  have hmem : ∀ t ∈ [.int h.protocolVersion.toNat, .data h.clientVersion,
      .list (h.caps.map CapDesc.tree), .int h.listenPort.toNat,
      .data h.id.data], RLPTree.Fits t :=
    fun t ht => hfits.fits_tree.of_mem ht
  have hmax : 5 < sizeMax := by decide
  obtain ⟨c₀, r₁, haccess₀, hc₀, h₁⟩ :=
    hcache.access hitems hmem hmax (i := 0) rfl
  obtain ⟨c₁, r₂, haccess₁, hc₁, h₂⟩ :=
    h₁.access hitems hmem hmax (i := 1) rfl
  obtain ⟨c₂, r₃, haccess₂, hc₂, h₃⟩ :=
    h₂.access hitems hmem hmax (i := 2) rfl
  obtain ⟨c₃, r₄, haccess₃, hc₃, -⟩ :=
    h₃.access hitems hmem hmax (i := 3) rfl
  have hport : c₃.toInt 2 .strict = .ok h.listenPort.toNat :=
    hc₃.toInt h.listenPort.toNat_lt (bytesRequired_port _) .strict
  rw [PeerInfo.ofRLP, StateT.run'_eq, PeerInfo.interpretFields,
    RLP.access_bind haccess₀, RLP.lift_bind (toInt_word hc₀),
    RLP.access_bind haccess₁, RLP.lift_bind hc₁.toString,
    RLP.access_bind haccess₂,
    RLP.lift_bind (CapDesc.vectorOf_tree hfits.versions hc₂),
    RLP.access_bind haccess₃, RLP.lift_bind hport]
  rfl

end Hello

end Web3Core
