/-
What a saved network says, apart from the host that restores it: the items it
is read as, and what a host does with each of them.
-/
import Web3Core.Host

namespace Web3Core

open RLP (access)

variable {toPublic : H256 → H512}

/-- What an item of a saved network is read as. -/
inductive SavedItem where
  | skipped
  | entry (n : Node)
  | peer (p : Peer)

namespace SavedItem

/-- The rest of a saved peer, from the item that tells if it is required. -/
def readPeer (allowLocal : Bool) (n : Node) (k : Nat) :
    StateT RLP (Except Exception) SavedItem := do
  let item ← access k
  let required ← item.toInt 1 .strict
  let n := { n with peerType := if required ≠ 0 then .required else .optional }
  if !n.endpoint.isAllowed allowLocal ∧ n.peerType = .optional then pure .skipped
  else
    let item ← access (k + 1)
    let lastConnected ← item.toInt 4 .strict
    let item ← access (k + 2)
    let lastAttempted ← item.toInt 4 .strict
    let item ← access (k + 3)
    let failedAttempts ← item.toInt 4 .strict
    let item ← access (k + 4)
    let lastDisconnect ← item.toInt 4 .strict
    let item ← access (k + 5)
    let score ← item.toInt 4 .strict
    let item ← access (k + 6)
    let rating ← item.toInt 4 .strict
    pure (.peer { n with
      lastConnected := seconds lastConnected
      lastAttempted := seconds lastAttempted
      failedAttempts := UInt32.ofNat failedAttempts
      lastDisconnect := UInt32.ofNat lastDisconnect
      score := (UInt32.ofNat score).toInt32
      rating := (UInt32.ofNat rating).toInt32 })

/-- An item of a saved network, in either layout. -/
def read (allowLocal : Bool) : StateT RLP (Except Exception) SavedItem := do
  let address ← Host.hasAddress
  if !address then pure .skipped
  else
    let i ← get
    let count ← i.itemCount
    if count = 4 ∨ count = 11 then
      let item ← access 3
      let id ← item.toHash 64 .strict
      let endpoint ← NodeIPEndpoint.interpretRLP
      let n : Node := { id, endpoint }
      if count = 4 ∧ endpoint.isAllowed allowLocal then pure (.entry n)
      else if count = 11 then readPeer allowLocal n 4
      else pure .skipped
    else if count = 3 ∨ count = 10 then
      let item ← access 2
      let id ← item.toHash 64 .strict
      let item ← access 0
      let address ← (Host.readBytes.run' item : Except Exception Bytes)
      let item ← access 1
      let port ← item.toInt 2 .strict
      let port := UInt16.ofNat port
      let endpoint : NodeIPEndpoint := ⟨.v4 (RLP.alignRight 4 address), port, port⟩
      let n : Node := { id, endpoint }
      if count = 3 ∧ endpoint.isAllowed allowLocal then pure (.entry n)
      else if count = 10 then readPeer allowLocal n 3
      else pure .skipped
    else pure .skipped

/-- The items of a network whose version can be read. -/
def readAll (allowLocal : Bool) : StateT RLP (Except Exception) (List SavedItem) := do
  let first ← access 0
  let fileVersion ← first.toInt 4 .strict
  let r ← get
  let count ← r.itemCount
  let first ← access 0
  let int ← first.isInt
  if count > 0 ∧ int ∧ fileVersion ≥ c_protocolVersion - 1 then
    let third ← access 2
    let items ← third.toList
    (items.mapM (read allowLocal).run' : Except Exception (List SavedItem))
  else pure []

/-- The items of a saved network. -/
def ofNetwork (allowLocal : Bool) (b : BytesConstRef) :
    Except Exception (List SavedItem) := do
  let r ← RLP.ofRef b .veryStrict
  (readAll allowLocal).run' r

end SavedItem

namespace Host

/-- What is done with an item of a saved network. -/
def keep (h : Host toPublic) : SavedItem → Host toPublic
  | .skipped => h
  | .entry n => h.addNode n .unknown
  | .peer p =>
      let h := { h with peers := h.peers.insert p }
      if p.peerType = .required then h.requirePeer p.id p.endpoint
      else h.addNode p.toNode .known

open SavedItem

theorem restorePeer_eq (allowLocal : Bool) (h : Host toPublic) (n : Node)
    (k : Nat) :
    h.restorePeer allowLocal n k = h.keep <$> readPeer allowLocal n k := by
  simp only [restorePeer, readPeer, map_bind]
  refine bind_congr fun item => bind_congr fun required => ?_
  generalize (if required ≠ 0 then PeerType.required else .optional) = type
  split
  · rfl
  · simp only [map_bind, map_pure]
    rfl

theorem restoreItem_eq (allowLocal : Bool) (h : Host toPublic) :
    restoreItem allowLocal h = h.keep <$> SavedItem.read allowLocal := by
  simp only [restoreItem, SavedItem.read, map_bind, restorePeer_eq]
  refine bind_congr fun address => ?_
  split
  · rfl
  · simp only [map_bind]
    refine bind_congr fun i => bind_congr fun count => ?_
    split
    · simp only [map_bind]
      refine bind_congr fun item => bind_congr fun id => bind_congr fun e => ?_
      split_ifs <;> rfl
    · split
      · simp only [map_bind]
        refine bind_congr fun item => bind_congr fun id =>
          bind_congr fun item => bind_congr fun address =>
            bind_congr fun item => bind_congr fun port => ?_
        split_ifs <;> rfl
      · rfl

theorem run'_map {σ ε α β : Type} (f : α → β) (x : StateT σ (Except ε) α)
    (s : σ) : (f <$> x).run' s = f <$> x.run' s := by
  simp [StateT.run'_eq]

theorem foldlM_restoreItem (allowLocal : Bool) (items : List RLP)
    (h : Host toPublic) :
    items.foldlM (fun h i => (restoreItem allowLocal h).run' i) h =
      (fun saved => saved.foldl keep h) <$>
        items.mapM (SavedItem.read allowLocal).run' := by
  induction items generalizing h with
  | nil => rfl
  | cons i items ih =>
      rw [List.foldlM_cons, List.mapM_cons, restoreItem_eq, run'_map]
      cases (SavedItem.read allowLocal).run' i with
      | error e => rfl
      | ok item =>
          refine (ih (h.keep item)).trans ?_
          cases items.mapM (SavedItem.read allowLocal).run' <;> rfl

theorem restoreItems_eq (allowLocal : Bool) (h : Host toPublic) :
    h.restoreItems allowLocal =
      (fun saved => saved.foldl keep h) <$> readAll allowLocal := by
  simp only [restoreItems, readAll, map_bind, foldlM_restoreItem]
  refine bind_congr fun first => bind_congr fun version => bind_congr fun r =>
    bind_congr fun count => bind_congr fun first => bind_congr fun int => ?_
  split
  · simp only [map_bind]
    exact bind_congr fun third => bind_congr fun items => liftM_map _ _
  · rfl

/-- A network is restored by reading it and keeping one item after the other,
if the host is started and does not drop its peers. -/
theorem restoreNetwork_eq_keep {allowLocal : Bool} {h : Host toPublic}
    {b : BytesConstRef} (hb : b.count ≠ 0) (hstarted : h.isStarted)
    (hkeeps : h.dropPeers = false) :
    h.restoreNetwork allowLocal b =
      (fun saved => saved.foldl keep h) <$> ofNetwork allowLocal b := by
  rw [restoreNetwork, if_neg hb, if_neg (by simp [hstarted]),
    if_neg (by simp [hkeeps]), ofNetwork, map_bind]
  refine bind_congr fun r => ?_
  rw [restoreItems_eq, run'_map]

end Host

end Web3Core
