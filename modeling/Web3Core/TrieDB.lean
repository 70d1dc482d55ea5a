/-
`TrieDB.h`: `GenericTrieDB`, the Merkle Patricia trie over a database.  The
object is its root hash; its operations are programs over the database.  A
recursion of the source is bounded by a fuel that the operations compute from
the length of the key.
-/
import Web3Core.DB
import Web3Core.TrieCommon

namespace Web3Core

/-- The trie object, its database left aside. -/
structure GenericTrieDB where
  root : H256
deriving DecidableEq

/-- `a && b` where `b` is computed if `a` holds. -/
def andThen (a : Bool) (b : Except Exception Bool) : Except Exception Bool :=
  if a then b else .ok false

/-- `!a` of a computed `a`. -/
def negated (a : Except Exception Bool) : Except Exception Bool := do
  let x ← a
  .ok !x

/-- `rlpList` of a key and a byte string. -/
def rlpPair (key value : Bytes) : Except Exception Bytes :=
  rlpList (fun s => s.append key) fun s => s.append value

namespace GenericTrieDB

/-- `_orig.isList() && (_orig.itemCount() == 2 || _orig.itemCount() == 17)`. -/
def isNode (orig : RLP) : Except Exception Bool := do
  let itemCount ← orig.itemCount
  .ok (orig.isList && (itemCount == 2 || itemCount == 17))

/-- Append the items with the given indices. -/
def appendItems (s : RLPStream) (orig : RLP) (is : List Nat) :
    Except Exception RLPStream :=
  is.foldlM (fun s i => do
    let r ← orig.get i
    s.appendItem r) s

section

variable (sha3 : Bytes → H256)

/-- `c_shaNull`. -/
def shaNull : H256 := sha3 rlpNull

def node (h : H256) : DBProgram Bytes := .call (.lookup h) .done

def dbExists (h : H256) : DBProgram Bool := .call (.exists h) .done

def dbKeys : DBProgram (List H256) := .call .keys .done

/-- `forceInsertNode` under a given hash. -/
def forceInsertNodeAt (h : H256) (v : Bytes) : DBProgram Unit :=
  .call (.insert h v) .done

def forceInsertNode (v : Bytes) : DBProgram H256 := do
  let h := sha3 v
  forceInsertNodeAt h v
  pure h

def forceKillNode (h : H256) : DBProgram Unit := .call (.kill h) .done

/-- `killNode` of a node with a given hash. -/
def killNodeAt (d : RLP) (h : H256) : DBProgram Unit :=
  if d.data.count ≥ 32 then forceKillNode h else pure ()

def killNode (d : RLP) : DBProgram Unit := killNodeAt d (sha3 d.data.toBytes)

def streamNode (s : RLPStream) (b : Bytes) : DBProgram RLPStream :=
  if b.length < 32 then s.appendRaw b 1
  else do
    let h ← forceInsertNode sha3 b
    s.appendHash h

/-- The body of `setRoot`, given `init`. -/
def setRootWith (init : DBProgram H256) (root : H256) : DBProgram H256 := do
  let root' ← (do
    if root = shaNull sha3 then do
      let found ← dbExists root
      if !found then init else pure root
    else pure root)
  let s ← node root'
  if s = [] then .throw .rootNotFound else pure root'

/-- `init` and `setRoot` call each other; `fuel` bounds the calls. -/
def initLoop : Nat → DBProgram H256
  | 0 => .throw .outOfFuel
  | fuel + 1 => do
      let h ← forceInsertNode sha3 rlpNull
      let root ← setRootWith sha3 (initLoop fuel) h
      let s ← node root
      check (s ≠ [])
      pure root

def init : DBProgram GenericTrieDB := do
  let root ← initLoop sha3 2
  pure ⟨root⟩

def setRoot (root : H256) : DBProgram GenericTrieDB := do
  let root' ← setRootWith sha3 (initLoop sha3 2) root
  pure ⟨root'⟩

/-- `root()`. -/
def getRoot (t : GenericTrieDB) : DBProgram H256 := do
  let s ← node t.root
  if s = [] then .throw .badRoot else pure t.root

/-! Lookup. -/

def atAux : Nat → RLP → NibbleSlice → DBProgram Bytes
  | 0, _, _ => .throw .outOfFuel
  | fuel + 1, here, key =>
      if here.isEmpty || here.isNull then pure []
      else do
        let itemCount ← here.itemCount
        check (here.isList && (itemCount == 2 || itemCount == 17))
        if itemCount = 2 then do
          let k ← keyOf here
          let same ← key.equals k
          let found ← andThen same (isLeaf here)
          if found then do
            let r ← here.get 1
            r.toString
          else do
            let contains ← key.contains k
            let onwards ← andThen contains (negated (isLeaf here))
            if onwards then do
              let r ← here.get 1
              if r.isList then atAux fuel r (key.mid k.size)
              else do
                let h ← r.toHash 32 .strict
                let s ← node h
                let r' ← RLP.ofBytes s
                atAux fuel r' (key.mid k.size)
            else pure []
        else if key.size = 0 then do
          let r ← here.get 16
          r.toString
        else do
          let i ← key.get 0
          let n ← here.get i.toNat
          if n.isEmpty then pure []
          else if n.isList then atAux fuel n (key.mid 1)
          else do
            let h ← n.toHash 32 .strict
            let s ← node h
            let r ← RLP.ofBytes s
            atAux fuel r (key.mid 1)

/-- `at`. -/
def lookup (t : GenericTrieDB) (key : Bytes) : DBProgram Bytes := do
  let s ← node t.root
  let r ← RLP.ofBytes s
  atAux (key.length * 2 + 2) r ⟨key, 0⟩

/-! Insertion. -/

def place (orig : RLP) (k : NibbleSlice) (s : Bytes) : DBProgram Bytes := do
  killNode sha3 orig
  if orig.isEmpty then do
    let key ← hexPrefixEncodeSlice k true
    rlpPair key s
  else do
    let ok ← isNode orig
    check ok
    let itemCount ← orig.itemCount
    if itemCount = 2 then do
      let r ← orig.get 0
      rlpList (fun out => out.appendItem r) fun out => out.append s
    else do
      let out ← RLPStream.ofList 17
      let out ← appendItems out orig (List.range 16)
      let out ← out.append s
      out.out

def cleve (orig : RLP) (s : Nat) : DBProgram Bytes := do
  killNode sha3 orig
  let itemCount ← orig.itemCount
  check (orig.isList && itemCount == 2)
  let k ← keyOf orig
  check (s ≠ 0 && s ≤ k.size)
  let leaf ← isLeaf orig
  let bottomKey ← hexPrefixEncodeSlice k leaf (toInt s)
  let r ← orig.get 1
  let bottom ← rlpList (fun out => out.append bottomKey) fun out =>
    out.appendItem r
  let topKey ← hexPrefixEncodeSlice k false 0 (toInt s)
  let top ← RLPStream.ofList 2
  let top ← top.append topKey
  let top ← streamNode sha3 top bottom
  top.out

def branch (orig : RLP) : DBProgram Bytes := do
  let itemCount ← orig.itemCount
  check (orig.isList && itemCount == 2)
  killNode sha3 orig
  let k ← keyOf orig
  let r ← RLPStream.ofList 17
  if k.size = 0 then do
    let leaf ← isLeaf orig
    check leaf
    let r ← ((List.range 16).foldlM (fun r _ => r.append []) r :
      Except Exception RLPStream)
    let value ← orig.get 1
    let r ← r.appendItem value
    r.out
  else do
    let b ← k.get 0
    let r ← (List.range 16).foldlM (fun (r : RLPStream) i =>
      (do
        if i = b.toNat then do
          let leaf ← isLeaf orig
          let value ← orig.get 1
          if leaf || k.size > 1 then do
            let key ← hexPrefixEncodeSlice (k.mid 1) leaf
            let child ← rlpList (fun out => out.append key) fun out =>
              out.appendItem value
            streamNode sha3 r child
          else r.appendItem value
        else r.append [] : DBProgram RLPStream)) r
    let r ← r.append []
    r.out

/-- `mergeAtAux`, given `mergeAt`. -/
def mergeAtAux (mergeAt : RLP → H256 → NibbleSlice → Bytes → Bool →
      DBProgram Bytes) (out : RLPStream) (orig : RLP) (k : NibbleSlice)
    (v : Bytes) : DBProgram RLPStream :=
  if !orig.isList && !orig.isEmpty then do
    let h ← orig.toHash 32 .strict
    let s ← node h
    let r ← RLP.ofBytes s
    check (!r.isNull)
    let b ← mergeAt r (sha3 r.data.toBytes) k v false
    streamNode sha3 out b
  else do
    let b ← mergeAt orig (sha3 orig.data.toBytes) k v true
    streamNode sha3 out b

def mergeAt : Nat → RLP → H256 → NibbleSlice → Bytes → Bool → DBProgram Bytes
  | 0, _, _, _, _, _ => .throw .outOfFuel
  | fuel + 1, orig, origHash, k, v, inLine =>
      if orig.isEmpty then place sha3 orig k v
      else do
        let itemCount ← orig.itemCount
        check (orig.isList && (itemCount == 2 || itemCount == 17))
        if itemCount = 2 then do
          let k' ← keyOf orig
          let same ← k'.equals k
          let exactly ← andThen same (isLeaf orig)
          if exactly then place sha3 orig k v
          else do
            let contains ← k.contains k'
            let down ← andThen contains (negated (isLeaf orig))
            if down then do
              Program.onlyIf (!inLine) (killNodeAt orig origHash)
              let s ← RLPStream.ofList 2
              let r₀ ← orig.get 0
              let s ← s.appendItem r₀
              let r₁ ← orig.get 1
              let s ← mergeAtAux sha3 (mergeAt fuel) s r₁ (k.mid k'.size) v
              s.out
            else do
              let sh ← k.shared k'
              if sh ≠ 0 then do
                let cleved ← cleve sha3 orig sh
                let r ← RLP.ofBytes cleved
                mergeAt fuel r (sha3 r.data.toBytes) k v true
              else do
                let branched ← branch sha3 orig
                let r ← RLP.ofBytes branched
                mergeAt fuel r (sha3 r.data.toBytes) k v true
        else if k.size = 0 then place sha3 orig k v
        else do
          Program.onlyIf (!inLine) (killNodeAt orig origHash)
          let n ← k.get 0
          let r ← RLPStream.ofList 17
          let r ← (List.range 17).foldlM (fun r i => do
            let c ← orig.get i
            if i = n.toNat then mergeAtAux sha3 (mergeAt fuel) r c (k.mid 1) v
            else r.appendItem c) r
          r.out

def insert (t : GenericTrieDB) (key value : Bytes) :
    DBProgram GenericTrieDB := do
  let rootValue ← node t.root
  check (rootValue ≠ [])
  let r ← RLP.ofBytes rootValue
  let b ← mergeAt sha3 (key.length * 4 + 3) r t.root ⟨key, 0⟩ value false
  Program.onlyIf (rootValue.length < 32) (forceKillNode t.root)
  let root ← forceInsertNode sha3 b
  pure ⟨root⟩

/-! Removal. -/

def isTwoItemNode (n : RLP) : DBProgram Bool := do
  let hashed ← (do
    if n.isData then do
      let h ← n.toHash 32 .strict
      let s ← node h
      let r ← RLP.ofBytes s
      let itemCount ← r.itemCount
      pure (itemCount == 2)
    else pure false)
  if hashed then pure true
  else do
    let inlined ← andThen n.isList (do
      let itemCount ← n.itemCount
      .ok (itemCount == 2))
    pure inlined

def merge (orig : RLP) (i : Nat) : DBProgram Bytes := do
  let itemCount ← orig.itemCount
  check (orig.isList && itemCount == 17)
  let r ← orig.get i
  let s ← RLPStream.ofList 2
  let key ← (
    if i ≠ 16 then do
      check (!r.isEmpty)
      hexPrefixEncodeRange [UInt8.ofNat i] false 1 2 0
    else hexPrefixEncode [] true : Except Exception Bytes)
  let s ← s.append key
  let s ← s.appendItem r
  s.out

def graft (orig : RLP) : DBProgram Bytes := do
  let itemCount ← orig.itemCount
  check (orig.isList && itemCount == 2)
  let r ← orig.get 1
  let n ← (do
    if r.isList then pure r
    else do
      let lh ← r.toHash 32 .strict
      let s ← node lh
      forceKillNode lh
      RLP.ofBytes s)
  let itemCount' ← n.itemCount
  check (itemCount' == 2)
  let k ← keyOf orig
  let k' ← keyOf n
  let leaf ← isLeaf n
  let key ← hexPrefixEncodeJoin k k' leaf
  let value ← n.get 1
  rlpList (fun out => out.append key) fun out => out.appendItem value

/-- `deleteAtAux`, given `deleteAt`; `none` if there is nothing to delete. -/
def deleteAtAux (deleteAt : RLP → NibbleSlice → DBProgram Bytes)
    (out : RLPStream) (orig : RLP) (k : NibbleSlice) :
    DBProgram (Option RLPStream) := do
  let b ← (do
    if orig.isEmpty then pure []
    else if orig.isList then deleteAt orig k
    else do
      let h ← orig.toHash 32 .strict
      let s ← node h
      let r ← RLP.ofBytes s
      deleteAt r k)
  if b = [] then pure none
  else do
    let out ← streamNode sha3 out b
    pure (some out)

/-- The loop over the slots of a branch, left when the key does not turn
up. -/
def deleteSlots (deleteAt : RLP → NibbleSlice → DBProgram Bytes) (orig : RLP)
    (n : Nat) (k : NibbleSlice) :
    List Nat → RLPStream → DBProgram (Option RLPStream)
  | [], r => pure (some r)
  | i :: is, r => do
      let c ← orig.get i
      if i = n then do
        let out ← deleteAtAux sha3 deleteAt r c (k.mid 1)
        match out with
        | none => pure none
        | some r => deleteSlots deleteAt orig n k is r
      else do
        let r ← r.appendItem c
        deleteSlots deleteAt orig n k is r

/-- Rewrite a branch that has the single slot `used` left. -/
def mergeUsed (orig : RLP) (used : Nat) : DBProgram Bytes := do
  let r ← orig.get used
  let twoItem ← isTwoItemNode r
  if twoItem then do
    let merged ← merge orig used
    let r' ← RLP.ofBytes merged
    graft r'
  else merge orig used

def deleteAt : Nat → RLP → NibbleSlice → DBProgram Bytes
  | 0, _, _ => .throw .outOfFuel
  | fuel + 1, orig, k =>
      if orig.isEmpty then pure []
      else do
        let ok ← isNode orig
        check ok
        let itemCount ← orig.itemCount
        if itemCount = 2 then do
          let k' ← keyOf orig
          let same ← k'.equals k
          let exactly ← andThen same (isLeaf orig)
          if exactly then do
            killNode sha3 orig
            pure rlpNull
          else do
            let contains ← k.contains k'
            if contains then do
              let s ← RLPStream.ofList 2
              let r₀ ← orig.get 0
              let s ← s.appendItem r₀
              let r₁ ← orig.get 1
              let out ← deleteAtAux sha3 (deleteAt fuel) s r₁ (k.mid k'.size)
              match out with
              | none => pure []
              | some s => do
                  killNode sha3 orig
                  let b ← s.out
                  let r ← RLP.ofBytes b
                  let c ← r.get 1
                  let twoItem ← isTwoItemNode c
                  if twoItem then graft r else pure b
            else pure []
        else do
          let exactly ← andThen (k.size == 0) (do
            let value ← orig.get 16
            .ok !value.isEmpty)
          if exactly then do
            killNode sha3 orig
            let used ← uniqueInUse orig 16
            if used ≠ 255 then mergeUsed orig used
            else do
              let r ← RLPStream.ofList 17
              let r ← appendItems r orig (List.range 16)
              let r ← r.append []
              r.out
          else do
            let r ← RLPStream.ofList 17
            let n ← k.get 0
            let out ← deleteSlots sha3 (deleteAt fuel) orig n.toNat k
              (List.range 17) r
            match out with
            | none => pure []
            | some r => do
                killNode sha3 orig
                let b ← r.out
                let rlp ← RLP.ofBytes b
                let used ← uniqueInUse rlp 255
                if used = 255 then pure b else mergeUsed rlp used

def remove (t : GenericTrieDB) (key : Bytes) : DBProgram GenericTrieDB := do
  let rv ← node t.root
  let r ← RLP.ofBytes rv
  let b ← deleteAt sha3 (key.length * 2 + 2) r ⟨key, 0⟩
  if b ≠ [] then do
    Program.onlyIf (rv.length < 32) (forceKillNode t.root)
    let root ← forceInsertNode sha3 b
    pure ⟨root⟩
  else pure t

end

end GenericTrieDB

end Web3Core
