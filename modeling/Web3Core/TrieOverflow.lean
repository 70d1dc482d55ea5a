/-
Keys of 2^30 bytes.  The number of their nibbles does not fit into an `int`,
and splitting a node after its first nibble computes with it.
-/
import Web3Core.TrieWrap

namespace Web3Core

open Program Trie GenericTrieDB

section Long

variable {sha3 : Bytes → H256} {k k' v x : Bytes}

theorem hexPrefixEncodeSlice_long (hk : k.length = 2 ^ 30) (leaf : Bool) :
    hexPrefixEncodeSlice ⟨k, 0⟩ leaf = .ok (hexPrefix leaf (nibbles k)) := by
  have hint : toInt ((k.length : Int) * 2 - ((0 : Nat) : Int)) = -2 ^ 31 := by
    rw [hk]
    decide
  have hone : addInt (-2 ^ 31) 1 = .ok (-2 ^ 31 + 1) := by decide
  have hlast : addInt (-2 ^ 31 + 1) (-1) = .ok (-2 ^ 31) := by decide
  have hfirst : toUnsigned (0 + ((0 : Nat) : Int)) = 0 := by decide
  have hend : toUnsigned (-2 ^ 31 + ((0 : Nat) : Int)) = 2 ^ 31 := by decide
  have hword : (nibbles k).drop 0 = nibbles k ++ [] := by simp
  rw [hexPrefixEncodeSlice, hexPrefixEncodeRange, if_pos (by decide), hint, hone,
    ok_bind, hlast, ok_bind, hfirst]
  simp only [hend]
  exact pushNibbles_range leaf hword (by rw [length_nibbles, hk]; omega)

/-- The slice a node shows for the key. -/
theorem keyOf_long (hk : k.length = 2 ^ 30) {r : RLP} {leaf : Bool}
    {item : RLPTree}
    (hr : r.Rep (.list [.data (hexPrefix leaf (nibbles k)), item])) :
    keyOf r = .ok ⟨hexPrefix leaf (nibbles k), 2⟩ := by
  obtain ⟨c, hc, hrep⟩ := hr.get (i := 0) rfl
  obtain ⟨view, hview, -, hbytes⟩ := hrep.exists_payload
  have heven : (nibbles k).length % 2 = 0 := by
    rw [length_nibbles]
    omega
  have hmark : ∀ leaf : Bool,
      Nibble.join (hexPrefixFlags leaf false) 0 &&& 0x10 = 0 := by decide
  have hkey : keyOfHexPrefix (hexPrefix leaf (nibbles k)) =
      ⟨hexPrefix leaf (nibbles k), 2⟩ := by
    rw [hexPrefix_even leaf heven, keyOfHexPrefix, if_neg (by simp [hmark leaf])]
  simp [keyOf, hc, hview, hbytes, RLPTree.payload, hkey]

/-- Going on from the first nibble of the key counts past the largest
`int`. -/
theorem hexPrefixEncodeSlice_mid (hk : k.length = 2 ^ 30) (leaf leaf' : Bool) :
    hexPrefixEncodeSlice (NibbleSlice.mid ⟨hexPrefix leaf (nibbles k), 2⟩ 1)
      leaf' = .error .intOverflow := by
  have hmid : NibbleSlice.mid ⟨hexPrefix leaf (nibbles k), 2⟩ 1 =
      ⟨hexPrefix leaf (nibbles k), 3⟩ := rfl
  have hlen : (hexPrefix leaf (nibbles k)).length = 2 ^ 30 + 1 := by
    rw [length_hexPrefix, length_nibbles, hk]
    omega
  have hint : toInt (((2 ^ 30 + 1 : Nat) : Int) * 2 - ((3 : Nat) : Int)) =
      2 ^ 31 - 1 := by decide
  have hone : addInt (2 ^ 31 - 1) 1 = .error .intOverflow := by decide
  rw [hmid, hexPrefixEncodeSlice, hexPrefixEncodeRange, if_pos (by decide),
    hlen, hint, hone]
  rfl

theorem size_long (hk : k.length = 2 ^ 30) (leaf : Bool) :
    NibbleSlice.size ⟨hexPrefix leaf (nibbles k), 2⟩ = 2 ^ 31 := by
  have hlen : (hexPrefix leaf (nibbles k)).length = 2 ^ 30 + 1 := by
    rw [length_hexPrefix, length_nibbles, hk]
    omega
  have hnum : toUnsigned (((2 ^ 30 + 1 : Nat) : Int) * 2 - ((2 : Nat) : Int)) =
      2 ^ 31 := by decide
  rw [NibbleSlice.size, hlen, hnum]

theorem size_key (hk : k.length = 2 ^ 30) :
    NibbleSlice.size ⟨k, 0⟩ = 2 ^ 31 := by
  have hnum : toUnsigned (((2 ^ 30 : Nat) : Int) * 2 - ((0 : Nat) : Int)) =
      2 ^ 31 := by decide
  rw [NibbleSlice.size, hk, hnum]

/-- Slices with different first nibbles share nothing. -/
theorem shared_long {s s' : NibbleSlice} (hs : s.size = 2 ^ 31)
    (hs' : s'.size = 2 ^ 31) (hoff : s.offset < 2 ^ 31)
    (hoff' : s'.offset < 2 ^ 31) {n n' : Nibble}
    (hn : (nibbles s.data)[s.offset]? = some n)
    (hn' : (nibbles s'.data)[s'.offset]? = some n') (hne : n ≠ n') :
    s.shared s' = .ok 0 := by
  have hend : ∀ {s : NibbleSlice}, s.size = 2 ^ 31 → s.offset < 2 ^ 31 →
      toUnsigned (s.offset + s.size) - s.offset = 2 ^ 31 - 1 + 1 := by
    intro s hs hoff
    rw [hs, toUnsigned]
    omega
  rw [NibbleSlice.shared, sharedNibbles, hend hs hoff, hend hs' hoff',
    Nat.min_self, sharedNibblesLoop, NibbleSlice.nibble_eq hn, ok_bind,
    NibbleSlice.nibble_eq hn', ok_bind,
    if_neg fun h => hne (Nibble.toByte_inj.1 h)]

/-- Splitting a leaf for a key with another first nibble. -/
theorem mergeAt_long (hk : k.length = 2 ^ 30) (hk' : k'.length = 2 ^ 30)
    {ns ns' : List Nibble} (hns : nibbles k = 0 :: ns)
    (hns' : nibbles k' = 1 :: ns') {r : RLP}
    (hr : r.Rep (.list [.data (hexPrefix true (nibbles k)), .data x]))
    (fuel : Nat) (h : H256) (inLine : Bool) :
    GenericTrieDB.mergeAt sha3 (fuel + 1) r h ⟨k', 0⟩ v inLine = (do
      killNode sha3 r
      .throw Exception.intOverflow) := by
  obtain ⟨c₀, hc₀, -⟩ := hr.get (i := 0) rfl
  obtain ⟨c, hc, -⟩ := hr.get (i := 1) rfl
  have hlist : r.isList = true := hr.isList
  have hempty : r.isEmpty = false := by
    rw [hr.isEmpty, RLPTree.payload, RLPTree.encodeItems]
    simp [RLPTree.encode_ne_nil]
  have hcount : r.itemCount = .ok 2 := hr.itemCount
  have heven : (nibbles k).length % 2 = 0 := by
    rw [length_nibbles]
    omega
  have hfirst : (nibbles (hexPrefix true (nibbles k)))[2]? = some 0 := by
    rw [hexPrefix_even true heven, nibbles, nibbles_pack heven, hns]
    rfl
  have hfirst' : (nibbles k')[0]? = some 1 := by
    rw [hns']
    rfl
  have hsize := size_long hk true
  have hsize' := size_key hk'
  have hshared : NibbleSlice.shared ⟨hexPrefix true (nibbles k), 2⟩ ⟨k', 0⟩ =
      .ok 0 :=
    shared_long hsize hsize' (by simp) (by simp) hfirst hfirst' (by decide)
  have hshared' : NibbleSlice.shared ⟨k', 0⟩ ⟨hexPrefix true (nibbles k), 2⟩ =
      .ok 0 :=
    shared_long hsize' hsize (by simp) (by simp) hfirst' hfirst (by decide)
  have hget : NibbleSlice.get ⟨hexPrefix true (nibbles k), 2⟩ 0 = .ok 0 :=
    NibbleSlice.nibble_eq hfirst
  have hequals : NibbleSlice.equals ⟨hexPrefix true (nibbles k), 2⟩ ⟨k', 0⟩ =
      .ok false := by
    rw [NibbleSlice.equals, hsize, hsize', if_pos rfl, hshared]
    rfl
  have hcontains : NibbleSlice.contains ⟨k', 0⟩
      ⟨hexPrefix true (nibbles k), 2⟩ = .ok false := by
    rw [NibbleSlice.contains, hshared', hsize]
    rfl
  have hbranch : branch sha3 r = (do
      killNode sha3 r
      .throw Exception.intOverflow) := by
    simp only [branch, hcount, liftM_ok_bind, hlist, beq_self_eq_true,
      Bool.and_self, check_true]
    refine congrArg _ (funext fun _ => ?_)
    have hlist17 : RLPStream.ofList 17 = .ok ⟨[], [(17, 0)]⟩ := rfl
    have hleaf : isLeaf r = .ok true := isLeaf_eq hr
    have hrange : List.range 16 = 0 :: (List.range 15).map Nat.succ :=
      List.range_succ_eq_map
    have hzero : ¬ (2 ^ 31 = 0) := by omega
    simp only [keyOf_long hk hr, liftM_ok_bind, hsize, hget, hlist17, hzero,
      ↓reduceIte, hrange, List.foldlM_cons, UInt8.toNat_zero, hleaf, hc,
      Bool.true_or, hexPrefixEncodeSlice_mid hk]
    rfl
  simp only [GenericTrieDB.mergeAt, hempty, Bool.false_eq_true, ↓reduceIte,
    hcount, hlist, beq_self_eq_true, Bool.true_or, Bool.and_self, check_true,
    liftM_ok_bind, keyOf_long hk hr, hequals, andThen, hcontains, hshared',
    ne_eq, not_true_eq_false, hbranch]
  simp only [bind_assoc]
  rfl

/-- The leaf of such a key. -/
def longLeaf (k v : Bytes) : RLPTree :=
  .list [.data (hexPrefix true (nibbles k)), .data v]

theorem fits_longLeaf (hk : k.length = 2 ^ 30) (hv : v.length < 2 ^ 63) :
    (longLeaf k v).Fits := by
  have hlen := length_hexPrefix true (nibbles k)
  rw [length_nibbles, hk] at hlen
  have hkey := RLPTree.length_encodeData_le (b := hexPrefix true (nibbles k))
    (by omega)
  have hvalue := RLPTree.length_encodeData_le (b := v) (by omega)
  have hitems : (RLPTree.encodeItems [.data (hexPrefix true (nibbles k)),
      .data v]).length ≤ 2 ^ 30 + v.length + 20 := by
    simp only [RLPTree.encodeItems, List.append_nil, List.length_append]
    omega
  have := RLPTree.length_encode_list_le (show (RLPTree.encodeItems
    [.data (hexPrefix true (nibbles k)), .data v]).length < 2 ^ 64 by omega)
  rw [RLPTree.Fits, longLeaf]
  omega

/-- The first insertion writes a leaf. -/
theorem mergeAt_empty_long (hk : k.length = 2 ^ 30) (hv : v.length < 2 ^ 63)
    {r : RLP} (hr : r.Rep (.data [])) (fuel : Nat) (h : H256) (inLine : Bool) :
    GenericTrieDB.mergeAt sha3 (fuel + 1) r h ⟨k, 0⟩ v inLine =
      pure (RLPTree.encode (longLeaf k v)) := by
  have hempty : r.isEmpty = true := hr.isEmpty
  have hcount : r.data.count = 1 := hr.count
  have hkill : killNode sha3 r = pure () := by
    rw [killNode, killNodeAt, hcount]
    rfl
  simp only [GenericTrieDB.mergeAt, hempty, ↓reduceIte, place, hkill,
    pure_bind, hexPrefixEncodeSlice_long hk, liftM_ok_bind,
    rlpPair_eq (fits_longLeaf hk hv)]
  rfl

/-- Two keys of 2^30 bytes with different first nibbles. -/
theorem run_session_long (hk : k.length = 2 ^ 30) (hk' : k'.length = 2 ^ 30)
    {ns ns' : List Nibble} (hns : nibbles k = 0 :: ns)
    (hns' : nibbles k' = 1 :: ns') (hv : v.length < 2 ^ 63)
    (hinit : written (session sha3 []) ({} : MemoryDB) = [rlpNull]) :
    (run DB.handler (session sha3 [.insert k v, .insert k' x])
        ({} : MemoryDB)).1 = .error .intOverflow ∧
      written (session sha3 [.insert k v, .insert k' x]) ({} : MemoryDB) =
        [rlpNull, RLPTree.encode (longLeaf k v)] := by
  have hclash : NoClash sha3 (session sha3 []) ({} : MemoryDB) := by
    intro v hv w hw _
    rw [hinit, List.mem_singleton] at hv hw
    rw [hv, hw]
  have hops : TrieOp.Inserts [] := fun op hop => absurd hop List.not_mem_nil
  obtain ⟨g, db, t, hrun, hrep⟩ :=
    exists_session_inserts fresh_memoryDB hops hclash
  obtain rfl : t = .empty := hrep.denotes.trie_unique BytesMap.denotes_empty
  have hlax : LawfulDB.Lax db := hrep.opened.consistent.lax
  obtain ⟨b, hb⟩ : ∃ b, b = RLPTree.encode (longLeaf k v) := ⟨_, rfl⟩
  have hbne : b ≠ [] := hb ▸ RLPTree.encode_ne_nil _
  -- The first insertion.
  obtain ⟨r, hne, hr, hrep₀⟩ := hrep.opened.exists_top
  have hroot : DB.lookup db g.root = rlpNull := by
    rw [hrep.opened.root, hrep.opened.top, enc_empty]
  obtain ⟨hrun₁, hwritten₁⟩ := @insert_eq_insertRead sha3 _ _ db g _ r rfl hne hr k v
  have hread : insertRead sha3 g k v (DB.lookup db g.root) r = (do
      forceKillNode g.root
      let root ← forceInsertNode sha3 b
      pure ⟨root⟩) := by
    rw [insertRead, mergeAt_empty_long hk hv hrep₀, hroot, hb]
    rfl
  rw [hread] at hrun₁ hwritten₁
  -- The second one.
  obtain ⟨r', hr', hrep'⟩ := RLP.Rep.ofBytes (fits_longLeaf hk hv)
  have hlookup : DB.lookup (DB.insert (DB.kill db g.root) (sha3 b) b) (sha3 b) =
      b :=
    (LawfulDB.lookup_insert _ _ _ (LawfulDB.lax_kill db _ hlax) hbne _).trans
      (if_pos rfl)
  obtain ⟨hrun₂, hwritten₂⟩ := @insert_eq_insertRead sha3 _ _ _
    ⟨sha3 b⟩ _ r' hlookup hbne (hb ▸ hr') k' x
  have hread' : insertRead sha3 ⟨sha3 b⟩ k' x b r' = (do
      killNode sha3 r'
      .throw Exception.intOverflow) := by
    rw [insertRead, mergeAt_long hk hk' hns hns' hrep']
    simp only [bind_assoc]
    rfl
  have hthrow : ∀ db : MemoryDB,
      (run DB.handler (do
        killNode sha3 r'
        .throw Exception.intOverflow : DBProgram GenericTrieDB) db).1 =
          .error .intOverflow ∧
        written (do
          killNode sha3 r'
          .throw Exception.intOverflow : DBProgram GenericTrieDB) db = [] := by
    intro db
    rw [killNode, killNodeAt]
    split <;> exact ⟨rfl, rfl⟩
  rw [hread'] at hrun₂ hwritten₂
  have hops : [TrieOp.insert k v, .insert k' x] =
      ([] ++ [.insert k v]) ++ [.insert k' x] := rfl
  have hfirst : run DB.handler (session sha3 ([] ++ [.insert k v]))
      ({} : MemoryDB) = (.ok ⟨sha3 b⟩,
        DB.insert (DB.kill db g.root) (sha3 b) b) := by
    rw [session_append, run_bind, hrun]
    exact hrun₁
  rw [hops, session_append, run_bind, hfirst, written_bind hfirst,
    session_append, written_bind hrun, hinit, ← hb]
  constructor
  · exact (congrArg Prod.fst hrun₂).trans (hthrow _).1
  · show [rlpNull] ++ written (g.insert sha3 k v) db ++
      written (GenericTrieDB.insert sha3 ⟨sha3 b⟩ k' x) _ = _
    rw [hwritten₁, hwritten₂, (hthrow _).2]
    rfl

/-- A key of 2^30 bytes. -/
def hugeKey (x : Byte) : Bytes := List.replicate (2 ^ 30) x

theorem length_hugeKey (y : Byte) : (hugeKey y).length = 2 ^ 30 :=
  List.length_replicate

theorem nibbles_hugeKey (y : Byte) :
    ∃ ns, nibbles (hugeKey y) = Nibble.high y :: ns := by
  have hcons : ∀ n, n ≠ 0 → ∃ ns,
      nibbles (List.replicate n y) = Nibble.high y :: ns := by
    intro n hn
    cases n with
    | zero => exact absurd rfl hn
    | succ n => exact ⟨_, rfl⟩
  exact hcons (2 ^ 30) (by omega)

/-- A hash that tells just the empty node from the others. -/
def nullHash (b : Bytes) : H256 :=
  ⟨List.replicate 32 (if b = rlpNull then 0 else 1), List.length_replicate⟩

end Long

end Web3Core
