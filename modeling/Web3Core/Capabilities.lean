/-
The capabilities of a session.  `startPeerSession` registers those that the
other side has told of and the host has too, and gives each of them the ids
after those before; `prep` begins a message of a capability with its id, and
`readPacket` finds the capability of a message.
-/
import Mathlib.Data.Prod.Lex
import Web3Core.OrderedMap
import Web3Core.SessionRead

namespace Web3Core

/-- `CapDesc`: a name and a version. -/
structure CapDesc where
  name : Bytes
  version : Nat
deriving DecidableEq

namespace CapDesc

def key (c : CapDesc) : Lex (Bytes × Nat) := toLex (c.name, c.version)

theorem key_injective : Function.Injective key := by
  intro c d h
  cases c
  cases d
  cases h
  rfl

/-- Descriptions are compared by the name and then by the version. -/
instance : LinearOrder CapDesc := LinearOrder.lift' key key_injective

end CapDesc

/-- What a session has for a capability: the offset of its ids, and how many
messages its host has for it. -/
structure PeerCapability where
  idOffset : UInt32
  messageCount : UInt32
  enabled : Bool := true
deriving DecidableEq

/-- `UserPacket`. -/
def userPacket : UInt32 := 0x10

namespace Host

variable (capabilities : OrderedMap CapDesc UInt32)

/-- `caps`: the capabilities of a host, each with its number of messages. -/
def caps : List CapDesc := capabilities.entries.map (·.1)

/-- Only the newest version of each name is kept.  `caps` are in order, so a
newer version comes after an older one, where nothing has been moved yet. -/
def newestCaps (caps : List CapDesc) : List CapDesc :=
  if caps.length > 1 then
    caps.filter fun r => !caps.any fun o =>
      r.name == o.name && decide (o.version > r.version)
  else caps

/-- A capability that the host has is registered at the next offset. -/
def registerCap (registered : OrderedMap CapDesc PeerCapability × UInt32)
    (c : CapDesc) : OrderedMap CapDesc PeerCapability × UInt32 :=
  match capabilities.lookup c with
  | some count => (registered.1.insert c ⟨registered.2, count, true⟩,
      registered.2 + count)
  | none => registered

/-- The capabilities of the session that `startPeerSession` starts, from the
list in the other side's hello. -/
def sessionCaps (hello : List CapDesc) : OrderedMap CapDesc PeerCapability :=
  ((newestCaps hello).foldl (registerCap capabilities) ({}, userPacket)).1

end Host

/-- `Capability::prep`: one byte for the id, and a list of arguments. -/
def PeerCapability.prep (c : PeerCapability) (s : RLPStream) (id : UInt32)
    (args : Nat) : Except Exception RLPStream := do
  let s ← s.appendRaw [UInt8.ofNat (id + c.idOffset).toNat] 1
  s.appendList args

/-- A message of a capability with all of its arguments. -/
def PeerCapability.message (c : PeerCapability) (id : UInt32)
    (args : List RLPTree) : Except Exception Bytes := do
  let s ← c.prep {} id args.length
  let s ← RLPTree.writeItems args s
  s.out

/-- What `readPacket` does with a packet. -/
inductive Dispatch where
  | session (packetType : Nat)
  | capability (c : CapDesc) (id : Nat)
  | disabled
  | unknown
deriving DecidableEq

namespace Session

variable (capabilities : OrderedMap CapDesc PeerCapability)

/-- `_t - idOffset`, as `unsigned`. -/
def idOf (packetType : Nat) (c : PeerCapability) : Nat :=
  toUnsigned (packetType - c.idOffset.toNat)

/-- Whether a capability has the id of a packet among its own. -/
def hasId (packetType : Nat) (c : PeerCapability) : Bool :=
  decide (toInt c.idOffset.toNat ≤ packetType) &&
    decide (idOf packetType c < c.messageCount.toNat)

/-- `readPacket`.  Up to version 4 the type tells the capability; from version
5 on the frame does. -/
def readPacket (protocolVersion capId packetType : Nat) : Dispatch :=
  if capId = 0 ∧ packetType < userPacket.toNat then .session packetType
  else
    let found :=
      if protocolVersion ≥ 5 then
        (capabilities.entries.find? fun i => capId == i.1.version % 2 ^ 16).map
          fun i => (i, packetType)
      else
        (capabilities.entries.find? fun i => hasId packetType i.2).map
          fun i => (i, idOf packetType i.2)
    match found with
    | none => .unknown
    | some (i, id) => if i.2.enabled then .capability i.1 id else .disabled

/-- What becomes of a message that comes in a frame by a side of version 4. -/
def deliver (msg more : Bytes) : Except Exception (Option Dispatch) := do
  let action ← onFrame 0 (msg ++ more) msg.length
  match action with
  | .readPacket capId packetType _ =>
      .ok (some (readPacket capabilities 4 capId packetType))
  | .disconnect _ => .ok none

end Session

/-- Every message of a capability of one side is dispatched by the other one to
the same capability, with its id. -/
def Understands (sender receiver : OrderedMap CapDesc PeerCapability) : Prop :=
  ∀ c p, sender.lookup c = some p → ∀ (id : UInt32), id < p.messageCount →
    ∀ args : List RLPTree, (RLPTree.list args).Fits → ∀ more : Bytes,
      (do let msg ← p.message id args
          Session.deliver receiver msg more) =
        .ok (some (.capability c id.toNat))

/-- Both ends of a connection have the same capabilities at the same offsets
and understand each other's messages. -/
structure Agree (a b : OrderedMap CapDesc UInt32) : Prop where
  offsets : ∀ c,
    ((Host.sessionCaps a (Host.caps b)).lookup c).map (·.idOffset) =
      ((Host.sessionCaps b (Host.caps a)).lookup c).map (·.idOffset)
  forth : Understands (Host.sessionCaps a (Host.caps b))
    (Host.sessionCaps b (Host.caps a))
  back : Understands (Host.sessionCaps b (Host.caps a))
    (Host.sessionCaps a (Host.caps b))

/-- The newest version of its name that a host has. -/
def Newest (capabilities : OrderedMap CapDesc UInt32) (c : CapDesc) : Prop :=
  c ∈ Host.caps capabilities ∧
    ∀ d ∈ Host.caps capabilities, d.name = c.name → d.version ≤ c.version

namespace Host

variable {a b : OrderedMap CapDesc UInt32} {c : CapDesc} {n : UInt32}
  {l : List (CapDesc × UInt32)} {o : UInt32}

/-- The capabilities that are registered, with their numbers of messages. -/
def registeredCaps (a : OrderedMap CapDesc UInt32) (hello : List CapDesc) :
    List (CapDesc × UInt32) :=
  hello.filterMap fun c => (a.lookup c).map fun n => (c, n)

/-- Capabilities at the offsets that their numbers of messages give. -/
def atOffsets : List (CapDesc × UInt32) → UInt32 →
    List (CapDesc × PeerCapability)
  | [], _ => []
  | (c, n) :: l, o => (c, ⟨o, n, true⟩) :: atOffsets l (o + n)

/-- How many messages there are. -/
def messageTotal (l : List (CapDesc × UInt32)) : Nat :=
  (l.map fun i => i.2.toNat).sum

theorem insertEntry_last {e : List (CapDesc × PeerCapability)}
    {p : PeerCapability} (h : ∀ i ∈ e, i.1 < c) :
    OrderedMap.insertEntry c p e = e ++ [(c, p)] := by
  induction e with
  | nil => rfl
  | cons i e ih =>
      obtain ⟨d, q⟩ := i
      have hlt : d < c := h (d, q) List.mem_cons_self
      rw [OrderedMap.insertEntry, if_neg (not_lt.mpr hlt.le), if_neg hlt.ne',
        ih fun i hi => h i (List.mem_cons_of_mem _ hi)]
      rfl

/-- What is registered in order stays in order. -/
theorem foldl_registerCap (hello : List CapDesc)
    (hsorted : hello.Pairwise (· < ·))
    (m : OrderedMap CapDesc PeerCapability) (o : UInt32)
    (hbelow : ∀ i ∈ m.entries, ∀ c ∈ hello, i.1 < c) :
    (hello.foldl (registerCap a) (m, o)).1.entries =
      m.entries ++ atOffsets (registeredCaps a hello) o := by
  induction hello generalizing m o with
  | nil => simp [registeredCaps, atOffsets]
  | cons c hello ih =>
      obtain ⟨hhead, htail⟩ := List.pairwise_cons.mp hsorted
      rw [List.foldl_cons, registerCap, registeredCaps, List.filterMap_cons]
      cases hc : a.lookup c with
      | none =>
          exact ih htail m o fun i hi d hd => hbelow i hi d (List.mem_cons_of_mem c hd)
      | some n =>
          have hentries : (m.insert c ⟨o, n, true⟩).entries =
              m.entries ++ [(c, ⟨o, n, true⟩)] :=
            insertEntry_last fun i hi => hbelow i hi c List.mem_cons_self
          dsimp only [Option.map_some]
          rw [ih htail, hentries, List.append_assoc]
          · rfl
          · intro i hi d hd
            rw [hentries] at hi
            rcases List.mem_append.mp hi with hi | hi
            · exact hbelow i hi d (List.mem_cons_of_mem c hd)
            · rw [List.mem_singleton.mp hi]
              exact hhead d hd

theorem pairwise_caps (b : OrderedMap CapDesc UInt32) :
    (caps b).Pairwise (· < ·) :=
  List.pairwise_map.mpr b.ordered

theorem newestCaps_sublist (l : List CapDesc) : (newestCaps l).Sublist l := by
  rw [newestCaps]
  split
  · exact List.filter_sublist
  · exact List.Sublist.refl l

theorem pairwise_newestCaps (b : OrderedMap CapDesc UInt32) :
    (newestCaps (caps b)).Pairwise (· < ·) :=
  (pairwise_caps b).sublist (newestCaps_sublist _)

/-- The entries of a session. -/
theorem entries_sessionCaps (a b : OrderedMap CapDesc UInt32) :
    (sessionCaps a (caps b)).entries =
      atOffsets (registeredCaps a (newestCaps (caps b))) userPacket := by
  rw [sessionCaps, foldl_registerCap _ (pairwise_newestCaps b) {} userPacket]
  · rfl
  · intro i hi
    cases hi

theorem mem_newestCaps : c ∈ newestCaps (caps b) ↔ Newest b c := by
  rw [newestCaps, Newest]
  split
  · rw [List.mem_filter]
    refine and_congr_right fun _ => ?_
    simp only [Bool.not_eq_true', List.any_eq_false, Bool.and_eq_true, beq_iff_eq,
      decide_eq_true_eq, not_and, not_lt]
    exact ⟨fun h d hd hname => h d hd hname.symm, fun h d hd hname =>
      h d hd hname.symm⟩
  · next hlength =>
      refine ⟨fun hc => ⟨hc, fun d hd _ => ?_⟩, And.left⟩
      have hone : (caps b).length ≤ 1 := not_lt.mp hlength
      have hsame : d = c := by
        cases hcaps : caps b with
        | nil =>
            rw [hcaps] at hc
            cases hc
        | cons e rest =>
            rw [hcaps] at hc hd hone
            have hrest : rest = [] := by
              rw [List.length_cons] at hone
              exact List.length_eq_zero_iff.mp (by omega)
            subst hrest
            rw [List.mem_singleton.mp hc, List.mem_singleton.mp hd]
      rw [hsame]

theorem mem_registeredCaps :
    (c, n) ∈ registeredCaps a (newestCaps (caps b)) ↔
      Newest b c ∧ a.lookup c = some n := by
  rw [registeredCaps, List.mem_filterMap, ← mem_newestCaps]
  constructor
  · rintro ⟨d, hd, hmap⟩
    obtain ⟨m, hm, heq⟩ := Option.map_eq_some_iff.mp hmap
    cases heq
    exact ⟨hd, hm⟩
  · rintro ⟨hc, hn⟩
    exact ⟨c, hc, by rw [hn]; rfl⟩

theorem pairwise_registeredCaps (a b : OrderedMap CapDesc UInt32) :
    (registeredCaps a (newestCaps (caps b))).Pairwise fun i j => i.1 < j.1 := by
  refine (pairwise_newestCaps b).filterMap _ ?_
  intro c d hlt i hi j hj
  obtain ⟨m, -, rfl⟩ := Option.map_eq_some_iff.mp hi
  obtain ⟨n, -, rfl⟩ := Option.map_eq_some_iff.mp hj
  exact hlt

theorem mem_caps : c ∈ caps a ↔ ∃ n, a.lookup c = some n := by
  rw [caps, List.mem_map]
  constructor
  · rintro ⟨i, hi, rfl⟩
    exact ⟨i.2, OrderedMap.lookup_eq_some_iff.mpr hi⟩
  · rintro ⟨n, hn⟩
    exact ⟨(c, n), OrderedMap.lookup_eq_some_iff.mp hn, rfl⟩

/-- The newest versions of one host that the other one has are the newest of
the other one. -/
def Settles (a b : OrderedMap CapDesc UInt32) : Prop :=
  ∀ c, Newest a c → c ∈ caps b → Newest b c

/-- If both newest versions settle, both sides register the same. -/
theorem registeredCaps_comm
    (hcounts : ∀ c m n, a.lookup c = some m → b.lookup c = some n → m = n)
    (hab : Settles a b) (hba : Settles b a) :
    registeredCaps a (newestCaps (caps b)) =
      registeredCaps b (newestCaps (caps a)) := by
  have hsub : ∀ {a b : OrderedMap CapDesc UInt32} {c : CapDesc} {n : UInt32},
      (∀ c m n, a.lookup c = some m → b.lookup c = some n → m = n) →
      Settles b a → (c, n) ∈ registeredCaps a (newestCaps (caps b)) →
      (c, n) ∈ registeredCaps b (newestCaps (caps a)) := by
    intro a b c n hcounts hba hmem
    obtain ⟨hnew, hn⟩ := mem_registeredCaps.mp hmem
    obtain ⟨m, hm⟩ := mem_caps.mp hnew.1
    refine mem_registeredCaps.mpr ⟨hba c hnew (mem_caps.mpr ⟨n, hn⟩), ?_⟩
    rw [hm, hcounts c n m hn hm]
  have hmaps : (⟨_, pairwise_registeredCaps a b⟩ : OrderedMap CapDesc UInt32) =
      ⟨_, pairwise_registeredCaps b a⟩ := by
    refine OrderedMap.ext_lookup fun c => Option.ext fun n => ?_
    rw [OrderedMap.lookup_eq_some_iff, OrderedMap.lookup_eq_some_iff]
    exact ⟨hsub hcounts hba,
      hsub (fun c m n hm hn => (hcounts c n m hn hm).symm) hab⟩
  exact congrArg OrderedMap.entries hmaps

theorem map_fst_atOffsets (l : List (CapDesc × UInt32)) (o : UInt32) :
    (atOffsets l o).map (·.1) = l.map (·.1) := by
  induction l generalizing o with
  | nil => rfl
  | cons i l ih =>
      obtain ⟨c, n⟩ := i
      rw [atOffsets, List.map_cons, List.map_cons, ih]

/-- What a session has a place for. -/
theorem lookup_sessionCaps_isSome :
    ((sessionCaps a (caps b)).lookup c).isSome ↔ Newest b c ∧ c ∈ caps a := by
  rw [Option.isSome_iff_exists, mem_caps]
  have hkeys : (∃ p, (c, p) ∈ (sessionCaps a (caps b)).entries) ↔
      ∃ n, (c, n) ∈ registeredCaps a (newestCaps (caps b)) := by
    have hfst := map_fst_atOffsets
      (registeredCaps a (newestCaps (caps b))) userPacket
    have hmem : c ∈ (atOffsets (registeredCaps a (newestCaps (caps b)))
        userPacket).map (·.1) ↔
        c ∈ (registeredCaps a (newestCaps (caps b))).map (·.1) := by rw [hfst]
    rw [entries_sessionCaps]
    simpa using hmem
  simp only [OrderedMap.lookup_eq_some_iff, hkeys, mem_registeredCaps]
  exact exists_and_left

theorem messageTotal_cons (i : CapDesc × UInt32) (l : List (CapDesc × UInt32)) :
    messageTotal (i :: l) = i.2.toNat + messageTotal l := by
  simp [messageTotal]

/-- Where the ids fit into a byte the offsets do not wrap. -/
theorem atOffsets_bounds {p : PeerCapability} (hp : (c, p) ∈ atOffsets l o)
    (hfits : o.toNat + messageTotal l ≤ 128) :
    o.toNat ≤ p.idOffset.toNat ∧
      p.idOffset.toNat + p.messageCount.toNat ≤ o.toNat + messageTotal l := by
  induction l generalizing o with
  | nil => cases hp
  | cons i l ih =>
      obtain ⟨d, m⟩ := i
      rw [messageTotal_cons] at hfits ⊢
      dsimp only at hfits ⊢
      have hnext : (o + m).toNat = o.toNat + m.toNat := by
        rw [UInt32.toNat_add]
        omega
      rcases List.mem_cons.mp hp with heq | hp
      · cases heq
        dsimp only
        omega
      · have hrest := ih hp (by omega)
        omega

/-- The ids of two capabilities do not overlap. -/
theorem atOffsets_unique {p q : PeerCapability} {d : CapDesc} {t : Nat}
    (hp : (c, p) ∈ atOffsets l o) (hq : (d, q) ∈ atOffsets l o)
    (hfits : o.toNat + messageTotal l ≤ 128)
    (htp : p.idOffset.toNat ≤ t ∧ t < p.idOffset.toNat + p.messageCount.toNat)
    (htq : q.idOffset.toNat ≤ t ∧ t < q.idOffset.toNat + q.messageCount.toNat) :
    (c, p) = (d, q) := by
  induction l generalizing o with
  | nil => cases hp
  | cons i l ih =>
      obtain ⟨e, m⟩ := i
      rw [messageTotal_cons] at hfits
      dsimp only at hfits
      have hnext : (o + m).toNat = o.toNat + m.toNat := by
        rw [UInt32.toNat_add]
        omega
      have hlater : ∀ {c : CapDesc} {p : PeerCapability},
          (c, p) ∈ atOffsets l (o + m) → o.toNat + m.toNat ≤ p.idOffset.toNat :=
        fun hp => hnext ▸ (atOffsets_bounds hp (by omega)).1
      rcases List.mem_cons.mp hp with heq | hrest
      · rcases List.mem_cons.mp hq with heq' | hrest'
        · rw [heq, heq']
        · cases heq
          have hle := hlater hrest'
          dsimp only at htp
          omega
      · rcases List.mem_cons.mp hq with heq' | hrest'
        · cases heq'
          have hle := hlater hrest
          dsimp only at htq
          omega
        · exact ih hrest hrest' (by omega)

end Host

namespace Session

variable {l : List (CapDesc × UInt32)} {o : UInt32} {c : CapDesc}
  {p : PeerCapability}

theorem hasId_iff {t : Nat} (hoffset : p.idOffset.toNat ≤ 128) (ht : t < 128) :
    hasId t p = true ↔
      p.idOffset.toNat ≤ t ∧ t < p.idOffset.toNat + p.messageCount.toNat := by
  rw [hasId, idOf, toInt_of_lt (by omega), Bool.and_eq_true, decide_eq_true_eq,
    decide_eq_true_eq, Int.ofNat_le]
  refine and_congr_right fun hle => ?_
  have hsub : (t : Int) - p.idOffset.toNat = (t - p.idOffset.toNat : Nat) := by
    omega
  rw [hsub, toUnsigned_of_lt (by omega)]
  omega

/-- The capability of an id is the one that has it among its own. -/
theorem find?_hasId {id : Nat} (hp : (c, p) ∈ Host.atOffsets l o)
    (hfits : o.toNat + Host.messageTotal l ≤ 128)
    (hid : id < p.messageCount.toNat) :
    (Host.atOffsets l o).find? (fun i => hasId (p.idOffset.toNat + id) i.2) =
      some (c, p) := by
  have hbounds := Host.atOffsets_bounds hp hfits
  have hlt : p.idOffset.toNat + id < 128 := by omega
  cases hfind : (Host.atOffsets l o).find?
      fun i => hasId (p.idOffset.toNat + id) i.2 with
  | none =>
      have hown : hasId (p.idOffset.toNat + id) p = true := by
        rw [hasId_iff (by omega) hlt]
        omega
      exact absurd hown (List.find?_eq_none.mp hfind (c, p) hp)
  | some i =>
      obtain ⟨d, q⟩ := i
      have hq := List.mem_of_find?_eq_some hfind
      have hbounds' := Host.atOffsets_bounds hq hfits
      have hhas := List.find?_some hfind
      dsimp only at hhas
      rw [hasId_iff (by omega) hlt] at hhas
      exact congrArg some (Host.atOffsets_unique hq hp hfits hhas (by omega))

theorem enabled_of_mem (hp : (c, p) ∈ Host.atOffsets l o) : p.enabled = true := by
  induction l generalizing o with
  | nil => cases hp
  | cons i l ih =>
      obtain ⟨d, m⟩ := i
      rcases List.mem_cons.mp hp with heq | hp
      · cases heq
        rfl
      · exact ih hp

/-- A packet of the fourth version goes to the capability of its type. -/
theorem readPacket_eq {m : OrderedMap CapDesc PeerCapability} {id : Nat}
    (hm : m.entries = Host.atOffsets l userPacket)
    (hp : (c, p) ∈ m.entries)
    (hfits : userPacket.toNat + Host.messageTotal l ≤ 128)
    (hid : id < p.messageCount.toNat) :
    readPacket m 4 0 (p.idOffset.toNat + id) = .capability c id := by
  rw [hm] at hp
  have hbounds := Host.atOffsets_bounds hp hfits
  have hidOf : idOf (p.idOffset.toNat + id) p = id := by
    rw [idOf]
    have hsub : ((p.idOffset.toNat + id : Nat) : Int) - p.idOffset.toNat = id := by
      omega
    rw [hsub, toUnsigned_of_lt (by omega)]
  rw [readPacket, if_neg (by omega), hm, if_neg (by omega)]
  dsimp only
  rw [find?_hasId hp hfits hid, Option.map_some]
  dsimp only
  rw [if_pos (enabled_of_mem hp), hidOf]

/-- What comes after a type is passed on with it, if that fits into a byte. -/
theorem deliver_eq (m : OrderedMap CapDesc PeerCapability) {x : Byte}
    {rest : Bytes} (hzero : x ≠ 0) (hitem : IsItem rest) (more : Bytes) :
    deliver m (x :: rest) more =
      .ok (if x ≤ 0x7f then some (readPacket m 4 0 x.toNat) else none) := by
  rw [deliver]
  split
  · next hle =>
      rw [onFrame_item hle hitem, toInt_type hle hzero]
      rfl
  · next hlarge =>
      rw [onFrame_of_check (checkPacket_short (.inl (UInt8.not_le.mp hlarge)))]
      rfl

end Session

namespace PeerCapability

variable (p : PeerCapability) {id : UInt32} {args : List RLPTree}

/-- A message is the byte for its id and the list of its arguments. -/
theorem message_eq (hfits : (RLPTree.list args).Fits) :
    p.message id args = .ok (UInt8.ofNat (id + p.idOffset).toNat ::
      RLPTree.encode (.list args)) := by
  obtain ⟨x, hx⟩ : ∃ x : Byte, x = UInt8.ofNat (id + p.idOffset).toNat :=
    ⟨_, rfl⟩
  have hfirst : RLPStream.appendRaw {} [x] 1 = .ok ⟨[x], []⟩ := rfl
  have hlength : (RLPTree.encode (.list args)).length < 2 ^ 64 :=
    hfits.trans (by decide)
  have hrest := RLPTree.write_eq_appendRaw (.list args) ⟨[x], []⟩ hlength
  rw [RLPTree.write] at hrest
  rw [message, prep, ← hx, hfirst, ok_bind, ← bind_assoc, hrest]
  rfl

end PeerCapability

section Agreement

variable {a b : OrderedMap CapDesc UInt32}
  {m m' : OrderedMap CapDesc PeerCapability} {l : List (CapDesc × UInt32)}

open Host (atOffsets messageTotal)

/-- Ids that fit into a byte below `0x80` are understood. -/
theorem understands_of_total (hm : m.entries = atOffsets l userPacket)
    (hm' : m'.entries = atOffsets l userPacket) (htotal : messageTotal l ≤ 112) :
    Understands m m' := by
  intro c p hp id hid args hfits more
  have hmem : (c, p) ∈ atOffsets l userPacket := by
    rw [← hm]
    exact OrderedMap.lookup_eq_some_iff.mp hp
  have huser : userPacket.toNat = 16 := rfl
  have hbounds := Host.atOffsets_bounds hmem (by omega)
  have hlt : id.toNat < p.messageCount.toNat := UInt32.lt_iff_toNat_lt.mp hid
  have hsum : (id + p.idOffset).toNat = p.idOffset.toNat + id.toNat := by
    rw [UInt32.toNat_add]
    omega
  have hbyte : (UInt8.ofNat (id + p.idOffset).toNat).toNat =
      p.idOffset.toNat + id.toNat := by
    rw [hsum, UInt8.toNat_ofNat']
    omega
  have hle : UInt8.ofNat (id + p.idOffset).toNat ≤ 0x7f := by
    have hmax : (0x7f : Byte).toNat = 127 := rfl
    rw [UInt8.le_iff_toNat_le, hbyte, hmax]
    omega
  have hzero : UInt8.ofNat (id + p.idOffset).toNat ≠ 0 := by
    intro h
    rw [h, UInt8.toNat_zero] at hbyte
    omega
  rw [p.message_eq hfits, ok_bind,
    Session.deliver_eq m' hzero (Session.isItem_encode hfits), if_pos hle,
    hbyte, Session.readPacket_eq hm' (by rw [hm']; exact hmem) (by omega) hlt]

/-- Where the ids do not fit, one of them is `0x80`. -/
theorem exists_large_id {o : UInt32} (ho : o.toNat ≤ 128)
    (htotal : 128 < o.toNat + messageTotal l) :
    ∃ c p, (c, p) ∈ atOffsets l o ∧ ∃ id : UInt32, id < p.messageCount ∧
      id.toNat + p.idOffset.toNat = 128 := by
  induction l generalizing o with
  | nil => exact absurd htotal (by simpa [messageTotal] using ho)
  | cons i l ih =>
      obtain ⟨c, n⟩ := i
      rw [Host.messageTotal_cons] at htotal
      dsimp only at htotal
      by_cases hover : 128 < o.toNat + n.toNat
      · refine ⟨c, ⟨o, n, true⟩, List.mem_cons_self,
          UInt32.ofNat (128 - o.toNat), ?_, ?_⟩
        · rw [UInt32.lt_iff_toNat_lt, UInt32.toNat_ofNat']
          dsimp only
          omega
        · rw [UInt32.toNat_ofNat']
          dsimp only
          omega
      · have hnext : (o + n).toNat = o.toNat + n.toNat := by
          rw [UInt32.toNat_add]
          omega
        obtain ⟨d, p, hp, hid⟩ := @ih (o + n) (by omega) (by omega)
        exact ⟨d, p, List.mem_cons_of_mem _ hp, hid⟩

/-- The message with that id is taken for no packet. -/
theorem total_of_understands (hm : m.entries = atOffsets l userPacket)
    (h : Understands m m') : messageTotal l ≤ 112 := by
  by_contra hlarge
  have huser : userPacket.toNat = 16 := rfl
  obtain ⟨c, p, hp, id, hid, hsum⟩ := @exists_large_id l userPacket (by omega)
    (by omega)
  have hlookup : m.lookup c = some p := by
    rw [OrderedMap.lookup_eq_some_iff, hm]
    exact hp
  have hfits : (RLPTree.list []).Fits := by decide
  have hbyte : UInt8.ofNat (id + p.idOffset).toNat = 0x80 := by
    rw [UInt32.toNat_add, hsum]
    rfl
  have hdispatched := h c p hlookup id hid [] hfits []
  rw [p.message_eq hfits, ok_bind, hbyte, Session.deliver_eq m' (by decide)
    (Session.isItem_encode hfits), if_neg (by decide)] at hdispatched
  cases hdispatched

/-- What one side has as its newest is settled if the offsets are the same. -/
theorem settles_of_offsets (h : ∀ c,
    ((Host.sessionCaps a (Host.caps b)).lookup c).map (·.idOffset) =
      ((Host.sessionCaps b (Host.caps a)).lookup c).map (·.idOffset)) :
    Host.Settles a b := by
  intro c hnew hmem
  have hsome : ((Host.sessionCaps b (Host.caps a)).lookup c).isSome :=
    Host.lookup_sessionCaps_isSome.mpr ⟨hnew, hmem⟩
  have hboth := congrArg Option.isSome (h c)
  rw [Option.isSome_map, Option.isSome_map, hsome] at hboth
  exact (Host.lookup_sessionCaps_isSome.mp hboth).1

/-- Both ends of a connection agree on their capabilities exactly if the newest
version of a name that one of them has is also the newest of the other one, or
not known to it, and all messages together have ids below `0x80`. -/
theorem agree_iff (a b : OrderedMap CapDesc UInt32)
    (hcounts : ∀ c m n, a.lookup c = some m → b.lookup c = some n → m = n) :
    Agree a b ↔ Host.Settles a b ∧ Host.Settles b a ∧
      messageTotal (Host.registeredCaps a (Host.newestCaps (Host.caps b))) ≤
        112 := by
  constructor
  · intro h
    exact ⟨settles_of_offsets h.offsets,
      settles_of_offsets fun c => (h.offsets c).symm,
      total_of_understands (Host.entries_sessionCaps a b) h.forth⟩
  · rintro ⟨hab, hba, htotal⟩
    have ha := Host.entries_sessionCaps a b
    have hb := Host.entries_sessionCaps b a
    rw [← Host.registeredCaps_comm hcounts hab hba] at hb
    have hsame : Host.sessionCaps a (Host.caps b) =
        Host.sessionCaps b (Host.caps a) := by
      refine OrderedMap.ext_lookup fun c => Option.ext fun p => ?_
      rw [OrderedMap.lookup_eq_some_iff, OrderedMap.lookup_eq_some_iff, ha, hb]
    exact ⟨fun c => by rw [hsame], understands_of_total ha hb htotal,
      understands_of_total hb ha htotal⟩

/-- Two hosts with two capabilities each. -/
theorem agree_same :
    let a : OrderedMap CapDesc UInt32 :=
      ⟨[(⟨[0x65, 0x74, 0x68], 60⟩, 8), (⟨[0x73, 0x68, 0x68], 2⟩, 3)], by decide⟩
    Agree a a := by
  intro a
  have hcounts : ∀ (c : CapDesc) (m n : UInt32), a.lookup c = some m →
      a.lookup c = some n → m = n := by
    intro c m n hm hn
    rw [hm] at hn
    exact Option.some.inj hn
  exact (agree_iff a a hcounts).mpr
    ⟨fun _ h _ => h, fun _ h _ => h, by decide +kernel⟩

/-- One host has a newer version that the other one does not have, so only the
first one registers the version that they share. -/
theorem not_agree_newer :
    ¬ ∀ a b : OrderedMap CapDesc UInt32,
      (∀ c m n, a.lookup c = some m → b.lookup c = some n → m = n) →
      Agree a b := by
  intro hall
  let a : OrderedMap CapDesc UInt32 :=
    ⟨[(⟨[0x65, 0x74, 0x68], 60⟩, 8), (⟨[0x65, 0x74, 0x68], 61⟩, 8)], by decide⟩
  let b : OrderedMap CapDesc UInt32 := ⟨[(⟨[0x65, 0x74, 0x68], 60⟩, 8)], by decide⟩
  have hcounts : ∀ c m n, a.lookup c = some m → b.lookup c = some n → m = n := by
    intro c m n hm hn
    have hm' : m = 8 := by
      have hmem := OrderedMap.lookup_eq_some_iff.mp hm
      simp only [a, List.mem_cons, Prod.mk.injEq, List.not_mem_nil, or_false]
        at hmem
      exact hmem.elim (·.2) (·.2)
    have hn' : n = 8 := by
      have hmem := OrderedMap.lookup_eq_some_iff.mp hn
      simp only [b, List.mem_cons, Prod.mk.injEq, List.not_mem_nil, or_false]
        at hmem
      exact hmem.2
    rw [hm', hn']
  have hoffsets := (hall a b hcounts).offsets ⟨[0x65, 0x74, 0x68], 60⟩
  exact absurd hoffsets (by decide +kernel)

end Agreement

end Web3Core
