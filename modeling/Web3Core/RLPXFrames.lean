/-
Single frames.  What a coder writes for a frame depends on one direction only,
its cipher and its hash, and on the key of the tags; a coder whose other
direction is in that state accepts the frame, reads what was written and
arrives in the same state.
-/
import Web3Core.RLPInt
import Web3Core.RLPXFrameCoder

namespace Web3Core

variable {crypto : Crypto}

namespace CTRMode

variable {c : CTRMode} {a b : Bytes}

theorem length_processData : (c.processData crypto b).1.length = b.length := by
  simp [processData]

/-- A byte string is processed in parts as it is in one go. -/
theorem processData_append :
    c.processData crypto (a ++ b) =
      ((c.processData crypto a).1 ++
          ((c.processData crypto a).2.processData crypto b).1,
        ((c.processData crypto a).2.processData crypto b).2) := by
  simp only [processData, List.mapIdx_append, List.length_append,
    Nat.add_assoc, Nat.add_comm a.length]

/-- The key stream cancels itself. -/
theorem processData_processData :
    c.processData crypto (c.processData crypto b).1 =
      (b, (c.processData crypto b).2) := by
  have hbytes : (c.processData crypto (c.processData crypto b).1).1 = b := by
    apply List.ext_getElem?
    intro i
    simp only [processData, List.getElem?_mapIdx]
    cases b[i]? with
    | none => rfl
    | some x =>
        simp only [Option.map_some, UInt8.xor_assoc, UInt8.xor_self,
          UInt8.xor_zero]
  rw [Prod.ext_iff]
  exact ⟨hbytes, by simp [processData]⟩

end CTRMode

/-- One direction of a connection: the cipher, and what its hash has
absorbed. -/
structure FrameStream where
  cipher : CTRMode
  mac : Bytes

namespace FrameStream

variable (crypto) (key : Bytes)

/-- The hash after `updateMAC`. -/
def absorb (mac seed : Bytes) : Bytes :=
  let tag := RLPXFrameCoder.truncatedFinal crypto mac
  mac ++ xorBytes (crypto.aesBlock key tag) (if seed ≠ [] then seed else tag)

/-- The direction after a header. -/
def afterHeader (d : FrameStream) (block : Bytes) : FrameStream :=
  let cipher := d.cipher.processData crypto block
  ⟨cipher.2, absorb crypto key d.mac cipher.1⟩

/-- A header of 16 bytes as it is written. -/
def sealHeader (d : FrameStream) (block : Bytes) : Bytes :=
  (d.cipher.processData crypto block).1 ++
    RLPXFrameCoder.truncatedFinal crypto (d.afterHeader crypto key block).mac

/-- The direction after the padded payload of a frame. -/
def afterFrame (d : FrameStream) (padded : Bytes) : FrameStream :=
  let cipher := d.cipher.processData crypto padded
  ⟨cipher.2, absorb crypto key (d.mac ++ cipher.1) []⟩

/-- The padded payload of a frame as it is written. -/
def sealFrame (d : FrameStream) (padded : Bytes) : Bytes :=
  (d.cipher.processData crypto padded).1 ++
    RLPXFrameCoder.truncatedFinal crypto (d.afterFrame crypto key padded).mac

end FrameStream

namespace RLPXFrameCoder

variable {c : RLPXFrameCoder} {key mac seed block padded : Bytes}

@[simp] theorem length_truncatedFinal :
    (truncatedFinal crypto mac).length = 16 := by
  rw [truncatedFinal, List.length_take, FixedHash.size_data]
  rfl

theorem updateMAC_eq (h : seed.length = 0 ∨ seed.length = 16) :
    updateMAC crypto key mac seed =
      .ok (FrameStream.absorb crypto key mac seed) := by
  have hcheck : (decide (seed.length = 0) || decide (seed.length = 16)) = true := by
    simpa using h
  rw [updateMAC, hcheck, check_true, ok_bind, FrameStream.absorb]
  by_cases hne : seed ≠ []
  · simp only [if_pos hne]
  · simp only [if_neg hne]

/-- The direction the coder writes to. -/
def egress (c : RLPXFrameCoder) : FrameStream := ⟨c.frameEnc, c.egressMac⟩

/-- The direction the coder reads from. -/
def ingress (c : RLPXFrameCoder) : FrameStream := ⟨c.frameDec, c.ingressMac⟩

/-- The coder with another state of the direction it writes to. -/
def setEgress (c : RLPXFrameCoder) (d : FrameStream) : RLPXFrameCoder :=
  { c with frameEnc := d.cipher, egressMac := d.mac }

/-- The coder with another state of the direction it reads from. -/
def setIngress (c : RLPXFrameCoder) (d : FrameStream) : RLPXFrameCoder :=
  { c with frameDec := d.cipher, ingressMac := d.mac }

@[simp] theorem egress_setEgress (d : FrameStream) :
    (c.setEgress d).egress = d := rfl

@[simp] theorem ingress_setEgress (d : FrameStream) :
    (c.setEgress d).ingress = c.ingress := rfl

@[simp] theorem macEncKey_setEgress (d : FrameStream) :
    (c.setEgress d).macEncKey = c.macEncKey := rfl

@[simp] theorem egress_setIngress (d : FrameStream) :
    (c.setIngress d).egress = c.egress := rfl

@[simp] theorem ingress_setIngress (d : FrameStream) :
    (c.setIngress d).ingress = d := rfl

@[simp] theorem macEncKey_setIngress (d : FrameStream) :
    (c.setIngress d).macEncKey = c.macEncKey := rfl

/-- A header as it goes into the cipher. -/
def headerBlock (header : Bytes) : Bytes :=
  (copyTo header (List.replicate 32 0) 0 32).take 16

theorem headerBlock_eq {header : Bytes} (h : header.length ≤ 16) :
    headerBlock header =
      header ++ List.replicate (16 - header.length) 0 := by
  have hmin : min header.length 32 = header.length := by omega
  have htake : header.take 32 = header := List.take_of_length_le (by omega)
  rw [headerBlock, copyTo, hmin, htake, List.take_zero, List.nil_append,
    Nat.zero_add, List.drop_replicate, List.take_append, List.take_replicate,
    List.take_of_length_le h]
  congr 2
  omega

theorem length_headerBlock {header : Bytes} (h : header.length ≤ 16) :
    (headerBlock header).length = 16 := by
  rw [headerBlock_eq h, List.length_append, List.length_replicate]
  omega

/-- A payload with its padding. -/
def pad (payload : Bytes) : Bytes :=
  payload ++ List.replicate (paddingOf payload.length) 0

/-- A frame is its header and its payload, one after the other, in the
direction the coder writes to. -/
theorem writeFrameWith_eq {header : RLPStream} {out payload : Bytes}
    (hout : header.out = .ok out) (hlen : out.length ≤ 16) :
    writeFrameWith crypto c header payload =
      .ok (c.egress.sealHeader crypto c.macEncKey (headerBlock out) ++
          (c.egress.afterHeader crypto c.macEncKey (headerBlock out)).sealFrame
            crypto c.macEncKey (pad payload),
        c.setEgress ((c.egress.afterHeader crypto c.macEncKey
          (headerBlock out)).afterFrame crypto c.macEncKey (pad payload))) := by
  have hblock : (c.frameEnc.processData crypto (headerBlock out)).1.length =
      16 := by
    rw [CTRMode.length_processData, length_headerBlock hlen]
  have htake : (c.frameEnc.processData crypto (headerBlock out)).1.take 16 =
      (c.frameEnc.processData crypto (headerBlock out)).1 :=
    List.take_of_length_le hblock.le
  have hpad := @CTRMode.processData_append crypto
    (c.frameEnc.processData crypto (headerBlock out)).2 payload
    (List.replicate (paddingOf payload.length) 0)
  rw [writeFrameWith, hout, ok_bind]
  simp only [updateEgressMACWithHeader, ← headerBlock.eq_1, htake,
    updateMAC_eq (.inr hblock), pure_eq_ok, ok_bind, updateEgressMACWithFrame,
    updateMAC_eq (.inl List.length_nil)]
  simp only [FrameStream.sealHeader, FrameStream.sealFrame,
    FrameStream.afterHeader, FrameStream.afterFrame, egress, setEgress, pad,
    hpad, egressDigest, List.append_assoc]

/-- The header of a frame is accepted in the state it was written in. -/
theorem authAndDecryptHeader_seal (h : block.length = 16) :
    authAndDecryptHeader crypto c
        (c.ingress.sealHeader crypto c.macEncKey block) =
      .ok (true, block ++ truncatedFinal crypto
          (c.ingress.afterHeader crypto c.macEncKey block).mac,
        c.setIngress (c.ingress.afterHeader crypto c.macEncKey block)) := by
  obtain ⟨b, hb⟩ : ∃ b, b = (c.frameDec.processData crypto block).1 := ⟨_, rfl⟩
  have hlen : b.length = 16 := by
    rw [hb, CTRMode.length_processData, h]
  have hdec := @CTRMode.processData_processData crypto c.frameDec block
  have htag : ∀ tag : Bytes, tag.length = 16 →
      (b ++ tag).length = 32 ∧ (b ++ tag).take 16 = b ∧
        tag.take 16 = tag ∧ (b ++ tag).drop 16 = tag := by
    intro tag htag
    refine ⟨by rw [List.length_append, hlen, htag], ?_, ?_, ?_⟩
    · rw [← hlen, List.take_left]
    · exact List.take_of_length_le htag.le
    · rw [← hlen, List.drop_left]
  rw [← hb] at hdec
  simp only [FrameStream.sealHeader, FrameStream.afterHeader, ingress,
    setIngress, ← hb]
  obtain ⟨hsize, htake, hmid, hdrop⟩ :=
    htag (truncatedFinal crypto (FrameStream.absorb crypto c.macEncKey
      c.ingressMac b)) length_truncatedFinal
  rw [authAndDecryptHeader, hsize, decide_eq_true rfl, check_true, ok_bind,
    updateIngressMACWithHeader, htake, updateMAC_eq (.inr hlen)]
  simp only [pure_eq_ok, ok_bind, hmid, hdrop, ingressDigest, ne_eq,
    not_true_eq_false, ↓reduceIte, hdec]

/-- The payload of a frame is accepted in the state it was written in. -/
theorem authAndDecryptFrame_seal :
    authAndDecryptFrame crypto c
        (c.ingress.sealFrame crypto c.macEncKey padded) =
      .ok (true, padded ++ truncatedFinal crypto
          (c.ingress.afterFrame crypto c.macEncKey padded).mac,
        c.setIngress (c.ingress.afterFrame crypto c.macEncKey padded)) := by
  obtain ⟨b, hb⟩ : ∃ b, b = (c.frameDec.processData crypto padded).1 :=
    ⟨_, rfl⟩
  have hdec := @CTRMode.processData_processData crypto c.frameDec padded
  rw [← hb] at hdec
  simp only [FrameStream.sealFrame, FrameStream.afterFrame, ingress,
    setIngress, ← hb]
  obtain ⟨tag, htag⟩ : ∃ tag, tag = truncatedFinal crypto
    (FrameStream.absorb crypto c.macEncKey (c.ingressMac ++ b) []) := ⟨_, rfl⟩
  have hlen : tag.length = 16 := htag ▸ length_truncatedFinal
  have hsize : (b ++ tag).length - 16 = b.length := by
    rw [List.length_append, hlen]
    omega
  have hroom : ¬ (b ++ tag).length < 16 := by
    rw [List.length_append, hlen]
    omega
  rw [← htag, authAndDecryptFrame, if_neg hroom]
  simp only [hsize, List.take_left, List.drop_left, updateIngressMACWithFrame,
    updateMAC_eq (.inl List.length_nil), pure_eq_ok, ok_bind, ingressDigest,
    ← htag, ne_eq, not_true_eq_false, ↓reduceIte, hdec]

end RLPXFrameCoder

/-- A frame that a coder is given to write. -/
inductive RLPXFrame where
  | single (protocolType : UInt16) (payload : Bytes)
  | next (protocolType seqId : UInt16) (payload : Bytes)
  | first (protocolType seqId : UInt16) (totalSize : UInt32) (payload : Bytes)
  | legacy (packet : Bytes)
deriving DecidableEq

namespace RLPXFrame

/-- The call of the coder for the frame. -/
def write (crypto : Crypto) (c : RLPXFrameCoder) :
    RLPXFrame → Except Exception (Bytes × RLPXFrameCoder)
  | .single protocolType payload => c.writeFrame crypto protocolType payload
  | .next protocolType seqId payload =>
      c.writeNextFrame crypto protocolType seqId payload
  | .first protocolType seqId totalSize payload =>
      c.writeFirstFrame crypto protocolType seqId totalSize payload
  | .legacy packet => c.writeSingleFramePacket crypto packet

def payload : RLPXFrame → Bytes
  | .single _ payload => payload
  | .next _ _ payload => payload
  | .first _ _ _ payload => payload
  | .legacy packet => packet

/-- The integers of the header. -/
def numbers : RLPXFrame → List Nat
  | .single protocolType _ => [protocolType.toNat]
  | .next protocolType seqId _ => [protocolType.toNat, seqId.toNat]
  | .first protocolType seqId totalSize _ =>
      [protocolType.toNat, seqId.toNat, totalSize.toNat]
  | .legacy _ => [0, 0]

/-- What was written, as the reader of the header tells it. -/
def info (f : RLPXFrame) : RLPXFrameInfo where
  length := f.payload.length
  padding := RLPXFrameCoder.paddingOf f.payload.length
  protocolId := f.numbers.headD 0
  multiFrame := decide (f.numbers.length > 1)
  sequenceId := (f.numbers[1]?).getD 0
  totalLength := (f.numbers[2]?).getD 0

/-- The tree of the header. -/
def tree (f : RLPXFrame) : RLPTree := .list (f.numbers.map .int)

/-- The header, in front of its padding. -/
def header (f : RLPXFrame) : Bytes :=
  RLPXFrameCoder.lengthBytes (toUnsigned f.payload.length) ++ f.tree.encode

variable {f : RLPXFrame}

theorem length_encode_int {n : Nat} (hn : n < 2 ^ 32) :
    (RLPTree.encode (.int n)).length ≤ 5 ∧
      (n < 2 ^ 16 → (RLPTree.encode (.int n)).length ≤ 3) := by
  have hbr : bytesRequired n ≤ 4 := (bytesRequired_le_iff n 4).2 (by omega)
  by_cases hsmall : n < 0x80
  · by_cases hzero : n = 0
    · subst hzero
      decide
    · rw [RLPTree.encode_int_small hzero hsmall]
      simp
  · rw [RLPTree.encode_int_large (Nat.not_lt.1 hsmall) (by omega),
      List.length_cons, length_bigEndian]
    refine ⟨by omega, fun hlt => ?_⟩
    have := (bytesRequired_le_iff n 2).2 (by omega)
    omega

/-- The integers of a header take at most eleven bytes. -/
theorem length_items (f : RLPXFrame) :
    (RLPTree.encodeItems (f.numbers.map .int)).length ≤ 11 := by
  have h16 : ∀ n : UInt16, (RLPTree.encode (.int n.toNat)).length ≤ 3 := by
    intro n
    have hn := n.toNat_lt
    exact (length_encode_int (by omega)).2 hn
  have h32 : ∀ n : UInt32, (RLPTree.encode (.int n.toNat)).length ≤ 5 :=
    fun n => (length_encode_int n.toNat_lt).1
  cases f with
  | single protocolType payload =>
      have := h16 protocolType
      simp only [numbers, List.map_cons, List.map_nil, RLPTree.encodeItems,
        List.length_append, List.length_nil]
      omega
  | next protocolType seqId payload =>
      have := h16 protocolType
      have := h16 seqId
      simp only [numbers, List.map_cons, List.map_nil, RLPTree.encodeItems,
        List.length_append, List.length_nil]
      omega
  | first protocolType seqId totalSize payload =>
      have := h16 protocolType
      have := h16 seqId
      have := h32 totalSize
      simp only [numbers, List.map_cons, List.map_nil, RLPTree.encodeItems,
        List.length_append, List.length_nil]
      omega
  | legacy packet =>
      show (RLPTree.encodeItems ([0, 0].map .int)).length ≤ 11
      decide

theorem length_tree (f : RLPXFrame) : f.tree.encode.length ≤ 12 := by
  have hitems := f.length_items
  rw [tree, RLPTree.encode, RLPTree.encodeList, RLPTree.header,
    if_pos (by omega), List.length_append, List.length_singleton]
  omega

theorem length_header (f : RLPXFrame) : f.header.length ≤ 16 := by
  have htree := f.length_tree
  rw [header, List.length_append]
  simp only [RLPXFrameCoder.lengthBytes, List.length_cons, List.length_nil]
  omega

theorem fits_tree (f : RLPXFrame) : f.tree.Fits := by
  have htree := f.length_tree
  rw [RLPTree.Fits]
  omega

theorem lengthHeader_eq (payload : Bytes) :
    RLPXFrameCoder.lengthHeader payload =
      .ok ⟨RLPXFrameCoder.lengthBytes (toUnsigned payload.length), []⟩ := rfl

theorem bytesRequired_lt {n : Nat} (hn : n < 2 ^ 32) :
    bytesRequired n < 56 := by
  have := (bytesRequired_le_iff n 4).2 (by omega)
  omega

/-- The stream a header is written to. -/
theorem write_tree (f : RLPXFrame) (b : Bytes) :
    RLPTree.write f.tree ⟨b, []⟩ = .ok ⟨b ++ f.tree.encode, []⟩ := by
  have htree := f.length_tree
  rw [RLPTree.write_eq_appendRaw _ _ (by omega)]
  rfl

/-- Every form of `writeFrame` writes the frame's header. -/
theorem write_eq (c : RLPXFrameCoder) :
    f.write crypto c =
      RLPXFrameCoder.writeFrameWith crypto c ⟨f.header, []⟩ f.payload := by
  have h16 : ∀ (s : RLPStream) (n : UInt16),
      s.appendInt n.toNat = RLPTree.write (.int n.toNat) s := by
    intro s n
    have hn := n.toNat_lt
    exact RLPTree.appendInt_eq_write s (bytesRequired_lt (by omega))
  have h32 : ∀ (s : RLPStream) (n : UInt32),
      s.appendInt n.toNat = RLPTree.write (.int n.toNat) s :=
    fun s n => RLPTree.appendInt_eq_write s (bytesRequired_lt n.toNat_lt)
  have hok : ∀ x : Except Exception RLPStream, (x >>= fun s => .ok s) = x := by
    intro x
    cases x <;> rfl
  cases f with
  | single protocolType payload =>
      have htree := write_tree (.single protocolType payload)
        (RLPXFrameCoder.lengthBytes (toUnsigned payload.length))
      simp only [tree, numbers, List.map_cons, List.map_nil, RLPTree.write,
        RLPTree.writeItems, List.length_singleton, hok] at htree
      simp only [write, RLPXFrameCoder.writeFrame, lengthHeader_eq, ok_bind,
        h16, ← bind_assoc]
      rw [htree, ok_bind]
      simp only [header, tree, numbers, RLPXFrame.payload, List.map_cons,
        List.map_nil]
  | next protocolType seqId payload =>
      have htree := write_tree (.next protocolType seqId payload)
        (RLPXFrameCoder.lengthBytes (toUnsigned payload.length))
      simp only [tree, numbers, List.map_cons, List.map_nil, RLPTree.write,
        RLPTree.writeItems, List.length_cons, List.length_nil, Nat.zero_add,
        Nat.reduceAdd, hok, ← bind_assoc] at htree
      simp only [write, RLPXFrameCoder.writeNextFrame, lengthHeader_eq, ok_bind,
        h16, ← bind_assoc]
      rw [htree, ok_bind]
      simp only [header, tree, numbers, RLPXFrame.payload, List.map_cons,
        List.map_nil]
  | first protocolType seqId totalSize payload =>
      have htree := write_tree (.first protocolType seqId totalSize payload)
        (RLPXFrameCoder.lengthBytes (toUnsigned payload.length))
      simp only [tree, numbers, List.map_cons, List.map_nil, RLPTree.write,
        RLPTree.writeItems, List.length_cons, List.length_nil, Nat.zero_add,
        Nat.reduceAdd, hok, ← bind_assoc] at htree
      simp only [write, RLPXFrameCoder.writeFirstFrame, lengthHeader_eq,
        ok_bind, h16, h32, ← bind_assoc]
      rw [htree, ok_bind]
      simp only [header, tree, numbers, RLPXFrame.payload, List.map_cons,
        List.map_nil]
  | legacy packet =>
      have htree : (legacy packet).tree.encode = [0xc2, 0x80, 0x80] := by
        show RLPTree.encode (.list [.int 0, .int 0]) = [0xc2, 0x80, 0x80]
        decide
      have hraw : ∀ b : Bytes,
          RLPStream.appendRaw ⟨b, []⟩ [0xc2, 0x80, 0x80] 1 =
            .ok ⟨b ++ [0xc2, 0x80, 0x80], []⟩ := fun _ => rfl
      simp only [write, RLPXFrameCoder.writeSingleFramePacket, lengthHeader_eq,
        ok_bind, hraw, header, htree, RLPXFrame.payload]

theorem out_header (f : RLPXFrame) :
    RLPStream.out ⟨f.header, []⟩ = .ok f.header := rfl

/-- Of a length, three bytes are read back. -/
theorem lengthBytes_toNat {n : Nat} :
    ((UInt8.ofNat (n / 2 ^ 16)).toNat * 256 +
        (UInt8.ofNat (n / 2 ^ 8)).toNat) * 256 + (UInt8.ofNat n).toNat =
      n % 2 ^ 24 := by
  simp only [UInt8.toNat_ofNat']
  omega

/-- `operator[]` and the conversion to an integer give the numbers of the
header. -/
theorem subscript_number {rest : Bytes} {q : Nat}
    (h : Holds (f.tree.encode ++ rest) q
      (RLPTree.encodeItems (f.numbers.map .int))) {r : RLP}
    (hr : RLP.CacheOk (f.tree.encode ++ rest) q (f.numbers.map .int) r)
    {i n size : Nat} (hn : f.numbers[i]? = some n) (hsize : n < 256 ^ size)
    (hle : size ≤ 4) :
    ∃ item, (r.subscript i).1 = .ok item ∧ item.toInt size .strict = .ok n ∧
      RLP.CacheOk (f.tree.encode ++ rest) q (f.numbers.map .int)
        (r.subscript i).2 := by
  have hfits : ∀ t ∈ f.numbers.map RLPTree.int, t.Fits :=
    fun t ht => RLPTree.Fits.of_mem f.fits_tree ht
  have hmany := RLP.length_le_length_encodeItems (f.numbers.map RLPTree.int)
  have hitems := f.length_items
  obtain ⟨hi, rfl⟩ := List.getElem?_eq_some_iff.1 hn
  have hi' : i < (f.numbers.map RLPTree.int).length := by
    rwa [List.length_map]
  obtain ⟨hcache, hitem⟩ := RLP.subscript_cacheOk h hfits
    (by unfold sizeMax; omega) hr i
  have hrep := RLP.rep_itemView h hfits hi'
  rw [List.getElem_map] at hrep
  have hpow : 256 ^ size ≤ 256 ^ 4 := Nat.pow_le_pow_right (by omega) hle
  exact ⟨_, hitem hi', hrep.toInt hsize (bytesRequired_lt (by omega)) .strict,
    hcache⟩

/-- The header of a frame tells what was written, whatever follows it; of the
length it has three bytes. -/
theorem ofHeader_eq_mod (f : RLPXFrame) (rest : Bytes) :
    RLPXFrameInfo.ofHeader (f.header ++ rest) =
      .ok { f.info with length := f.payload.length % 2 ^ 24 } := by
  obtain ⟨len, hlen⟩ : ∃ len, toUnsigned f.payload.length = len := ⟨_, rfl⟩
  have hmod : len % 2 ^ 24 = f.payload.length % 2 ^ 24 := by
    rw [← hlen, toUnsigned]
    omega
  have hpad : RLPXFrameCoder.paddingOf (f.payload.length % 2 ^ 24) =
      RLPXFrameCoder.paddingOf f.payload.length := by
    rw [RLPXFrameCoder.paddingOf, RLPXFrameCoder.paddingOf]
    omega
  obtain ⟨mem, hmem⟩ : ∃ mem, mem = f.header ++ rest := ⟨_, rfl⟩
  have hbytes : mem = UInt8.ofNat (len / 2 ^ 16) ::
      UInt8.ofNat (len / 2 ^ 8) :: UInt8.ofNat len ::
        (f.tree.encode ++ rest) := by
    rw [hmem, header, hlen]
    rfl
  have hvalid := BytesConstRef.valid_ofBytes mem
  have hget : ∀ {i : Nat} {x : Byte}, mem[i]? = some x →
      (BytesConstRef.ofBytes mem).get i = .ok x := by
    intro i x hx
    exact BytesConstRef.get_eq hvalid (by rwa [BytesConstRef.toBytes_ofBytes])
  have hcrop : ((BytesConstRef.ofBytes mem).croppedFrom 3).toBytes =
      f.tree.encode ++ rest := by
    have hthree : 3 ≤ (BytesConstRef.ofBytes mem).count := by
      show 3 ≤ mem.length
      rw [hbytes]
      simp
    rw [BytesConstRef.croppedFrom_of_le rfl hthree]
    simp [BytesConstRef.toBytes, BytesConstRef.window, BytesConstRef.ofBytes,
      hbytes]
  obtain ⟨r, hr⟩ : ∃ r : RLP,
      r = { data := BytesConstRef.ofBytes (f.tree.encode ++ rest) } := ⟨_, rfl⟩
  obtain ⟨hread, hcount, q, hholds, hcache⟩ :=
    RLP.exists_items_front f.fits_tree (.whole _) hr
  rw [hr] at hread
  rw [List.length_map] at hcount
  have hread' : RLP.ofRef (.ofBytes (f.tree.encode ++ rest)) .throwIfTooSmall =
      .ok r := by
    rw [hr]
    exact hread
  have hitem := @subscript_number f rest q hholds
  rw [← hmem, RLPXFrameInfo.ofHeader]
  simp only [hget (show mem[0]? = some _ by rw [hbytes]; rfl),
    hget (show mem[1]? = some _ by rw [hbytes]; rfl),
    hget (show mem[2]? = some _ by rw [hbytes]; rfl), hcrop, hread', hcount,
    ok_bind, lengthBytes_toNat, hmod, hpad]
  have hsize2 : ∀ n : UInt16, n.toNat < 256 ^ 2 := fun n => n.toNat_lt
  have hsize4 : ∀ n : UInt32, n.toNat < 256 ^ 4 := fun n => n.toNat_lt
  cases f with
  | single protocolType payload =>
      obtain ⟨item, hsub, hint, -⟩ :=
        hitem hcache (i := 0) rfl (hsize2 protocolType) (by omega)
      simp only [hsub, hint, ok_bind, numbers]
      rfl
  | next protocolType seqId payload =>
      obtain ⟨item, hsub, hint, hcache⟩ :=
        hitem hcache (i := 0) rfl (hsize2 protocolType) (by omega)
      obtain ⟨item', hsub', hint', -⟩ :=
        hitem hcache (i := 1) rfl (hsize2 seqId) (by omega)
      simp only [hsub, hint, hsub', hint', ok_bind, numbers]
      rfl
  | first protocolType seqId totalSize payload =>
      obtain ⟨item, hsub, hint, hcache⟩ :=
        hitem hcache (i := 0) rfl (hsize2 protocolType) (by omega)
      obtain ⟨item', hsub', hint', hcache⟩ :=
        hitem hcache (i := 1) rfl (hsize2 seqId) (by omega)
      obtain ⟨item'', hsub'', hint'', -⟩ :=
        hitem hcache (i := 2) rfl (hsize4 totalSize) (by omega)
      simp only [hsub, hint, hsub', hint', hsub'', hint'', ok_bind, numbers]
      rfl
  | legacy packet =>
      obtain ⟨item, hsub, hint, hcache⟩ :=
        hitem hcache (i := 0) rfl (by decide : 0 < 256 ^ 2) (by omega)
      obtain ⟨item', hsub', hint', -⟩ :=
        hitem hcache (i := 1) rfl (by decide : 0 < 256 ^ 2) (by omega)
      simp only [hsub, hint, hsub', hint', ok_bind, numbers]
      rfl

theorem ofHeader_eq (f : RLPXFrame) (hshort : f.payload.length < 2 ^ 24)
    (rest : Bytes) :
    RLPXFrameInfo.ofHeader (f.header ++ rest) = .ok f.info := by
  rw [ofHeader_eq_mod, Nat.mod_eq_of_lt hshort]
  rfl

end RLPXFrame

end Web3Core
