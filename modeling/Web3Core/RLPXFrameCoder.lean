/-
`RLPXFrameCoder.h` and `RLPXFrameCoder.cpp`: the coder of the frames of an
RLPx connection.  Each direction has a stream cipher, whose position advances
with every byte, and a hash that has absorbed all that went that way; a frame
carries two tags taken from that hash.
-/
import Web3Core.FixedHash
import Web3Core.RLPStream

namespace Web3Core

/-- What the coder takes from elsewhere: the hash of `libdevcore`, that of the
crypto library, the agreement on a secret from a secret and a public key, one
block of AES under a key, and the key stream of AES in counter mode under a key
and the initial vector zero. -/
structure Crypto where
  sha3 : Bytes → H256
  digest : Bytes → H256
  agree : H256 → H512 → H256
  aesBlock : Bytes → Bytes → Bytes
  keystream : Bytes → Nat → Byte

/-- An ephemeral key pair, and the remote key once an agreement was made. -/
structure ECDHE where
  sec : H256
  pub : H512
  remoteEphemeral : H512

/-- An agreement can only occur once. -/
def ECDHE.agree (crypto : Crypto) (e : ECDHE) (remote : H512) :
    Except Exception (H256 × ECDHE) :=
  if e.remoteEphemeral.isSet then .error .invalidState
  else .ok (crypto.agree e.sec remote, { e with remoteEphemeral := remote })

/-- `operator^` on byte arrays. -/
def xorBytes (a b : Bytes) : Bytes := List.zipWith (· ^^^ ·) a b

/-- A cipher in counter mode. -/
structure CTRMode where
  key : Bytes
  position : Nat
deriving DecidableEq

/-- `ProcessData`: the bytes against the key stream. -/
def CTRMode.processData (crypto : Crypto) (c : CTRMode) (b : Bytes) :
    Bytes × CTRMode :=
  (b.mapIdx fun i x => x ^^^ crypto.keystream c.key (c.position + i),
    { c with position := c.position + b.length })

/-- `copyTo` of a buffer into `count` bytes of another one from `start` on. -/
def copyTo (b : Bytes) (buffer : Bytes) (start count : Nat) : Bytes :=
  buffer.take start ++ b.take count ++
    buffer.drop (start + min b.length count)

/-- `resize` of a byte vector. -/
def resize (buffer : Bytes) (size : Nat) : Bytes :=
  buffer.take size ++ List.replicate (size - buffer.length) 0

/-- The state of both directions.  A hash is given by what it has absorbed. -/
structure RLPXFrameCoder where
  frameEnc : CTRMode
  frameDec : CTRMode
  macEncKey : Bytes
  egressMac : Bytes
  ingressMac : Bytes
deriving DecidableEq

namespace RLPXFrameCoder

section

variable (crypto : Crypto)

/-- `setup`.  One buffer holds the shared secret and what is derived from it,
and then what the two hashes start from. -/
def setup (originated : Bool) (remoteEphemeral : H512) (remoteNonce : H256)
    (ecdhe : ECDHE) (nonce : H256) (ackCipher authCipher : Bytes) :
    Except Exception RLPXFrameCoder := do
  let keyMaterial := List.replicate 64 0
  let agreed ← ecdhe.agree crypto remoteEphemeral
  let keyMaterial := copyTo agreed.1.data keyMaterial 0 32
  let leftNonce := if originated then remoteNonce else nonce
  let rightNonce := if originated then nonce else remoteNonce
  let nonceMaterial := copyTo leftNonce.data (List.replicate 64 0) 0 32
  let nonceMaterial := copyTo rightNonce.data nonceMaterial 32 32
  -- The hash of the nonces, the shared secret, and the secret for AES.
  let keyMaterial := copyTo (crypto.sha3 nonceMaterial).data keyMaterial 32 32
  let keyMaterial := copyTo (crypto.sha3 keyMaterial).data keyMaterial 32 32
  let keyMaterial := copyTo (crypto.sha3 keyMaterial).data keyMaterial 32 32
  let frameKey := (keyMaterial.drop 32).take 32
  -- The secret for the tags.
  let keyMaterial := copyTo (crypto.sha3 keyMaterial).data keyMaterial 32 32
  let macKey := (keyMaterial.drop 32).take 32
  let keyMaterial :=
    copyTo (xorBytes macKey remoteNonce.data) keyMaterial 0 keyMaterial.length
  let egressCipher := if originated then authCipher else ackCipher
  let keyMaterial := resize keyMaterial (32 + egressCipher.length)
  let egress := copyTo egressCipher keyMaterial 32 egressCipher.length
  -- The secret for the tags once more, and the other nonce.
  let recovered :=
    xorBytes (xorBytes (egress.take 32) remoteNonce.data) nonce.data
  let keyMaterial := copyTo recovered egress 0 egress.length
  let ingressCipher := if originated then ackCipher else authCipher
  let keyMaterial := resize keyMaterial (32 + ingressCipher.length)
  let ingress := copyTo ingressCipher keyMaterial 32 ingressCipher.length
  pure { frameEnc := ⟨frameKey, 0⟩, frameDec := ⟨frameKey, 0⟩,
         macEncKey := macKey, egressMac := egress, ingressMac := ingress }

/-- The first 16 bytes of the digest of a hash. -/
def truncatedFinal (mac : Bytes) : Bytes := (crypto.digest mac).data.take 16

def egressDigest (c : RLPXFrameCoder) : Bytes :=
  truncatedFinal crypto c.egressMac

def ingressDigest (c : RLPXFrameCoder) : Bytes :=
  truncatedFinal crypto c.ingressMac

/-- `updateMAC`: the hash absorbs its encrypted digest, against the seed or,
without one, against the digest itself. -/
def updateMAC (macEncKey mac seed : Bytes) : Except Exception Bytes := do
  check (seed.length = 0 || seed.length = 16)
  let prevDigest := truncatedFinal crypto mac
  let encDigest := crypto.aesBlock macEncKey prevDigest
  if seed ≠ [] then .ok (mac ++ xorBytes encDigest seed)
  else .ok (mac ++ xorBytes encDigest prevDigest)

def updateEgressMACWithHeader (c : RLPXFrameCoder) (headerCipher : Bytes) :
    Except Exception RLPXFrameCoder := do
  let mac ← updateMAC crypto c.macEncKey c.egressMac (headerCipher.take 16)
  pure { c with egressMac := mac }

def updateEgressMACWithFrame (c : RLPXFrameCoder) (cipher : Bytes) :
    Except Exception RLPXFrameCoder := do
  let mac ← updateMAC crypto c.macEncKey (c.egressMac ++ cipher) []
  pure { c with egressMac := mac }

def updateIngressMACWithHeader (c : RLPXFrameCoder) (headerCipher : Bytes) :
    Except Exception RLPXFrameCoder := do
  let mac ← updateMAC crypto c.macEncKey c.ingressMac (headerCipher.take 16)
  pure { c with ingressMac := mac }

def updateIngressMACWithFrame (c : RLPXFrameCoder) (cipher : Bytes) :
    Except Exception RLPXFrameCoder := do
  let mac ← updateMAC crypto c.macEncKey (c.ingressMac ++ cipher) []
  pure { c with ingressMac := mac }

/-- The number of bytes up to a multiple of 16. -/
def paddingOf (size : Nat) : Nat := (16 - size % 16) % 16

/-- `writeFrame` with a given header: the frame and the coder after it. -/
def writeFrameWith (c : RLPXFrameCoder) (header : RLPStream)
    (payload : Bytes) : Except Exception (Bytes × RLPXFrameCoder) := do
  let out ← header.out
  let headerWithMac := copyTo out (List.replicate 32 0) 0 32
  let headerCipher := c.frameEnc.processData crypto (headerWithMac.take 16)
  let c ← updateEgressMACWithHeader crypto
    { c with frameEnc := headerCipher.2 } headerCipher.1
  let headerMac := c.egressDigest crypto
  let packet := c.frameEnc.processData crypto payload
  let padding := packet.2.processData crypto
    (List.replicate (paddingOf payload.length) 0)
  let c ← updateEgressMACWithFrame crypto
    { c with frameEnc := padding.2 } (packet.1 ++ padding.1)
  let frameMac := c.egressDigest crypto
  pure (headerCipher.1 ++ headerMac ++ (packet.1 ++ padding.1) ++ frameMac, c)

/-- The three bytes for the length of a frame. -/
def lengthBytes (len : Nat) : Bytes :=
  [UInt8.ofNat (len / 2 ^ 16), UInt8.ofNat (len / 2 ^ 8), UInt8.ofNat len]

/-- The length of a payload, as the first bytes of a header. -/
def lengthHeader (payload : Bytes) : Except Exception RLPStream :=
  RLPStream.appendRaw {} (lengthBytes (toUnsigned payload.length)) 1

/-- `writeFrame` for a single frame of packets. -/
def writeFrame (c : RLPXFrameCoder) (protocolType : UInt16)
    (payload : Bytes) : Except Exception (Bytes × RLPXFrameCoder) := do
  let header ← lengthHeader payload
  let header ← header.appendList 1
  let header ← header.appendInt protocolType.toNat
  writeFrameWith crypto c header payload

/-- `writeFrame` for a frame that goes on with a packet. -/
def writeNextFrame (c : RLPXFrameCoder) (protocolType seqId : UInt16)
    (payload : Bytes) : Except Exception (Bytes × RLPXFrameCoder) := do
  let header ← lengthHeader payload
  let header ← header.appendList 2
  let header ← header.appendInt protocolType.toNat
  let header ← header.appendInt seqId.toNat
  writeFrameWith crypto c header payload

/-- `writeFrame` for the first frame of a packet. -/
def writeFirstFrame (c : RLPXFrameCoder) (protocolType seqId : UInt16)
    (totalSize : UInt32) (payload : Bytes) :
    Except Exception (Bytes × RLPXFrameCoder) := do
  let header ← lengthHeader payload
  let header ← header.appendList 3
  let header ← header.appendInt protocolType.toNat
  let header ← header.appendInt seqId.toNat
  let header ← header.appendInt totalSize.toNat
  writeFrameWith crypto c header payload

def writeSingleFramePacket (c : RLPXFrameCoder) (packet : Bytes) :
    Except Exception (Bytes × RLPXFrameCoder) := do
  let header ← lengthHeader packet
  let header ← header.appendRaw [0xc2, 0x80, 0x80] 1
  writeFrameWith crypto c header packet

/-- `authAndDecryptHeader`: whether the tag is right, the buffer, and the
coder. -/
def authAndDecryptHeader (c : RLPXFrameCoder) (io : Bytes) :
    Except Exception (Bool × Bytes × RLPXFrameCoder) := do
  check (io.length = 32)
  let c ← updateIngressMACWithHeader crypto c io
  if (io.drop 16).take 16 ≠ c.ingressDigest crypto then
    pure (false, io, c)
  else
    let header := c.frameDec.processData crypto (io.take 16)
    pure (true, header.1 ++ io.drop 16, { c with frameDec := header.2 })

/-- `authAndDecryptFrame`.  A buffer without room for the tag would be read in
front of its beginning. -/
def authAndDecryptFrame (c : RLPXFrameCoder) (io : Bytes) :
    Except Exception (Bool × Bytes × RLPXFrameCoder) :=
  if io.length < 16 then .error .outOfRange
  else do
    let size := io.length - 16
    let c ← updateIngressMACWithFrame crypto c (io.take size)
    if io.drop size ≠ c.ingressDigest crypto then pure (false, io, c)
    else
      let frame := c.frameDec.processData crypto (io.take size)
      pure (true, frame.1 ++ io.drop size, { c with frameDec := frame.2 })

end

end RLPXFrameCoder

/-- What the header of a frame says. -/
structure RLPXFrameInfo where
  length : Nat
  padding : Nat
  protocolId : Nat
  multiFrame : Bool
  sequenceId : Nat
  totalLength : Nat
deriving DecidableEq

/-- `RLPXFrameInfo(frameHeader)`. -/
def RLPXFrameInfo.ofHeader (frameHeader : Bytes) :
    Except Exception RLPXFrameInfo := do
  let view := BytesConstRef.ofBytes frameHeader
  let high ← view.get 0
  let middle ← view.get 1
  let low ← view.get 2
  let length := (high.toNat * 256 + middle.toNat) * 256 + low.toNat
  let data := (view.croppedFrom 3).toBytes
  let header ← RLP.ofRef (.ofBytes data) .throwIfTooSmall
  let first := header.subscript 0
  let item ← first.1
  let protocolId ← item.toInt 2 .strict
  let itemCount ← header.itemCount
  let multiFrame := decide (itemCount > 1)
  let second := first.2.subscript 1
  let sequenceId : Nat ←
    if multiFrame then (do let item ← second.1; item.toInt 2 .strict)
    else pure 0
  let totalLength : Nat ←
    if itemCount = 3 then
      (do let item ← (second.2.subscript 2).1; item.toInt 4 .strict)
    else pure 0
  pure { length, padding := RLPXFrameCoder.paddingOf length, protocolId,
         multiFrame, sequenceId, totalLength }

end Web3Core
