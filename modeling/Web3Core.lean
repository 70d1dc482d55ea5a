import Web3Core.ArrayLoops
import Web3Core.Base64
import Web3Core.BigEndian
import Web3Core.BlockHash
import Web3Core.Bytes
import Web3Core.Capabilities
import Web3Core.CommonJS
import Web3Core.ConcurrentQueue
import Web3Core.Conversation
import Web3Core.CryptoPP
import Web3Core.DB
import Web3Core.Datagram
import Web3Core.DatagramRoundTrip
import Web3Core.Decimal
import Web3Core.ECDSA
import Web3Core.ECIES
import Web3Core.EscapedText
import Web3Core.FixedHash
import Web3Core.FixedHashBloom
import Web3Core.FixedHashImage
import Web3Core.HandshakeAgreement
import Web3Core.HandshakeChecks
import Web3Core.HandshakePair
import Web3Core.Hello
import Web3Core.HelpfulRounds
import Web3Core.Hex
import Web3Core.HexPrefixCode
import Web3Core.HexText
import Web3Core.Host
import Web3Core.HostNetwork
import Web3Core.HostRequired
import Web3Core.HostRestore
import Web3Core.HostRun
import Web3Core.KeccakSponge
import Web3Core.KeyDerivation
import Web3Core.LittleEndian
import Web3Core.Loops
import Web3Core.MemoryDB
import Web3Core.MuxBudget
import Web3Core.MuxCalls
import Web3Core.MuxRuns
import Web3Core.Nearest
import Web3Core.Nibbles
import Web3Core.NodeEndpoint
import Web3Core.NodeSpec
import Web3Core.NodeTable
import Web3Core.NodeTableActivity
import Web3Core.NodeTableAdmission
import Web3Core.NodeTableBuckets
import Web3Core.NodeTableChanges
import Web3Core.NodeTableDiscovery
import Web3Core.NodeTableEvents
import Web3Core.NodeTableEvictions
import Web3Core.NodeTableNearest
import Web3Core.NodeTableNeighbours
import Web3Core.OrderedMap
import Web3Core.OverlayCommits
import Web3Core.OverlayDB
import Web3Core.OverlayRollback
import Web3Core.OverlayTrie
import Web3Core.Patricia
import Web3Core.PatriciaEntries
import Web3Core.PatriciaInsert
import Web3Core.PatriciaRemove
import Web3Core.PeerSessionRuns
import Web3Core.PeerSessions
import Web3Core.PeerShutdown
import Web3Core.PicoSHA2
import Web3Core.PicoSHA2Blocks
import Web3Core.PicoSHA2Hash
import Web3Core.Program
import Web3Core.RLP
import Web3Core.RLPCanonical
import Web3Core.RLPDescent
import Web3Core.RLPFields
import Web3Core.RLPHistory
import Web3Core.RLPInt
import Web3Core.RLPIntegers
import Web3Core.RLPItems
import Web3Core.RLPPayload
import Web3Core.RLPRead
import Web3Core.RLPRep
import Web3Core.RLPRoundTrip
import Web3Core.RLPStream
import Web3Core.RLPTree
import Web3Core.RLPWalk
import Web3Core.RLPXConnection
import Web3Core.RLPXDelivery
import Web3Core.RLPXDemux
import Web3Core.RLPXFrameCoder
import Web3Core.RLPXFrameReader
import Web3Core.RLPXFrameWriter
import Web3Core.RLPXFrames
import Web3Core.RLPXHandshake
import Web3Core.RLPXMux
import Web3Core.RLPXPacket
import Web3Core.RLPXReassembly
import Web3Core.RLPXRounds
import Web3Core.RLPXSocketFrames
import Web3Core.RLPXSocketIO
import Web3Core.RLPXTransport
import Web3Core.RangeMask
import Web3Core.RangeMaskOperators
import Web3Core.RangeMaskSet
import Web3Core.ReputationManager
import Web3Core.RipeMessageDigest
import Web3Core.Ripemd160
import Web3Core.Ripemd160Hash
import Web3Core.Runs
import Web3Core.SHA256
import Web3Core.SHA3
import Web3Core.SHA3Permutation
import Web3Core.SHA3Sponge
import Web3Core.Secp256k1PP
import Web3Core.Secp256k1Signature
import Web3Core.SecretStore
import Web3Core.SecretStoreCache
import Web3Core.SecretStoreKeys
import Web3Core.SecureFixedHash
import Web3Core.Session
import Web3Core.SessionQueue
import Web3Core.SessionRead
import Web3Core.SocketCount
import Web3Core.TrieAccess
import Web3Core.TrieBulk
import Web3Core.TrieCheck
import Web3Core.TrieChildren
import Web3Core.TrieCollapse
import Web3Core.TrieCommitment
import Web3Core.TrieCommon
import Web3Core.TrieContents
import Web3Core.TrieCounts
import Web3Core.TrieCut
import Web3Core.TrieDB
import Web3Core.TrieFailures
import Web3Core.TrieFat
import Web3Core.TrieHash
import Web3Core.TrieInsert
import Web3Core.TrieIteration
import Web3Core.TrieIterator
import Web3Core.TrieKeys
import Web3Core.TrieLookup
import Web3Core.TrieMap
import Web3Core.TrieMisses
import Web3Core.TrieNode
import Web3Core.TrieOverflow
import Web3Core.TrieRebuild
import Web3Core.TrieRefinement
import Web3Core.TrieRemove
import Web3Core.TrieRoot
import Web3Core.TrieSeek
import Web3Core.TrieSession
import Web3Core.TrieStops
import Web3Core.TrieStore
import Web3Core.TrieStrands
import Web3Core.TrieWrap
import Web3Core.TrieWrites
import Web3Core.UDPSocket
import Web3Core.Worker
import Web3Core.WorkerProgress
