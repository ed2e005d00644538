import Diode.Core.SMap
import Diode.Core.Bytes
import Diode.Core.Refs
import Diode.Core.Sha256
import Diode.L1Encoding.Ext
import Diode.L1Encoding.Rlp
import Diode.L2Trie.Canon
import Diode.L2Trie.Pool
import Diode.L2Trie.Held
import Diode.L2Trie.Shape
import Diode.L2Trie.Insert
import Diode.L2Trie.Hash
import Diode.L2Trie.Isolation
import Diode.L2Trie.RootHash
import Diode.L3State.Tree
import Diode.L3State.Term
import Diode.L3State.Resource
import Diode.L3State.AccountMap
import Diode.L3State.View
import Diode.L3State.Simulation
import Diode.L3State.Fork
import Diode.L3State.Uncompact
import Diode.L3State.Query
import Diode.L3State.Compact
import Diode.L3State.Difference
import Diode.L3State.Handles
import Diode.L3State.Coherence
import Diode.L3State.Rebuild
import Diode.L3State.DifferenceExact
import Diode.L3State.Replay
import Diode.L3State.BulkUpdate
import Diode.L2Trie.Makers
import Diode.L2Trie.MerkleProof
import Diode.Core.Quorum
import Diode.Core.Recency
import Diode.L5Chain.BlockTree
import Diode.L5Chain.Finality
import Diode.Core.Median
import Diode.L5Chain.ChainIndex
import Diode.L6Network.BlockquickSeq
import Diode.L5Chain.StoredStates
import Diode.L4Evm.Transaction
import Diode.L5Chain.BlockValidate
import Diode.Core.Pairs
import Diode.Core.Probe
import Diode.L4Evm.HostCache
import Diode.Core.Rank
import Diode.L1Encoding.RlpRead
import Diode.L6Network.LastChange
import Diode.L6Network.RpcRequests
import Diode.L6Network.SyncSql
import Diode.L3State.Lifetime
import Diode.L3State.Script
import Diode.L3State.Pools
import Diode.L3State.Native
import Diode.L3State.NativeMaps
import Diode.L1Encoding.Packet
import Diode.L2Trie.Exact
import Diode.L4Evm.Accounts
import Diode.L4Evm.Apply
import Diode.L4Evm.Gas
import Diode.L4Evm.LockStep
import Diode.L4Evm.Static
import Diode.L3State.Lazy
import Diode.L3State.NativeLazy
import Diode.Core.Bits
import Diode.Core.Ring
import Diode.L6Network.KBuckets
import Diode.L6Network.Nearest
import Diode.L6Network.NodeProxy
import Diode.L6Network.ProofSequence
import Diode.L6Network.TxRelay
import Diode.L5Chain.ForkChoice
import Diode.L5Chain.Window
import Diode.L6Network.KademliaSearch
import Diode.L6Network.PeerHandler
import Diode.L6Network.Redistribute
import Diode.L3State.AccountHash
import Diode.L1Encoding.RlpWrite
import Diode.L4Evm.TxWire
import Diode.L5Chain.Threshold
import Diode.L6Network.Server
import Diode.L4Evm.FrameGas
import Diode.L4Evm.Precompiles
import Diode.Core.Shift
import Diode.L1Encoding.Abi
import Diode.Core.Words
import Diode.L1Encoding.Eip712
import Diode.L4Evm.HostRoom
import Diode.L4Evm.HostRun
import Diode.Core.Total
import Diode.L4Evm.Nonce
import Diode.L4Evm.Conservation
import Diode.L4Evm.Atomic
import Diode.L6Network.Lru
import Diode.L5Chain.EtsLru
import Diode.L4Evm.Balance
import Diode.L3State.StorageRange
import Diode.L6Network.ObjectStore
import Diode.L5Chain.Pool
import Diode.Core.Asks
import Diode.Core.Strides
import Diode.L4Evm.Instruction
import Diode.L4Evm.Intx
import Diode.L4Evm.VM
import Diode.L4Evm.Interpreter
import Diode.L4Evm.JumpTable
import Diode.L4Evm.VMRules
import Diode.L4Evm.InterpreterSafe
import Diode.L4Evm.InterpreterRun
import Diode.L4Evm.Arith
import Diode.L4Evm.Machine
import Diode.L4Evm.Refines
import Diode.Core.LongDivision
import Diode.L4Evm.Reciprocal
import Diode.L4Evm.Division
import Diode.L4Evm.Udivrem
