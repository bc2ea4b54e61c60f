import PadiChain.ChainBaseFee
import PadiChain.ChainPropose
import PadiChain.ChainSnapshot
import PadiChain.ConsensusQuorum
import PadiChain.CoreCertificate
import PadiChain.CryptoFp2
import PadiChain.DbFile
import PadiChain.EvmJumpdest
import PadiChain.NodeElectorate
import PadiChain.NodeEvidence
import PadiChain.P2PChannel
import PadiChain.P2PDecode
import PadiChain.P2PExternal
import PadiChain.P2PHandshake
import PadiChain.P2PHonest
import PadiChain.P2PServer
import PadiChain.ProcessorReplay
import PadiChain.PrunerCommit
import PadiChain.RpcLogs
import PadiChain.StakingChurn
import PadiChain.StakingConservation
import PadiChain.StakingKeys
import PadiChain.StakingTally
import PadiChain.StateMetering
import PadiChain.TrieProof
import PadiChain.TxPoolReady
import PadiChain.Uint256
