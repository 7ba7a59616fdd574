import BtcParachain.Primitives
import BtcParachain.Collections
import BtcParachain.Bitcoin.Merkle
import BtcParachain.Bitcoin.MerkleSound
import BtcParachain.Bitcoin.MerkleComplete
import BtcParachain.Bitcoin.MerkleBinding
import BtcParachain.Bitcoin.Parse
import BtcParachain.BtcRelay.Storage
import BtcParachain.BtcRelay.Module
import BtcParachain.BtcRelay.Rollback
import BtcParachain.BtcRelay.Runs
import BtcParachain.BtcRelay.Placement
import BtcParachain.BtcRelay.Ordering
import BtcParachain.BtcRelay.Heights
import BtcParachain.BtcRelay.Reorg
import BtcParachain.BtcRelay.Promotion
import BtcParachain.BtcRelay.Invariants
import BtcParachain.BtcRelay.HeaderTree
import BtcParachain.BtcRelay.BestTip
import BtcParachain.BtcRelay.ForkChoice
import BtcParachain.BtcRelay.RelayView
