import Timbre.Core.Finality
import Timbre.Core.Removal
import Timbre.Core.Reload
import Timbre.Core.Block
import Timbre.Core.Irreversibility
import Timbre.Crypto.Pos
import Timbre.Dpos.Committee
import Timbre.Dpos.MiningOrder
import Timbre.Dpos.Snapshot
import Timbre.Dpos.Epoch
import Timbre.Dpos.Schedule
import Timbre.Wallet.Supply
import Timbre.Wallet.Consent
import Timbre.Wallet.Settlement
import Timbre.Wallet.Solvency
import Timbre.Wallet.VotePower
import Timbre.Wallet.VotePayload
import Timbre.Wallet.Nonces
import Timbre.Wallet.Undo
import Timbre.Wallet.Charges
import Timbre.Wallet.Verifications
import Timbre.Wallet.Bootstrap
import Timbre.Wallet.Generation
import Timbre.Wallet.Podf
import Timbre.Roles.Miner
import Timbre.Roles.Syncer
import Timbre.Roles.Quota
import Timbre.Roles.Node
import Timbre.Roles.SwitchFork
import Timbre.Roles.StateStore
import Timbre.Roles.Lockstep
import Timbre.Roles.Framing
import Timbre.Roles.Candidacy
import Timbre.Wallet.Twins
import Timbre.Roles.GenesisRound
import Timbre.Wallet.RewardUndo
import Timbre.Wallet.DealsUndo
import Timbre.Wallet.PairsUndo
import Timbre.Wallet.Ledger
import Timbre.Wallet.Penalties
import Timbre.Dpos.Staked
import Timbre.Dpos.CatchUp
import Timbre.Dpos.CommitteeSize
import Timbre.Wallet.Atomicity
import Timbre.Storage.Requests
import Timbre.Core.Blockpool
import Timbre.Wallet.VoteTexts
import Timbre.Wallet.VoteBudget
import Timbre.Lib.Bisect
import Timbre.Core.DealSearch
import Timbre.Roles.ActiveDeals
import Timbre.Lib.Merge
import Timbre.Lib.Sweep
import Timbre.Core.MainTail
import Timbre.Core.StaleTails
import Timbre.Wallet.Panics
import Timbre.Roles.FillBlock
import Timbre.Wallet.Cleanup
import Timbre.Core.RoundSearch
import Timbre.Storage.TransactionPool
import Timbre.Roles.DelegateTx
import Timbre.Roles.LastVerifications
import Timbre.Roles.BulkSync
import Timbre.Services.Nonces
import Timbre.Roles.Threads
import Timbre.Services.Resumption
import Timbre.Crypto.Challenge
import Timbre.Roles.Challenges
import Timbre.Roles.BlockLoop
import Timbre.Roles.Distribute
import Timbre.Lib.Partway
import Timbre.Wallet.Detached
import Timbre.Wallet.Restored
