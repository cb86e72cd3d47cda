import Passion.Coins.SaplingStack
import Passion.Coins.ZerocoinDb
import Passion.Coins.Compressor
import Passion.Sapling.Size
import Passion.Validation.Emptiness
import Passion.Wallet.FundTransaction
import Passion.Chain.Reload
import Passion.Script.Safety
import Passion.Script.Flags
import Passion.Script.Multisig
import Passion.Budget.FinalVotes
import Passion.Consensus.Supply
import Passion.Stake.AcceptStake
import Passion.Stake.Compact
import Passion.Chain.MostWork
import Passion.Budget.Selection
import Passion.Budget.Superblocks
import Passion.Wallet.CoinStake
import Passion.Mining.Filling
import Passion.Masternode.Tally
import Passion.Masternode.Broadcast
import Passion.Masternode.Collaterals
import Passion.Validation.Fees
import Passion.Primitives.VarInt
