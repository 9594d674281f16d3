import VDexNode.Stak.Ledger
import VDexNode.Token.Supply
import VDexNode.Custodian.Quorum
import VDexNode.Vote.Tally
import VDexNode.Distribut.Rate
import VDexNode.System.Backing
import VDexNode.Mpt.KeyGenUtils
import VDexNode.Mpt.Reconstruct
import VDexNode.Lib.Rounds
import VDexNode.Mpt.Sign
import VDexNode.Mpt.Honest
import VDexNode.Mpt.Signing
import VDexNode.Mpt.KeyGenSecrecy
import VDexNode.Mpt.Sessions
import VDexNode.Custodian.Accounting
import VDexNode.Token.Outflow
import VDexNode.Stak.Lock
import VDexNode.Api.Chat
import VDexNode.Api.Directory
import VDexNode.Gateway.Deposits
import VDexNode.Vote.Integrity
import VDexNode.Api.ChatLoop
import VDexNode.Custodian.Window
import VDexNode.Distribut.Blacklist
import VDexNode.Distribut.Periods
import VDexNode.Stak.Totals
import VDexNode.System.Nodes
import VDexNode.Vote.Dates
import VDexNode.Distribut.Collect
import VDexNode.Stak.Payout
import VDexNode.System.Authority
import VDexNode.Mpt.Retries
import VDexNode.Mpt.Balance
import VDexNode.Vote.Ranking
import VDexNode.Distribut.Rules
import VDexNode.Custodian.Majority
import VDexNode.Stak.Memo
import VDexNode.Mpt.KeyProofs
import VDexNode.Mpt.Channel
import VDexNode.Vote.Deletion
import VDexNode.Api.Bitcoin
import VDexNode.Api.Addresses
import VDexNode.Mpt.Lifecycle
import VDexNode.Mpt.Adversary
import VDexNode.Mpt.Peers
import VDexNode.Mpt.Reveal
import VDexNode.Token.Issuance
import VDexNode.System.Bridge
import VDexNode.Wvtx.Refinement
import VDexNode.Token.Destroy
import VDexNode.Pool.Model
import VDexNode.System.Network
import VDexNode.System.Payroll
import VDexNode.Mpt.Lockstep
import VDexNode.Mpt.Stateful
import VDexNode.Mpt.KeyGenRuns
import VDexNode.Mpt.SignRuns
import VDexNode.Gateway.Poller
import VDexNode.Api.Availability
