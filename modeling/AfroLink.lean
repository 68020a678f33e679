import AfroLink.Primitives.Theorems
import AfroLink.Crypto.Theorems.Merkle
import AfroLink.Consensus.Decentralization
import AfroLink.Consensus.Theorems.Tally
import AfroLink.Alias.Contact
import AfroLink.Alias.Theorems
import AfroLink.Staking.Theorems
import AfroLink.State.Theorems.Nodes
import AfroLink.State.Theorems.StateTree
import AfroLink.State.Theorems.StoreKeys
import AfroLink.Executor.Theorems.Agreement
import AfroLink.Executor.Theorems.Freezes
import AfroLink.Executor.Theorems.Governance
import AfroLink.Executor.Theorems.History
import AfroLink.Executor.Theorems.Keys
import AfroLink.Executor.Theorems.Loans
import AfroLink.Executor.Theorems.Proposals
import AfroLink.Executor.Theorems.Savings
import AfroLink.Executor.Theorems.Shares
import AfroLink.Executor.Theorems.Slashing
import AfroLink.Executor.Theorems.Slots
import AfroLink.Node.Theorems.Chain
import AfroLink.Node.Theorems.Mempool
import AfroLink.Node.Theorems.Pool
import AfroLink.Node.Theorems.Reports
import AfroLink.Node.Theorems.Votes
import AfroLink.Daemon.Theorems.Serving
import AfroLink.Light.Theorems
import AfroLink.P2p.Theorems.Commits
import AfroLink.P2p.Theorems.Handshake
import AfroLink.P2p.Theorems.Seats
import AfroLink.P2p.Theorems.Sync
import AfroLink.Store.Theorems
import AfroLink.Witness.Theorems
import AfroLink.Witness.Theorems.Corroboration
import AfroLink.Witness.Theorems.Equivocation
