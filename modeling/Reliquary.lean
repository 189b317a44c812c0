import Reliquary.Store.Table
import Reliquary.Store.Txn
import Reliquary.Store.Run
import Reliquary.Store.Paging
import Reliquary.Rl.Basic
import Reliquary.Rl.Quota
import Reliquary.Rl.LeaseBook
import Reliquary.Rl.Buffer
import Reliquary.Rl.HandOut
import Reliquary.Rl.Submit
import Reliquary.Rl.Desk
import Reliquary.Rl.Moves
import Reliquary.Rl.Footprint
import Reliquary.Rl.BookRun
import Reliquary.Rl.System
import Reliquary.Rl.Simulate
import Reliquary.Rl.Record
import Reliquary.Rl.Payment
import Reliquary.Rl.Exclusive
import Reliquary.Rl.Held
import Reliquary.Rl.Sync
import Reliquary.Rl.QuotaBook
import Reliquary.Rl.QuotaRun
import Reliquary.Rl.Lanes
import Reliquary.Rl.Lifecycle
import Reliquary.Rl.Grants
import Reliquary.Rl.Growth
import Reliquary.Pay.Periods
import Reliquary.Pay.Ledger
import Reliquary.Pay.Archive
import Reliquary.Pay.Conserve
import Reliquary.Pay.Replay
import Reliquary.Pay.Ramp
import Reliquary.Pay.Forfeit
import Reliquary.Pay.Publish
import Reliquary.Pay.Outages
import Reliquary.Rl.Settlement
import Reliquary.Ckpt.Delta
import Reliquary.Ckpt.Compose
import Reliquary.Ckpt.Index
import Reliquary.Store.Bytes
import Reliquary.Ckpt.Wire
import Reliquary.Ckpt.Accept
import Reliquary.Ckpt.Publisher
import Reliquary.Ckpt.Reach
import Reliquary.Ckpt.Interrupt
import Reliquary.Corpus.Slots
import Reliquary.Corpus.Admission
import Reliquary.Corpus.Cache
import Reliquary.Corpus.DrawSlots
import Reliquary.Corpus.Walk
import Reliquary.Corpus.Ledger
import Reliquary.Corpus.Turn
import Reliquary.Corpus.Requests
import Reliquary.Corpus.Rewrite
import Reliquary.Corpus.Verify
import Reliquary.Corpus.Auction
import Reliquary.Audit.Judge
import Reliquary.Audit.Recheck
import Reliquary.Audit.Counting
import Reliquary.Audit.Feed
import Reliquary.Audit.Horizon
import Reliquary.Grade.Dispatch
import Reliquary.Grade.Voting
import Reliquary.Grade.Agreement
import Reliquary.Grade.Calls
import Reliquary.Grade.Document
import Reliquary.Grade.Sanction
import Reliquary.Grade.Regrade
import Reliquary.Grade.Hold
import Reliquary.Grade.Arrival
import Reliquary.Service.Archives
import Reliquary.Signer.Journal
import Reliquary.Miner.Observations
