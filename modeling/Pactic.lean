import Pactic.Lib.Prog
import Pactic.Lib.Machine
import Pactic.Lib.Copies
import Pactic.Lib.Potential
import Pactic.Lib.Length
import Pactic.Lib.Decimal
import Pactic.Lib.Binary
import Pactic.Lib.Table
import Pactic.Lib.Locks
import Pactic.Lib.Paging
import Pactic.Lib.ParseInt
import Pactic.Lib.Solo
import Pactic.Lib.Total
import Pactic.Model.Data
import Pactic.Model.Numbers
import Pactic.Model.Store
import Pactic.Model.Rabbit
import Pactic.Model.Channel
import Pactic.Model.Loop
import Pactic.Model.Jobs
import Pactic.Model.Wallets
import Pactic.Model.Users
import Pactic.Model.Transactions
import Pactic.Model.System
import Pactic.Model.Auth
import Pactic.Model.Http
import Pactic.Book.Spec
import Pactic.Book.Doubles
import Pactic.Book.Money
import Pactic.Book.Fees
import Pactic.Book.Ledger
import Pactic.Protocol.Spec
import Pactic.Protocol.Conform
import Pactic.Protocol.Calls
import Pactic.Protocol.Scope
import Pactic.Protocol.Refusals
import Pactic.Protocol.Moves
import Pactic.Protocol.Requests
import Pactic.Protocol.Books
import Pactic.Protocol.Messages
import Pactic.Protocol.Handover
import Pactic.Wallets.Commits
import Pactic.Wallets.Authorisation
import Pactic.Wallets.Balances
import Pactic.Wallets.Ledger
import Pactic.Wallets.Status
import Pactic.Wallets.Truth
import Pactic.Wallets.Completion
import Pactic.Wallets.Retry
import Pactic.Wallets.Deadlock
import Pactic.Wallets.Rest
import Pactic.Wallets.Delivery
import Pactic.Wallets.Recovery
import Pactic.Wallets.Creation
import Pactic.Wallets.Interference
import Pactic.Wallets.Lists
import Pactic.Wallets.Answers
import Pactic.Wallets.ListRaces
import Pactic.Wallets.ListSchedule
import Pactic.Wallets.ListsAlone
import Pactic.Wallets.Isolation
import Pactic.Wallets.DepositPath
import Pactic.Wallets.Deposits
import Pactic.Wallets.Drain
import Pactic.Wallets.References
import Pactic.Wallets.FailedCreation
import Pactic.Wallets.Duplicates
import Pactic.Wallets.Admission
import Pactic.Users.Signup
import Pactic.Users.Profile
import Pactic.Users.Deletion
import Pactic.Users.Usernames
import Pactic.Users.Accounts
import Pactic.Users.ProfileRaces
import Pactic.Users.ProfileAlone
import Pactic.Transactions.Pages
import Pactic.Transactions.Walk
import Pactic.Transactions.Cache
import Pactic.Rabbit.Acks
import Pactic.Rabbit.Retries
import Pactic.Rabbit.DeadLetters
import Pactic.Rabbit.Payloads
import Pactic.Users.Logins
import Pactic.Users.Authentication
import Pactic.Notifications.Once
