import Pactic.Lib.Paging
import Pactic.Lib.ParseInt
import Pactic.Model.Data
import Mathlib.Data.Rat.Floor

/-! # The transactions service

Three endpoints that read a page of a user's rows, newest first. The query for a
page orders rows with the same time as it likes: the `Arrangement` it answers
from is a parameter. -/
namespace Pactic
open Keyed Paging

/-! The rows with the columns the database adds. -/

structure TransactionRow extends Transaction where
  id : Int
  createdAt : Nat
  deriving DecidableEq

structure NotificationRow extends Notification where
  id : Int
  read : Bool
  createdAt : Nat
  deriving DecidableEq

structure LoginLogRow extends LoginLog where
  id : Int
  loggedInAt : Nat
  deriving DecidableEq

structure Page (ρ : Type) where
  items : List ρ
  total : Nat
  page : Nat
  pageSize : Nat
  totalPages : Nat

/-- `findMany` with `skip` and `take`, and `count`, of the rows that match. -/
def paginate {ρ : Type} {key : ρ → Nat} {rows : List ρ} (found : Arrangement key rows)
    (page : Nat) : Page ρ :=
  let limit := 10
  let skip := (page - 1) * limit
  { items := found.slice skip limit
    total := rows.length
    page := page
    pageSize := limit
    totalPages := ⌈(rows.length / limit : ℚ)⌉₊ }

namespace TransactionsService

/-- `where: { userId }` -/
def transactionsOf (userId : Int) (transactions : Table TransactionRow.id) : List TransactionRow :=
  transactions.rows.filter fun t => t.userId = userId

def notificationsOf (userId : Int) (notifications : Table NotificationRow.id) :
    List NotificationRow :=
  notifications.rows.filter fun n => n.userId = userId

def loginLogsOf (userId : Int) (logs : Table LoginLogRow.id) : List LoginLogRow :=
  logs.rows.filter fun l => l.userId = some userId

def getTransactionsForUser (transactions : Table TransactionRow.id) (userId : Int)
    (found : Arrangement TransactionRow.createdAt (transactionsOf userId transactions))
    (page : Nat := 1) : Page TransactionRow :=
  paginate found page

def getUserNotifications (notifications : Table NotificationRow.id) (userId : Int)
    (found : Arrangement NotificationRow.createdAt (notificationsOf userId notifications))
    (page : Nat := 1) : Page NotificationRow :=
  paginate found page

def getUserLoginLogs (logs : Table LoginLogRow.id) (userId : Int)
    (found : Arrangement LoginLogRow.loggedInAt (loginLogsOf userId logs))
    (page : Nat := 1) : Page LoginLogRow :=
  paginate found page

end TransactionsService

namespace TransactionsController

/-- What the three endpoints do, but for the rows they fetch. `userId` and `page`
are the texts of the query; what is missing of them parses like `undefined`, and
as the first page. -/
def getPage {ρ : Type} (fetch : Int → Nat → Page ρ) (userId page : Option String)
    (tokenUserId : Int) : Except Err (Page ρ) :=
  let numericUserId := JavaScript.parseInt (userId.getD "undefined")
  let pageNumber := (JavaScript.parseInt (page.getD "1")).map fun n => max n 1
  if numericUserId = some tokenUserId then
    match pageNumber with
    | some n => .ok (fetch tokenUserId n.toNat)
    | none => .error .invalidData -- `skip` is `NaN`
  else .error (.unauthorized "Invalid token for this user")

def getUserTransactions (transactions : Table TransactionRow.id)
    (found : ∀ u, Arrangement TransactionRow.createdAt
      (TransactionsService.transactionsOf u transactions)) :
    Option String → Option String → Int → Except Err (Page TransactionRow) :=
  getPage fun u page => TransactionsService.getTransactionsForUser transactions u (found u) page

def getUserNotifications (notifications : Table NotificationRow.id)
    (found : ∀ u, Arrangement NotificationRow.createdAt
      (TransactionsService.notificationsOf u notifications)) :
    Option String → Option String → Int → Except Err (Page NotificationRow) :=
  getPage fun u page => TransactionsService.getUserNotifications notifications u (found u) page

def getUserLoginLogs (logs : Table LoginLogRow.id)
    (found : ∀ u, Arrangement LoginLogRow.loggedInAt (TransactionsService.loginLogsOf u logs)) :
    Option String → Option String → Int → Except Err (Page LoginLogRow) :=
  getPage fun u page => TransactionsService.getUserLoginLogs logs u (found u) page

end TransactionsController
end Pactic
