import VDexNode.Lib.Machine
import VDexNode.Lib.Table

/-!
# VDexNode.Gateway.Model — the gateway's poller of deposits

`fetch_new_deposits` reads a page of the deposits of one currency, from the row after the last one
it has read, and commits the rows it found together with the new cursor.  The deposits of a
currency are a table of its own on the chain, in the scope of the currency; the database keeps all
of them in one table.
-/

namespace VDexNode.Gateway

/-! ## The chain -/

/-- A row of `accntdeposit`, in the scope of a currency. -/
structure Deposit where
  id : ℕ
  account : String
  amount : String
  txHash : String
deriving DecidableEq, Repr

/-- The rows of the deposits table by scope. -/
abbrev Chain := String → Table Deposit.id

/-- `EosClient.DEPOSIT_FETCH_LIMIT`. -/
def depositFetchLimit : ℕ := 100

/-- `EosClient._get_table_rows` on the deposits table: the first rows of the scope from
`lower_bound` on. -/
def getTableRows (chain : Chain) (scope : String) (lowerBound : ℤ) : List Deposit :=
  ((chain scope).rows.filter (fun d => decide (lowerBound ≤ d.id))).take depositFetchLimit

/-! ## The database -/

/-- `DepositStatus`. -/
inductive DepositStatus where
  | pending
  | problem
  | watingForSubmit
  | watingForSubmitConfirmation
  | confirmed
deriving DecidableEq, Repr

/-- A row of `account_deposit`.  `amount` is no `Column` of the mapped class, so the table has
none. -/
structure AccountDeposit where
  id : ℕ
  currency : String
  account : String
  hash : String
  submitHash : Option String
  status : DepositStatus
deriving DecidableEq, Repr

/-- A row of `gateway_table`. -/
structure GatewayTable where
  id : ℕ
  name : String
  currency : String
  lastRowRead : ℤ
deriving DecidableEq, Repr

/-- The tables of the database, by primary key. -/
structure Db where
  accountDeposit : Table AccountDeposit.id := Table.empty
  gatewayTable : Table GatewayTable.id := Table.empty

/-- `EosClient.deposits_table`. -/
def depositsTable : String := "accntdeposit"

/-- `query(GatewayTable).filter(currency == …).first()`. -/
def Db.tableObj (db : Db) (currency : String) : Option GatewayTable :=
  db.gatewayTable.rows.find? (fun t => decide (t.currency = currency))

/-- The cursor of a currency, `-1` before its first row. -/
def Db.lastRowRead (db : Db) (currency : String) : ℤ :=
  ((db.tableObj currency).map GatewayTable.lastRowRead).getD (-1)

/-- The object of the currency, which is committed first where there is none. -/
def Db.ensureTable (db : Db) (currency : String) : GatewayTable × Db :=
  match db.tableObj currency with
  | some t => (t, db)
  | none =>
    let id := ((db.gatewayTable.last (fun _ => true)).map (fun t => t.id + 1)).getD 1
    let t : GatewayTable := ⟨id, depositsTable, currency, -1⟩
    (t, { db with gatewayTable := db.gatewayTable.put t })

/-- What is saved of a deposit. -/
def AccountDeposit.of (currency : String) (deposit : Deposit) : AccountDeposit :=
  ⟨deposit.id, currency, deposit.account, deposit.txHash, none, .pending⟩

/-- An insert into `account_deposit`: a primary key that exists is rejected. -/
def insert (t : Table AccountDeposit.id) (row : AccountDeposit) :
    Except String (Table AccountDeposit.id) :=
  if t.find row.id = none then .ok (t.put row)
  else .error "UNIQUE constraint failed: account_deposit.id"

/-- `fetch_new_deposits`: the database after the call, and how it ended.  The rows and the cursor
are one commit. -/
def fetchNewDeposits (chain : Chain) (db : Db) (currency : String) : Db × Except String Unit :=
  let (tableObj, db) := db.ensureTable currency
  let lastId := tableObj.lastRowRead
  let deposits := getTableRows chain currency (lastId + 1)
  let rows := deposits.map (AccountDeposit.of currency)
  let lastId := ((deposits.map (fun d => (d.id : ℤ))).max?).getD lastId
  match rows.foldlM insert db.accountDeposit with
  | .ok accountDeposit =>
    let gatewayTable := db.gatewayTable.put { tableObj with lastRowRead := lastId }
    ({ accountDeposit, gatewayTable }, .ok ())
  | .error e => (db, .error e)

/-! ## Runs -/

/-- The chain and the database. -/
structure World where
  chain : Chain := fun _ => Table.empty
  db : Db := {}

/-- A deposit is made on the chain, or a currency is polled. -/
inductive Event where
  | deposit (currency : String) (d : Deposit)
  | fetch (currency : String)

/-- A call of `fetch_new_deposits` and how it ended. -/
structure Poll where
  currency : String
  result : Except String Unit

/-- One event.  The ids of a scope only grow; a call that fails ends the process, and the next one
is that of the gateway started again. -/
def step (w : World) : Event → Except String (World × List Poll)
  | .deposit currency d =>
    if ∀ r ∈ (w.chain currency).rows, r.id < d.id then
      .ok ({ w with chain := fun c => if c = currency then (w.chain c).put d else w.chain c }, [])
    else .error "deposit ids grow"
  | .fetch currency =>
    let (db, result) := fetchNewDeposits w.chain w.db currency
    .ok ({ w with db }, [⟨currency, result⟩])

end VDexNode.Gateway
