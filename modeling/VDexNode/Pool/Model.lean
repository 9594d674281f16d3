import VDexNode.Eosio.Asset

/-!
# VDexNode.Pool.Model — the treasury pool `volentixpool`

The contract has no tables.  `payproducer` sends a token transfer out of the pool, under the
authorities of the pool and of the treasury; what the other two actions sent is commented out.
-/

namespace VDexNode.Pool

open Eosio

/-- `treasury`. -/
def treasury : Name := Name.ofString "staider1111"

/-- An inline transfer with the authorities it is sent with. -/
structure Payment where
  auths : List PermissionLevel
  sender : Name
  recipient : Name
  quantity : Asset
  memo : String
deriving DecidableEq, Repr

/-- `payproducer`: the inline transfer it sends. -/
def payproducer (self : Name) (ctx : Ctx) (account : Name) (quantity : Asset) :
    Result Payment := do
  requireAuth ctx.auths treasury
  requireAuth ctx.auths account
  return ⟨[⟨self, active⟩, ⟨treasury, active⟩], self, account, quantity, ""⟩

/-- `payliquid`. -/
def payliquid (_account : Name) (_quantity : Asset) : List Payment := []

/-- `payreward`. -/
def payreward (_account : Name) (_quantity : Asset) (_memo : String) : List Payment := []

/-- The actions of the contract. -/
inductive Action where
  | payproducer (account : Name) (quantity : Asset)
  | payliquid (account : Name) (quantity : Asset)
  | payreward (account : Name) (quantity : Asset) (memo : String)
deriving DecidableEq, Repr

/-- An action: the transfers it sends. -/
def perform (self : Name) (ctx : Ctx) : Action → Result (List Payment)
  | .payproducer account quantity => do
    let payment ← payproducer self ctx account quantity
    return [payment]
  | .payliquid account quantity => .ok (payliquid account quantity)
  | .payreward account quantity memo => .ok (payreward account quantity memo)

end VDexNode.Pool
