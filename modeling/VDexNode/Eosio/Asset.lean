import Mathlib.Tactic.Linarith
import VDexNode.Eosio.Basic

/-!
# VDexNode.Eosio.Asset — symbols and assets

`eosio::symbol` and `eosio::asset` with their checked arithmetic: an operation on assets of
different symbols aborts, and so does one whose result leaves `[-maxAmount, maxAmount]`.  The four
texts of the second kind are `rangeErrors`; `InRange x` says that `x` does not abort with one of
them.
-/

namespace VDexNode.Eosio

/-! ## Symbols -/

/-- `eosio::symbol_code`: up to seven letters, the first in the lowest byte. -/
structure SymbolCode where
  raw : ℕ
deriving DecidableEq, Repr, Inhabited

namespace SymbolCode

theorem raw_injective : Function.Injective SymbolCode.raw := fun a b h => by
  cases a; cases b; cases h; rfl

instance : LinearOrder SymbolCode := LinearOrder.lift' SymbolCode.raw raw_injective

/-- The code spelled by `s`. -/
def ofString (s : String) : SymbolCode :=
  ⟨s.toList.foldr (fun c v => v * 256 + c.toNat) 0⟩

/-- The low `k` bytes of a raw code, lowest first. -/
def bytes : ℕ → ℕ → List ℕ
  | 0, _ => []
  | k + 1, n => n % 256 :: bytes k (n / 256)

/-- `symbol_code::is_valid`: one to seven capital letters, then zeros. -/
def isValid (c : SymbolCode) : Prop :=
  let letters := (bytes 7 c.raw).takeWhile (fun b => 'A'.toNat ≤ b ∧ b ≤ 'Z'.toNat)
  letters ≠ [] ∧ ∀ b ∈ (bytes 7 c.raw).drop letters.length, b = 0

instance (c : SymbolCode) : Decidable c.isValid := by
  unfold isValid
  infer_instance

end SymbolCode

/-- `eosio::symbol`: a code and a number of decimals. -/
structure Symbol where
  code : SymbolCode
  precision : ℕ
deriving DecidableEq, Repr, Inhabited

/-- `symbol::is_valid`. -/
def Symbol.isValid (s : Symbol) : Prop := s.code.isValid

instance (s : Symbol) : Decidable s.isValid := inferInstanceAs (Decidable s.code.isValid)

/-! ## Assets -/

/-- `eosio::asset`: a 64-bit amount of a symbol. -/
structure Asset where
  amount : ℤ
  symbol : Symbol
deriving DecidableEq, Repr, Inhabited

namespace Asset

/-- `asset::max_amount`. -/
def maxAmount : ℤ := 2 ^ 62 - 1

theorem maxAmount_eq : maxAmount = 4611686018427387903 := by decide

/-- `asset::is_amount_within_range`. -/
def isAmountWithinRange (a : Asset) : Prop := -maxAmount ≤ a.amount ∧ a.amount ≤ maxAmount

instance (a : Asset) : Decidable a.isAmountWithinRange := by
  unfold isAmountWithinRange
  infer_instance

/-- `asset::is_valid`. -/
def isValid (a : Asset) : Prop := a.isAmountWithinRange ∧ a.symbol.isValid

instance (a : Asset) : Decidable a.isValid := by
  unfold isValid
  infer_instance

/-- The constructor `asset(amount, symbol)`. -/
def make (amount : ℤ) (symbol : Symbol) : Result Asset := do
  check (-maxAmount ≤ amount ∧ amount ≤ maxAmount)
    "magnitude of asset amount must be less than 2^62"
  check symbol.isValid "invalid symbol name"
  return ⟨amount, symbol⟩

/-- `asset::operator+=`. -/
def add (a b : Asset) : Result Asset := do
  check (b.symbol = a.symbol) "attempt to add asset with different symbol"
  check (-maxAmount ≤ a.amount + b.amount) "addition underflow"
  check (a.amount + b.amount ≤ maxAmount) "addition overflow"
  return ⟨a.amount + b.amount, a.symbol⟩

/-- `asset::operator-=`. -/
def sub (a b : Asset) : Result Asset := do
  check (b.symbol = a.symbol) "attempt to subtract asset with different symbol"
  check (-maxAmount ≤ a.amount - b.amount) "subtraction underflow"
  check (a.amount - b.amount ≤ maxAmount) "subtraction overflow"
  return ⟨a.amount - b.amount, a.symbol⟩

/-- `a <= b` on assets. -/
def le (a b : Asset) : Result Bool := do
  check (a.symbol = b.symbol) "comparison of assets with different symbols is not allowed"
  return decide (a.amount ≤ b.amount)

/-- The texts with which an addition or a subtraction that leaves the range aborts. -/
def rangeErrors : List String :=
  ["addition underflow", "addition overflow", "subtraction underflow", "subtraction overflow"]

/-! ### What the operations return -/

theorem add_eq_ok {a b c : Asset} :
    a.add b = .ok c ↔ b.symbol = a.symbol ∧ -maxAmount ≤ a.amount + b.amount ∧
      a.amount + b.amount ≤ maxAmount ∧ c = ⟨a.amount + b.amount, a.symbol⟩ := by
  simp only [add, bind_eq_ok, check_eq_ok, exists_const, pure_eq_ok, eq_comm (b := c)]

theorem sub_eq_ok {a b c : Asset} :
    a.sub b = .ok c ↔ b.symbol = a.symbol ∧ -maxAmount ≤ a.amount - b.amount ∧
      a.amount - b.amount ≤ maxAmount ∧ c = ⟨a.amount - b.amount, a.symbol⟩ := by
  simp only [sub, bind_eq_ok, check_eq_ok, exists_const, pure_eq_ok, eq_comm (b := c)]

theorem le_eq_ok {a b : Asset} {r : Bool} :
    a.le b = .ok r ↔ a.symbol = b.symbol ∧ r = decide (a.amount ≤ b.amount) := by
  simp only [le, bind_eq_ok, check_eq_ok, exists_const, pure_eq_ok, eq_comm (b := r)]

end Asset

/-- The inline `transfer` a contract sends to the token contract. -/
structure TransferAction where
  auth : PermissionLevel
  sender : Name
  recipient : Name
  quantity : Asset
  memo : String
deriving DecidableEq, Repr

/-! ## Staying in range -/

/-- `x` does not abort because an addition or a subtraction left the range. -/
def InRange {α : Type} (x : Result α) (Q : α → Prop) : Prop :=
  Outcome x Q (· ∉ Asset.rangeErrors)

/-- What is known of the values `x` returns joins what is known of its aborts. -/
theorem InRange.of_ok {α : Type} {x : Result α} {P Q : α → Prop} (h : InRange x P)
    (hQ : ∀ a, x = .ok a → Q a) : InRange x Q :=
  ⟨hQ, h.2⟩

theorem inRange_check {p : Prop} [Decidable p] {msg : String}
    (h : msg ∉ Asset.rangeErrors) : InRange (check p msg) (fun _ => p) :=
  outcome_check (fun _ => h)

/-- An addition of one symbol whose result is in range does not leave it. -/
theorem inRange_add {a b : Asset} (hlo : -Asset.maxAmount ≤ a.amount + b.amount)
    (hhi : a.amount + b.amount ≤ Asset.maxAmount) :
    InRange (a.add b) (fun c => c = ⟨a.amount + b.amount, a.symbol⟩) := by
  unfold Asset.add InRange
  refine (inRange_check (by decide)).bind (fun _ _ => ?_)
  rw [check_of hlo, ok_bind, check_of hhi, ok_bind]
  exact outcome_ok rfl

theorem inRange_sub {a b : Asset} (hlo : -Asset.maxAmount ≤ a.amount - b.amount)
    (hhi : a.amount - b.amount ≤ Asset.maxAmount) :
    InRange (a.sub b) (fun c => c = ⟨a.amount - b.amount, a.symbol⟩) := by
  unfold Asset.sub InRange
  refine (inRange_check (by decide)).bind (fun _ _ => ?_)
  rw [check_of hlo, ok_bind, check_of hhi, ok_bind]
  exact outcome_ok rfl

theorem inRange_le (a b : Asset) : InRange (a.le b) (fun _ => True) := by
  unfold Asset.le
  exact (inRange_check (by decide)).bind (fun _ _ => outcome_ok trivial)

theorem inRange_requireAuth (auths : List PermissionLevel) (account : Name) :
    InRange (requireAuth auths account) (fun _ => True) :=
  (inRange_check (by decide)).mono (fun _ _ => trivial) (fun _ h => h)

end VDexNode.Eosio
