import Mathlib.Algebra.Group.Nat.Defs
import Mathlib.Order.Defs.LinearOrder
import Mathlib.Order.Lattice
import VDexNode.Lib.Machine

/-!
# VDexNode.Eosio.Basic — names, authorities and checks of the chain

What every contract of the repository uses of the chain: account names, the authorities of an
action, `check`, and the block time.  A contract action is a value of `Result`: it returns, or
aborts with the text of the check that failed, and an aborted transaction changes nothing.
-/

namespace VDexNode.Eosio

/-! ## Names -/

/-- `eosio::name`: a 64-bit account or permission name. -/
structure Name where
  value : ℕ
deriving DecidableEq, Repr, Inhabited

namespace Name

theorem value_injective : Function.Injective Name.value := fun a b h => by
  cases a; cases b; cases h; rfl

/-- Tables are ordered by the 64-bit value of a name. -/
instance : LinearOrder Name := LinearOrder.lift' Name.value value_injective

/-- `name::char_to_value`. -/
def charToValue (c : Char) : ℕ :=
  if '1' ≤ c ∧ c ≤ '5' then c.toNat - '1'.toNat + 1
  else if 'a' ≤ c ∧ c ≤ 'z' then c.toNat - 'a'.toNat + 6
  else 0

/-- The name written as `s`, at most twelve characters: five bits each, left-aligned above the four
bits of a thirteenth. -/
def ofString (s : String) : Name :=
  ⟨s.toList.foldl (fun v c => v * 32 + charToValue c) 0 * 2 ^ (5 * (12 - s.length)) * 16⟩

/-- The letters of `name`, by five-bit value. -/
def charmap : List Char := ".12345abcdefghijklmnopqrstuvwxyz".toList

/-- `name::to_string`: twelve characters of five bits and one of four, without the final dots. -/
def toString (n : Name) : String :=
  let digits := (List.range 12).map (fun i => n.value / 2 ^ (59 - 5 * i) % 32) ++ [n.value % 16]
  String.ofList ((digits.reverse.dropWhile (· = 0)).reverse.map (fun d => charmap.getD d '.'))

end Name

/-- The permission every inline action of the repository is sent with. -/
def active : Name := Name.ofString "active"

/-- `eosio::permission_level`. -/
structure PermissionLevel where
  actor : Name
  permission : Name
deriving DecidableEq, Repr

/-! ## Checks -/

/-- The outcome of an action: a value, or the text of the failed check. -/
abbrev Result := Except String

/-- `eosio::check`. -/
def check (p : Prop) [Decidable p] (msg : String) : Result Unit :=
  if p then .ok () else .error msg

@[simp] theorem check_eq_ok {p : Prop} [Decidable p] {msg : String} {u : Unit} :
    check p msg = .ok u ↔ p := by
  unfold check
  split <;> simp [*]

@[simp] theorem check_eq_error {p : Prop} [Decidable p] {msg e : String} :
    check p msg = .error e ↔ ¬ p ∧ msg = e := by
  unfold check
  split <;> simp [*]

theorem check_of {p : Prop} [Decidable p] (hp : p) (msg : String) : check p msg = .ok () :=
  check_eq_ok.mpr hp

theorem outcome_check {p : Prop} [Decidable p] {msg : String} {E : String → Prop}
    (hE : ¬ p → E msg) : Outcome (check p msg) (fun _ => p) E :=
  ⟨fun _ h => check_eq_ok.mp h, fun _ h => by
    obtain ⟨hp, rfl⟩ := check_eq_error.mp h
    exact hE hp⟩

/-! ## Authorities -/

/-- `has_auth`: the action carries some permission of `account`. -/
def hasAuth (auths : List PermissionLevel) (account : Name) : Prop :=
  ∃ p ∈ auths, p.actor = account

instance (auths : List PermissionLevel) (account : Name) : Decidable (hasAuth auths account) :=
  inferInstanceAs (Decidable (∃ p ∈ auths, p.actor = account))

/-- `require_auth(name)`. -/
def requireAuth (auths : List PermissionLevel) (account : Name) : Result Unit :=
  check (hasAuth auths account) "missing authority"

/-- `require_auth(permission_level)`. -/
def requireAuthLevel (auths : List PermissionLevel) (level : PermissionLevel) : Result Unit :=
  check (level ∈ auths) "missing authority"

/-- What an action is called with: the authorities it carries and the block time in seconds since
the epoch (a `uint32_t`). -/
structure Ctx where
  auths : List PermissionLevel
  now : ℕ
deriving DecidableEq, Repr

end VDexNode.Eosio
