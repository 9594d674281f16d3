import Mathlib.Logic.Function.Basic
import VDexNode.Mpt.Libraries

/-!
# VDexNode.Api.Server — the message store of `server.rs`

The API keeps the messages of key generation and signing in the DHT, under keys of four strings and
the id of the node; `set` and `get` reach every key, and `signup_keygen` and `signup_sign` count the
parties of a session in one record each.  A request holds the handler lock from its first access to
the store to its last.

A node has one id, so the store is a function of the four strings.  The uuids are those of a
generator that never repeats, and `serde_json` reads back what it has written.
-/

namespace VDexNode.Api

open Mpt (Result unwrap)

/-- `TupleKey`. -/
structure TupleKey where
  first : String
  second : String
  third : String
  fourth : String
deriving DecidableEq, Repr

/-- `PartySignup`. -/
structure PartySignup where
  number : ℕ
  uuid : String
deriving DecidableEq, Repr

/-- `config/server.conf`. -/
structure Params where
  parties : ℕ
  threshold : ℕ
deriving DecidableEq, Repr

/-- `serde_json` for one type. -/
structure Json (T : Type) where
  toString : T → String
  fromStr : String → Option T
  fromStr_toString : ∀ x, fromStr (toString x) = some x

theorem Json.toString_inj {T : Type} (json : Json T) {x y : T}
    (h : json.toString x = json.toString y) : x = y := by
  have hread := json.fromStr_toString x
  rw [h, json.fromStr_toString] at hread
  exact (Option.some.inj hread).symm

/-- What the server is given: its configuration, the uuids it draws and the JSON of a record. -/
structure Setup where
  params : Params
  newV4 : ℕ → String
  newV4_injective : Function.Injective newV4
  json : Json PartySignup

/-- The store, and how many uuids have been drawn. -/
structure Node where
  store : TupleKey → Option String
  drawn : ℕ

/-! ## The store -/

/-- `set`. -/
def set (s : Node) (key : TupleKey) (value : String) : Node :=
  { s with store := Function.update s.store key (some value) }

/-- `get`. -/
def get (s : Node) (key : TupleKey) : Option String := s.store key

@[simp] theorem get_set_self (s : Node) (key : TupleKey) (value : String) :
    get (set s key value) key = some value := by
  show Function.update s.store key (some value) key = some value
  rw [Function.update_self]

theorem get_set_of_ne (s : Node) {key key' : TupleKey} (h : key' ≠ key) (value : String) :
    get (set s key value) key' = get s key' := by
  show Function.update s.store key (some value) key' = s.store key'
  rw [Function.update_of_ne h]

@[simp] theorem drawn_set (s : Node) (key : TupleKey) (value : String) :
    (set s key value).drawn = s.drawn := rfl

/-! ## Signup -/

/-- The record of key generation. -/
def keygenKey : TupleKey := ⟨"signup", "keygen", "", ""⟩

/-- The record of signing. -/
def signKey : TupleKey := ⟨"signup", "sign", "", ""⟩

/-- The body of both signup requests: the party after the last one of the session that is open, or
the first of a new session. -/
def signupUnder (S : Setup) (key : TupleKey) (parties : ℕ) (s : Node) :
    Result (Node × PartySignup) := do
  let value ← unwrap (get s key)
  let partyIMinus1Signup ← unwrap (S.json.fromStr value)
  if partyIMinus1Signup.number < parties then
    let partySignup : PartySignup := ⟨partyIMinus1Signup.number + 1, partyIMinus1Signup.uuid⟩
    return (set s key (S.json.toString partySignup), partySignup)
  else
    let partySignup : PartySignup := ⟨1, S.newV4 s.drawn⟩
    let s := { s with drawn := s.drawn + 1 }
    return (set s key (S.json.toString partySignup), partySignup)

/-- `signup_keygen`. -/
def signupKeygen (S : Setup) (s : Node) : Result (Node × PartySignup) :=
  signupUnder S keygenKey S.params.parties s

/-- `signup_sign`. -/
def signupSign (S : Setup) (s : Node) : Result (Node × PartySignup) :=
  signupUnder S signKey (S.params.threshold + 1) s

/-- The records that `Server::run` inserts before it launches. -/
def announce (S : Setup) : Node :=
  let s : Node := { store := fun _ => none, drawn := 2 }
  let s := set s keygenKey (S.json.toString ⟨0, S.newV4 0⟩)
  set s signKey (S.json.toString ⟨0, S.newV4 1⟩)

end VDexNode.Api
