import Mathlib.Data.List.AList
import VDexNode.Lib.JsonText

/-!
# VDexNode.Api.Bitcoin — the multisig requests and the keys they name

`createmultisig` and `addmultisigaddress` run `bitcoin-cli` with the number of signatures and a JSON
array of the keys, which they put together by hand.  The array is read as the keys of the request
exactly when no key has anything to escape (`namesKeys_iff`).

Running a command and decoding its answer are those of the system and of `serde_json`: `Cli`
stands for them.
-/

namespace VDexNode.Api

/-- `HashMap<String, String>`. -/
abbrev Reply := AList (fun _ : String => String)

/-- What `Command` is given to run. -/
structure Invocation where
  app : String
  args : List String
deriving DecidableEq, Repr

/-- What a command that ran leaves; `status` is the text its exit status is shown as. -/
structure Output where
  success : Bool
  status : String
  stdout : ByteArray

/-- `MultiSig`. -/
structure MultiSig where
  address : String
  redeemScript : String
deriving DecidableEq, Repr

/-- `Command::output`, with the text of its error, and `serde_json` for `MultiSig`. -/
structure Cli where
  output : Invocation → Except String Output
  fromStr : String → Option MultiSig

/-- `Bitcoin`. -/
structure Bitcoin where
  app : String
  rpcuser : String
  rpcpassword : String
  rpcport : String
  rpcconnect : String
deriving DecidableEq, Repr

/-- `SignRequest`. -/
structure SignRequest where
  n : UInt32
  keys : List String
deriving DecidableEq, Repr

namespace Bitcoin

/-! ## Commands -/

/-- `char::is_whitespace`. -/
def isWhitespace (c : Char) : Bool :=
  let n := c.toNat
  (0x09 ≤ n && n ≤ 0x0D) || n == 0x20 || n == 0x85 || n == 0xA0 || n == 0x1680 ||
    (0x2000 ≤ n && n ≤ 0x200A) || n == 0x2028 || n == 0x2029 || n == 0x202F || n == 0x205F ||
    n == 0x3000

/-- `trimmed_output`. -/
def trimmedOutput (toTrim : ByteArray) : String :=
  let toTrim := ((String.fromUTF8? toTrim).getD "").toList
  String.ofList ((toTrim.dropWhile isWhitespace).reverse.dropWhile isWhitespace).reverse

/-- `exec_command`: what is run, and its trimmed output or the text of the error. -/
def execCommand (cli : Cli) (b : Bitcoin) (cmd : String) (args : List String) :
    Invocation × Except String String :=
  let invocation : Invocation :=
    { app := b.app
      args := ["-rpcconnect=" ++ b.rpcconnect, "-regtest", "-rpcuser=" ++ b.rpcuser,
        "-rpcpassword=" ++ b.rpcpassword, "-rpcport=" ++ b.rpcport, cmd] ++ args }
  (invocation, do
    let output ← cli.output invocation
    if !output.success then .error output.status
    else return trimmedOutput output.stdout)

/-- One turn of the loop over the keys: `idx` keys are written, of `len`. -/
def writeKey (len : ℕ) (s : String × ℕ) (key : String) : String × ℕ :=
  let idx := s.2 + 1
  let keysStr := s.1 ++ ("\"" ++ key ++ "\"")
  if idx ≠ len then (keysStr ++ ", ", idx) else (keysStr, idx)

/-- `keys_str`. -/
def keysStr (keys : List String) : String :=
  (keys.foldl (writeKey keys.length) ("[", 0)).1 ++ "]"

/-- The body of `createmultisig` and `addmultisigaddress`: what is run, and the reply. -/
def multisig (cli : Cli) (b : Bitcoin) (cmd : String) (n : UInt32) (keys : List String) :
    Invocation × Reply :=
  let (invocation, outcome) := execCommand cli b cmd [toString n, keysStr keys]
  let result : Reply := ∅
  (invocation, match outcome with
    | .ok output =>
      if output.isEmpty then result.insert "err" "No multisig address generated by bitcoind"
      else
        let ms := (cli.fromStr output).getD ⟨"", ""⟩
        if !ms.address.isEmpty then
          (result.insert "address" ms.address).insert "redeemScript" ms.redeemScript
        else result.insert "err" "Can't parse multisig result"
    | .error e => result.insert "err" e)

/-- `Bitcoin::createmultisig`. -/
def createmultisig (cli : Cli) (b : Bitcoin) (n : UInt32) (keys : List String) :
    Invocation × Reply :=
  multisig cli b "createmultisig" n keys

/-- `Bitcoin::addmultisigaddress`. -/
def addmultisigaddress (cli : Cli) (b : Bitcoin) (n : UInt32) (keys : List String) :
    Invocation × Reply :=
  multisig cli b "addmultisigaddress" n keys

end Bitcoin

/-- The request `createmultisig`. -/
def createmultisig (cli : Cli) (b : Bitcoin) (signrequest : SignRequest) : Invocation × Reply :=
  b.createmultisig cli signrequest.n signrequest.keys

/-- The request `addmultisigaddress`. -/
def addmultisigaddress (cli : Cli) (b : Bitcoin) (signrequest : SignRequest) :
    Invocation × Reply :=
  b.addmultisigaddress cli signrequest.n signrequest.keys

/-! ## The keys argument -/

open JsonText

theorem toList_writeKey (s key : String) :
    (s ++ ("\"" ++ key ++ "\"")).toList = s.toList ++ quoted key.toList := by
  have hquote : "\"".toList = [quote] := by decide
  rw [String.toList_append, String.toList_append, String.toList_append, hquote, quoted,
    List.singleton_append, List.cons_append]

/-- The loop from a key on: it and the keys after it, with a comma before each of these. -/
theorem foldl_writeKey (len : ℕ) : ∀ (keys : List String) (key s : String) (idx : ℕ),
    idx + (keys.length + 1) = len →
      (((key :: keys).foldl (Bitcoin.writeKey len) (s, idx)).1 ++ "]").toList =
        s.toList ++ (quoted key.toList ++ closing (keys.map String.toList))
  | [], key, s, idx, hlen => by
    have hlast : ¬ idx + 1 ≠ len := by simpa using hlen
    rw [List.foldl_cons, List.foldl_nil, Bitcoin.writeKey]
    simp only
    rw [if_neg hlast, String.toList_append, toList_writeKey, List.append_assoc]
    rfl
  | key' :: keys, key, s, idx, hlen => by
    have hmore : idx + 1 ≠ len := by
      rw [List.length_cons] at hlen
      omega
    have hstep : Bitcoin.writeKey len (s, idx) key =
        (s ++ ("\"" ++ key ++ "\"") ++ ", ", idx + 1) := by
      rw [Bitcoin.writeKey]
      simp only
      rw [if_pos hmore]
    have hsep : ", ".toList = [',', ' '] := by decide
    rw [List.foldl_cons, hstep, foldl_writeKey len keys key' _ (idx + 1)
      (by rw [List.length_cons] at hlen; omega), String.toList_append, toList_writeKey, hsep,
      List.append_assoc, List.append_assoc]
    rfl

/-- The argument is the array of the keys, each written as it is. -/
theorem toList_keysStr (keys : List String) :
    (Bitcoin.keysStr keys).toList = written (keys.map String.toList) := by
  cases keys with
  | nil => decide
  | cons key keys =>
    exact foldl_writeKey _ keys key "[" 0 (Nat.zero_add _)

/-- The array is the last argument, whatever comes of the command. -/
theorem getLast?_multisig (cli : Cli) (b : Bitcoin) (cmd : String) (n : UInt32)
    (keys : List String) :
    (b.multisig cli cmd n keys).1.args.getLast? = some (Bitcoin.keysStr keys) :=
  rfl

/-- The keys that a JSON text lists. -/
def readKeys (arg : String) : Option (List String) :=
  ((parse arg.toList).bind Value.asStrings).map (fun ks => ks.map String.ofList)

/-- Both requests hand over the same text, and read as JSON it is the list of the keys. -/
def NamesKeys (cli : Cli) (b : Bitcoin) (signrequest : SignRequest) : Prop :=
  ∃ arg, (createmultisig cli b signrequest).1.args.getLast? = some arg ∧
    (addmultisigaddress cli b signrequest).1.args.getLast? = some arg ∧
    readKeys arg = some signrequest.keys

theorem readKeys_eq_some {arg : String} {keys : List String} :
    readKeys arg = some keys ↔
      (parse arg.toList).bind Value.asStrings = some (keys.map String.toList) := by
  have hback : String.toList ∘ String.ofList = id := funext (fun _ => String.toList_ofList)
  have hforth : String.ofList ∘ String.toList = id := funext (fun _ => String.ofList_toList)
  rw [readKeys, Option.map_eq_some_iff]
  constructor
  · rintro ⟨ks, hks, rfl⟩
    rw [hks, List.map_map, hback, List.map_id]
  · intro h
    refine ⟨_, h, ?_⟩
    rw [List.map_map, hforth, List.map_id]

/-- **Multisig requests name exactly the requested keys** if and only if no key contains a quotation
mark, a backslash or a control character. -/
theorem namesKeys_iff (cli : Cli) (b : Bitcoin) (signrequest : SignRequest) :
    NamesKeys cli b signrequest ↔ ∀ key ∈ signrequest.keys, ∀ c ∈ key.toList, Plain c := by
  have hread : readKeys (Bitcoin.keysStr signrequest.keys) = some signrequest.keys ↔
      ∀ key ∈ signrequest.keys, ∀ c ∈ key.toList, Plain c := by
    rw [readKeys_eq_some, toList_keysStr, parse_written, List.forall_mem_map]
  constructor
  · rintro ⟨arg, harg, -, hkeys⟩
    rw [createmultisig, Bitcoin.createmultisig, getLast?_multisig] at harg
    obtain rfl := Option.some.inj harg
    exact hread.mp hkeys
  · intro h
    exact ⟨_, getLast?_multisig .., getLast?_multisig .., hread.mpr h⟩

/-- A `bitcoin-cli` on the node itself, that prints nothing. -/
def silentCli : Cli where
  output _ := .ok ⟨true, "exit code: 0", ByteArray.empty⟩
  fromStr _ := none

/-- The default options of the node. -/
def localBitcoin : Bitcoin := ⟨"bitcoin-cli", "", "", "8332", "localhost"⟩

/-- One key that ends its own quotation marks: `bitcoin-cli` is given two keys, and a `2` of `1`
becomes a `2` of `2`. -/
def forgedRequest : SignRequest := ⟨2, ["a\", \"b"]⟩

theorem forged_not_namesKeys :
    readKeys (Bitcoin.keysStr forgedRequest.keys) = some ["a", "b"] ∧
    ¬ NamesKeys silentCli localBitcoin forgedRequest := by
  have hread : readKeys (Bitcoin.keysStr forgedRequest.keys) = some ["a", "b"] := by
    decide +kernel
  refine ⟨hread, ?_⟩
  rintro ⟨arg, harg, -, hkeys⟩
  rw [createmultisig, Bitcoin.createmultisig, getLast?_multisig] at harg
  obtain rfl := Option.some.inj harg
  rw [hread] at hkeys
  revert hkeys
  decide

end VDexNode.Api
