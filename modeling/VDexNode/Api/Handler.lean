import Mathlib.Data.List.AList

/-!
# VDexNode.Api.Handler — the node directory and the chat readers of the API

The node keeps what its peers announce in one map, keyed by node id; the DHT calls `value_cb` once
for each value that appears and once for each that expires.  A chat reader hands the messages queued
for its room to the HTTP layer, one line of JSON each, through `Read::read`.

The decoding of an announced value and the JSON of a message are those of the serialisation
libraries: `decode` and `toJson` stand for them.
-/

namespace VDexNode.Api

/-! ## The node directory -/

/-- What a node announces of itself. -/
structure EosNodeInfo where
  id : String
  ips : List String
  key : String
  publicKey : String
deriving DecidableEq, Repr

/-- `EosNode::nodes`. -/
abbrev Nodes := AList (fun _ : String => EosNodeInfo)

/-- The callback of `listen` on `eos`: a value that decodes is stored under its id, or what is
stored under its id is removed. -/
def valueCb {V : Type} (decode : V → Option EosNodeInfo) (nodes : Nodes) (v : V) (expired : Bool) :
    Nodes :=
  match decode v with
  | some node => if expired then nodes.erase node.id else nodes.insert node.id node
  | none => nodes

/-- `get_connected_nodes`: node ids with their EOS keys. -/
def getConnectedNodes (nodes : Nodes) : AList (fun _ : String => String) :=
  nodes.entries.foldl (fun result e => result.insert e.1 e.2.key) ∅

/-- `node.ips.get(0)`. -/
def EosNodeInfo.firstIp (node : EosNodeInfo) : Option String := node.ips[0]?

/-- `get_connected_ips`, with the entries of the map in the order they come in: first ips with EOS
keys.  A node without ips makes it panic. -/
def getConnectedIps (order : List (Sigma (fun _ : String => EosNodeInfo))) :
    Option (AList (fun _ : String => String)) :=
  order.foldlM (fun result e => do
    let ip ← e.2.firstIp
    return result.insert ip e.2.key) ∅

/-! ## Chat readers -/

/-- A message of a chat room. -/
structure ChatMessage where
  author : String
  body : String
  encrypted : Bool
deriving DecidableEq, Repr

/-- What `read` uses of a reader: the queue and its lock, and the flag `drop` sets. -/
structure ChatReader where
  chat : List ChatMessage := []
  poisoned : Bool := false
  stopped : Bool := false
deriving DecidableEq, Repr

/-- How a call of `read` ends. -/
inductive ReadResult where
  | ok (n : ℕ)
  | panic
deriving DecidableEq, Repr

/-- `'\n'`. -/
def newline : UInt8 := 10

/-- `ChatReader::read` into a buffer of `len` bytes: how it ends, the buffer and the reader.

`clone_from_slice` takes a slice of the length of its target and panics on any other; the lock is
held there. -/
def ChatReader.read (toJson : ChatMessage → Option (List UInt8)) (r : ChatReader) (len : ℕ) :
    ReadResult × List UInt8 × ChatReader :=
  let buf := List.replicate len 0
  if r.stopped then (.ok 0, buf, r)
  else if r.poisoned then (.panic, buf, r)
  else match r.chat with
    | [] => (.ok len, buf, r)
    | front :: rest =>
      match toJson front with
      | none => (.ok 0, buf, { r with chat := rest })
      | some json =>
        let message := json ++ [newline]
        let read := min len message.length
        if read ≠ message.length then (.panic, buf, { r with poisoned := true })
        else
          let buf := message ++ buf.drop read
          if read < message.length then (.ok 0, buf, r)
          else (.ok len, buf, { r with chat := rest })

/-- The callback of a joined room queues a message, if it gets the lock. -/
def ChatReader.push (r : ChatReader) (msg : ChatMessage) : ChatReader :=
  if r.poisoned then r else { r with chat := r.chat ++ [msg] }

end VDexNode.Api
