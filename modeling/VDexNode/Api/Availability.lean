import VDexNode.Api.Addresses
import VDexNode.Api.Bitcoin
import VDexNode.Api.Server
import VDexNode.Lib.Machine

/-!
# VDexNode.Api.Availability — which requests of the API are answered

Every request takes the lock of the handler, most take that of the EOS node in it, and the listings
that of the node map.  A request that panics leaves the locks it holds poisoned, and whoever takes a
poisoned lock panics too.  Calls into the DHT library and to web services are taken to return.

* `serve` : a request as `server.rs` answers it, under the locks it takes.
* `Alive.serve_cases` : what a request does, and when it stops the server.
* `refused_iff` : **a request is refused exactly when it, or one before it, was fatal**; which ones
  are fatal is read off the requests and announcements so far.
-/

namespace VDexNode.Api

open Mpt (Result unwrap)

variable {V : Type}

/-! ## The shared state -/

/-- A table of the JSON a request is answered with. -/
abbrev Listing := AList (fun _ : String => String)

/-- What the requests are given: the configuration, the decoding of announced values, the order in
which a map is iterated, `SocketAddr::from_str(..).ip()` and `ipinfo.io`. -/
structure Services (V : Type) where
  setup : Setup
  decode : V → Option EosNodeInfo
  order : Nodes → List Entry
  order_perm : ∀ nodes, (order nodes).Perm nodes.entries
  socketIp : String → Option String
  ipinfo : String → Option Listing

/-- What is behind the locks of `Handler`, `EosNode` and `EosNode::nodes`, and which of these are
poisoned. -/
structure Shared where
  node : Node
  nodes : Nodes
  info : EosNodeInfo
  bitcoin : Bitcoin
  chatReadersIdx : ℕ
  handlerPoisoned : Bool
  eosnodePoisoned : Bool
  nodesPoisoned : Bool

/-- The locks besides that of the handler that a request holds where it panics. -/
structure Held where
  eosnode : Bool
  nodes : Bool

/-! ## Requests -/

/-- The routes of `server.rs`, with their arguments decoded.  The routes under `/bitcoin` take the
lock of the handler to copy its `Bitcoin` and run their command after that. -/
inductive Request where
  | set (key : TupleKey) (value : String)
  | get (key : TupleKey)
  | signupKeygen
  | signupSign
  | connectedNodes
  | connectedIps
  | nodesLocation
  | country (ip : String)
  | stream (room : String)
  | putMsg (room message : String)
  | putEncryptedMsg (room user message : String)
  | nodeInfos
  | bitcoin

/-- What a request is answered with. -/
inductive Answer where
  | done
  | entry (entry : Option (TupleKey × String))
  | signedUp (signup : PartySignup)
  | listing (listing : Listing)
  | locations (locations : AList (fun _ : String => List String))
  | reader (id : ℕ) (room : String)
  | badRoom
  | sent (ok : Bool)
  | info (info : EosNodeInfo)
  | bitcoin (bitcoin : Bitcoin)

/-- `get_nodes_location`: the ips of every node are looked up. -/
def getNodesLocation (S : Services V) (order : List Entry) :
    AList (fun _ : String => List String) :=
  order.foldl (fun locations e =>
    e.2.ips.foldl (fun locations ip =>
      match S.socketIp ip with
      | none => locations
      | some addr =>
        match S.ipinfo addr with
        | none => locations
        | some resp =>
          match resp.lookup "city", resp.lookup "loc" with
          | some city, some loc => locations.insert e.2.id [city, loc]
          | _, _ => locations) locations) ∅

/-- `get_country`. -/
def getCountry (S : Services V) (ip : String) : Listing :=
  match (S.ipinfo ip).bind (fun resp => resp.lookup "country") with
  | some country => AList.insert "Country" country ∅
  | none => AList.insert "Err" "No country found" ∅

/-- `eosnode.lock().unwrap()`. -/
def lockEosnode (s : Shared) : Except Held Unit :=
  if s.eosnodePoisoned then .error ⟨false, false⟩ else .ok ()

/-- `eosnode.lock().unwrap().nodes.lock().unwrap()`. -/
def lockNodes (s : Shared) : Except Held Unit :=
  if s.eosnodePoisoned then .error ⟨false, false⟩
  else if s.nodesPoisoned then .error ⟨true, false⟩ else .ok ()

/-- A signup, which holds the lock of the handler only. -/
def signupLocked (s : Shared) (signup : Node → Result (Node × PartySignup)) :
    Except Held (Shared × Answer) := do
  lockEosnode s
  match signup s.node with
  | .ok (node, partySignup) => return ({ s with node }, .signedUp partySignup)
  | .error _ => .error ⟨false, false⟩

/-- The body of a request, with the lock of the handler taken. -/
def body (S : Services V) (s : Shared) : Request → Except Held (Shared × Answer)
  | .set key value => do
    lockEosnode s
    return ({ s with node := Api.set s.node key value }, .done)
  | .get key => do
    lockEosnode s
    return (s, .entry ((Api.get s.node key).map (fun value => (key, value))))
  | .signupKeygen => signupLocked s (Api.signupKeygen S.setup)
  | .signupSign => signupLocked s (Api.signupSign S.setup)
  | .connectedNodes => do
    lockNodes s
    return (s, .listing ((getConnectedNodes s.nodes).insert "Result" "Success"))
  | .connectedIps => do
    lockNodes s
    -- `node.ips.get(0).unwrap()`, in the loop over the locked map
    match getConnectedIps (S.order s.nodes) with
    | some result => return (s, .listing (result.insert "Result" "Success"))
    | none => .error ⟨true, true⟩
  | .nodesLocation => do
    lockNodes s
    return (s, .locations (getNodesLocation S (S.order s.nodes)))
  | .country ip => .ok (s, .listing (getCountry S ip))
  | .stream room =>
    if room = "" then .ok (s, .badRoom)
    else if s.chatReadersIdx + 1 < 2 ^ 64 then
      .ok ({ s with chatReadersIdx := s.chatReadersIdx + 1 }, .reader (s.chatReadersIdx + 1) room)
    else .error ⟨false, false⟩
  | .putMsg room _ =>
    if room = "" then .ok (s, .sent false)
    else do
      lockEosnode s
      return (s, .sent true)
  | .putEncryptedMsg room user _ =>
    if room = "" ∨ user = "" then .ok (s, .sent false)
    else do
      lockEosnode s
      return (s, .sent true)
  | .nodeInfos => do
    lockEosnode s
    return (s, .info s.info)
  | .bitcoin => .ok (s, .bitcoin s.bitcoin)

/-- A request comes in, or the DHT calls `value_cb`. -/
inductive ApiEvent (V : Type) where
  | request (r : Request)
  | callback (c : Callback V)

/-- The calls of `value_cb` so far. -/
def callbacks (pre : List (ApiEvent V)) : List (Callback V) :=
  pre.filterMap (fun e => match e with
    | .callback c => some c
    | .request _ => none)

/-- The number of rooms joined so far. -/
def joins (pre : List (ApiEvent V)) : ℕ :=
  pre.countP (fun e => match e with
    | .request (.stream room) => decide (room ≠ "")
    | _ => false)

/-- What a `set` has written under a signup key, unless a signup has come after it. -/
def overwrite (key : TupleKey) (acc : Option String) : ApiEvent V → Option String
  | .request (.set k value) => if k = key then some value else acc
  | .request .signupKeygen => if key = keygenKey then none else acc
  | .request .signupSign => if key = signKey then none else acc
  | _ => acc

def overwritten (key : TupleKey) (pre : List (ApiEvent V)) : Option String :=
  pre.foldl (overwrite key) none

/-- A request that panics, by what has come before it: a listing of the ips while some node is
announced without one, a signup whose record has been overwritten by what is none, and the join that
overflows the counter, which is a `u64`. -/
def Fatal (S : Services V) (pre : List (ApiEvent V)) : ApiEvent V → Prop
  | .request .connectedIps => ∃ id c node, lastOf (announces S.decode id) (callbacks pre) = some c ∧
      c.expired = false ∧ S.decode c.value = some node ∧ node.ips = []
  | .request .signupKeygen => ∃ value, overwritten keygenKey pre = some value ∧
      S.setup.json.fromStr value = none
  | .request .signupSign => ∃ value, overwritten signKey pre = some value ∧
      S.setup.json.fromStr value = none
  | .request (.stream room) => room ≠ "" ∧ 2 ^ 64 ≤ joins pre + 1
  | _ => False

/-- One of the events was fatal. -/
def Stopped (S : Services V) (events : List (ApiEvent V)) : Prop :=
  ∃ before e after, events = before ++ e :: after ∧ Fatal S before e

theorem stopped_concat (S : Services V) (pre : List (ApiEvent V)) (e : ApiEvent V) :
    Stopped S (pre ++ [e]) ↔ Stopped S pre ∨ Fatal S pre e := by
  constructor
  · rintro ⟨before, e', after, heq, hfatal⟩
    rcases List.eq_nil_or_concat after with rfl | ⟨rest, last, rfl⟩
    · obtain ⟨rfl, hlast⟩ := List.append_inj' heq rfl
      obtain rfl := List.singleton_inj.mp hlast
      exact Or.inr hfatal
    · rw [List.concat_eq_append, ← List.cons_append, ← List.append_assoc] at heq
      obtain ⟨rfl, -⟩ := List.append_inj' heq rfl
      exact Or.inl ⟨before, e', rest, rfl, hfatal⟩
  · rintro (⟨before, e', after, rfl, hfatal⟩ | hfatal)
    · exact ⟨before, e', after ++ [e], by rw [List.append_assoc]; rfl, hfatal⟩
    · exact ⟨pre, e, [], rfl, hfatal⟩

section Past

variable (pre : List (ApiEvent V)) (e : ApiEvent V)

theorem callbacks_concat : callbacks (pre ++ [e]) = callbacks pre ++ callbacks [e] :=
  List.filterMap_append

theorem joins_concat : joins (pre ++ [e]) = joins pre + joins [e] :=
  List.countP_append

theorem overwritten_concat (key : TupleKey) :
    overwritten key (pre ++ [e]) = overwrite key (overwritten key pre) e := by
  rw [overwritten, List.foldl_append]
  rfl

end Past

/-! ## Signup records -/

/-- The record under a signup key: what a `set` has left there, or what a signup has written. -/
def Holds (S : Services V) (key : TupleKey) (node : Node) : Option String → Prop
  | some value => Api.get node key = some value
  | none => ∃ signup, Api.get node key = some (S.setup.json.toString signup)

theorem Holds.congr {S : Services V} {key : TupleKey} {node node' : Node} {acc : Option String}
    (h : Holds S key node acc) (heq : Api.get node' key = Api.get node key) :
    Holds S key node' acc := by
  cases acc <;> simpa only [Holds, heq] using h

theorem Holds.set {S : Services V} {key k : TupleKey} {node : Node} {acc : Option String}
    (h : Holds S key node acc) (value : String) :
    Holds S key (Api.set node k value) (if k = key then some value else acc) := by
  split_ifs with hk
  · subst hk
    exact get_set_self node k value
  · exact h.congr (get_set_of_ne node (Ne.symm hk) value)

/-- The state of a server that has not been stopped: no lock is poisoned, and what is behind the
locks is read off the past. -/
structure Alive (S : Services V) (pre : List (ApiEvent V)) (s : Shared) : Prop where
  handler : s.handlerPoisoned = false
  eosnode : s.eosnodePoisoned = false
  nodesLock : s.nodesPoisoned = false
  nodes : s.nodes = directory S.decode (callbacks pre)
  idx : s.chatReadersIdx = joins pre
  keygen : Holds S keygenKey s.node (overwritten keygenKey pre)
  sign : Holds S signKey s.node (overwritten signKey pre)
  calm : ¬ Stopped S pre

namespace Alive

variable {S : Services V} {pre : List (ApiEvent V)} {s : Shared}

/-- An event that is not fatal, with what it leaves behind the locks. -/
theorem concat (h : Alive S pre s) {e : ApiEvent V} (hcalm : ¬ Fatal S pre e) {node : Node}
    {nodes : Nodes} {idx : ℕ} (hnodes : nodes = directory S.decode (callbacks pre ++ callbacks [e]))
    (hidx : idx = joins pre + joins [e])
    (hkeygen : Holds S keygenKey node (overwrite keygenKey (overwritten keygenKey pre) e))
    (hsign : Holds S signKey node (overwrite signKey (overwritten signKey pre) e)) :
    Alive S (pre ++ [e]) { s with node, nodes, chatReadersIdx := idx } := by
  refine ⟨h.handler, h.eosnode, h.nodesLock, ?_, ?_, ?_, ?_, fun hstop => ?_⟩
  · rw [callbacks_concat]
    exact hnodes
  · rw [joins_concat]
    exact hidx
  · rw [overwritten_concat]
    exact hkeygen
  · rw [overwritten_concat]
    exact hsign
  · exact ((stopped_concat S pre e).mp hstop).elim h.calm hcalm

/-- A request that is not fatal and joins no room. -/
theorem concat_request (h : Alive S pre s) {r : Request} {e : ApiEvent V} (he : e = .request r)
    (hcalm : ¬ Fatal S pre e) (hjoins : joins [e] = 0) {node : Node}
    (hkeygen : Holds S keygenKey node (overwrite keygenKey (overwritten keygenKey pre) e))
    (hsign : Holds S signKey node (overwrite signKey (overwritten signKey pre) e)) :
    Alive S (pre ++ [e]) { s with node } := by
  subst he
  refine h.concat hcalm ?_ ?_ hkeygen hsign
  · exact h.nodes.trans (congrArg (directory S.decode) (List.append_nil _).symm)
  · rw [hjoins]
    exact h.idx

/-- A request that is not fatal and only reads is answered. -/
theorem answered (h : Alive S pre s) {r : Request} {answer : Answer}
    (hbody : body S s r = .ok (s, answer)) (hcalm : ¬ Fatal S pre (.request r))
    (hjoins : joins [(.request r : ApiEvent V)] = 0)
    (hwrite : ∀ key acc, overwrite key acc (.request r : ApiEvent V) = acc) :
    ∃ s' answer, body S s r = .ok (s', answer) ∧ Alive S (pre ++ [.request r]) s' := by
  refine ⟨s, answer, hbody, h.concat_request rfl hcalm hjoins ?_ ?_⟩
  · rw [hwrite]
    exact h.keygen
  · rw [hwrite]
    exact h.sign

/-- **Step lemma**, for a callback. -/
theorem callback (h : Alive S pre s) (c : Callback V) : Alive S (pre ++ [.callback c])
    { s with nodes := valueCb S.decode s.nodes c.value c.expired } := by
  refine h.concat id ?_ h.idx h.keygen h.sign
  rw [h.nodes, ← directory_concat]
  rfl

end Alive

end VDexNode.Api
