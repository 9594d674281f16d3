import VDexNode.Api.Server
import VDexNode.Mpt.Sign

/-!
# VDexNode.Mpt.Client — clients of the message store

`generate_key.rs` and `sign.rs` sign up and then go through their rounds; in each they send what
they have computed, to all or to each of the others, and poll for the entries of the others.  The
server answers one request at a time, so a run of several clients is a sequence of requests: `step`
lets one client make its next one.  An entry of which the poll finds nothing is asked for again.

What a client computes from its reads is left open: a `Program` sends any function of its signup and
of what it has read in the rounds before.
-/

namespace VDexNode.Mpt

open Api

/-- `generate_key.rs` or `sign.rs`. -/
inductive Kind where
  | keygen
  | sign
deriving DecidableEq, Repr

/-- A round: its name, and whether its messages go from party to party. -/
structure Round where
  name : String
  p2p : Bool
deriving DecidableEq, Repr

/-- The rounds of `main`. -/
def Kind.rounds : Kind → List Round
  | .keygen => [⟨"round1", false⟩, ⟨"round2", false⟩, ⟨"round3", true⟩, ⟨"round4", false⟩,
      ⟨"round5", false⟩]
  | .sign => [⟨"round0", false⟩, ⟨"round1", false⟩, ⟨"round2", true⟩, ⟨"round3", false⟩,
      ⟨"round4", false⟩, ⟨"round5", false⟩, ⟨"round6", false⟩, ⟨"round7", false⟩,
      ⟨"round8", false⟩, ⟨"round9", false⟩]

/-- `PARTIES`, or `THRESHOLD + 1`. -/
def Kind.parties : Kind → Params → ℕ
  | .keygen, params => params.parties
  | .sign, params => params.threshold + 1

/-- The endpoint that `signup` posts to. -/
def Kind.signup (S : Setup) : Kind → Api.Node → Result (Api.Node × PartySignup)
  | .keygen => signupKeygen S
  | .sign => signupSign S

/-- What a client sends, from its signup and its reads so far; `p2p` for each addressee. -/
structure Program (M : Type) where
  kind : Kind
  broadcast : PartySignup → List (List M) → M
  p2p : PartySignup → List (List M) → ℕ → M

/-- The server, the JSON of the messages, and the clients. -/
structure Network (M : Type) where
  setup : Setup
  json : Json M
  program : ℕ → Program M

/-- Where a client is in a round: the messages it has sent, or the entries it has read. -/
inductive Stage where
  | posting (sent : ℕ)
  | polling (ansVec : List String)
deriving DecidableEq, Repr

/-- The variables of a client that has signed up; `past` are the vectors of the rounds before. -/
structure Locals (M : Type) where
  signup : PartySignup
  past : List (List M)
  stage : Stage

/-- The node and the clients; a client without variables has not signed up. -/
structure World (M : Type) where
  node : Api.Node
  clients : ℕ → Option (Locals M)

/-- What happens in a step: a client `a` gets a number, posts a message, builds the vector of a
round, or has read the messages addressed to it. -/
inductive Event (M : Type) where
  | signedUp (kind : Kind) (a : ℕ) (signup : PartySignup)
  | posted (a : ℕ) (signup : PartySignup) (round dest : String) (m : M)
  | built (a : ℕ) (signup : PartySignup) (round : String) (vec : List M)
  | received (a : ℕ) (signup : PartySignup) (round : String) (ansVec : List M)

section Client

variable {M : Type} (N : Network M)

/-- The kind of a client. -/
def Network.kind (a : ℕ) : Kind := (N.program a).kind

/-- The number of parties in a session of a client. -/
def Network.parties (a : ℕ) : ℕ := (N.kind a).parties N.setup.params

/-- The key of an entry of the party `number`. -/
def entryKey (uuid : String) (number : ℕ) (round dest : String) : TupleKey :=
  ⟨toString number, round, uuid, dest⟩

/-- The addressees of a round, in the order of the requests: one broadcast, or each of the
others. -/
def dests (n : ℕ) (signup : PartySignup) (r : Round) : List String :=
  if r.p2p then (others n signup.number).map (fun i => toString i) else [""]

/-- The messages of a round, in the order of the requests: `broadcast` or `sendp2p`. -/
def outbox (prog : Program M) (n : ℕ) (l : Locals M) (r : Round) : List (String × M) :=
  if r.p2p then
    (others n l.signup.number).map (fun i => (toString i, prog.p2p l.signup l.past i))
  else
    [("", prog.broadcast l.signup l.past)]

/-- The key that `poll_for_broadcasts` or `poll_for_p2p` asks for at party `i`. -/
def inboxKey (signup : PartySignup) (r : Round) (i : ℕ) : TupleKey :=
  entryKey signup.uuid i r.name (if r.p2p then toString signup.number else "")

/-- The variables of one client change. -/
def World.put (s : World M) (a : ℕ) (l : Locals M) : World M :=
  { s with clients := Function.update s.clients a (some l) }

/-- The end of a poll: the entries are decoded, and a broadcast round puts the own value back in its
place. -/
def finish (a : ℕ) (l : Locals M) (r : Round) (ansVec : List String) :
    Result (List M × Event M) := do
  let values ← ansVec.mapM (fun v => unwrap (N.json.fromStr v))
  if r.p2p then
    return (values, .received a l.signup r.name values)
  else
    let vec ← formatVecFromReads values l.signup.number ((N.program a).broadcast l.signup l.past)
    return (vec, .built a l.signup r.name vec)

/-- Client `a` makes its next request, or goes from one loop of a round to the next. -/
def step (s : World M) (a : ℕ) : Result (World M × List (Event M)) :=
  match s.clients a with
  | none => do
    let (node, signup) ← (N.kind a).signup N.setup s.node
    return ({ s with node }.put a ⟨signup, [], .posting 0⟩, [.signedUp (N.kind a) a signup])
  | some l =>
    match (N.kind a).rounds[l.past.length]? with
    | none => .ok (s, [])
    | some r =>
      match l.stage with
      | .posting sent =>
        match (outbox (N.program a) (N.parties a) l r)[sent]? with
        | some (dest, m) =>
          let key := entryKey l.signup.uuid l.signup.number r.name dest
          let node := Api.set s.node key (N.json.toString m)
          .ok ({ s with node }.put a { l with stage := .posting (sent + 1) },
            [.posted a l.signup r.name dest m])
        | none => .ok (s.put a { l with stage := .polling [] }, [])
      | .polling ansVec =>
        match (others (N.parties a) l.signup.number)[ansVec.length]? with
        | some i =>
          match Api.get s.node (inboxKey l.signup r i) with
          | some v => .ok (s.put a { l with stage := .polling (ansVec ++ [v]) }, [])
          | none => .ok (s, [])
        | none => do
          let (vec, event) ← finish N a l r ansVec
          return (s.put a { l with past := l.past ++ [vec], stage := .posting 0 }, [event])

/-- The node after `Server::run`, and no client signed up. -/
def init : World M := { node := announce N.setup, clients := fun _ => none }

/-! ## What a step does -/

variable {N} in
/-- The cases of `step`. -/
inductive Move (s : World M) (a : ℕ) : World M → List (Event M) → Prop where
  | signup {node : Api.Node} {p : PartySignup} (hnone : s.clients a = none)
      (hsign : (N.kind a).signup N.setup s.node = .ok (node, p)) :
      Move s a ({ s with node }.put a ⟨p, [], .posting 0⟩) [.signedUp (N.kind a) a p]
  | stay : Move s a s []
  | post {l : Locals M} {r : Round} {sent : ℕ} {dest : String} {m : M} (hl : s.clients a = some l)
      (hr : (N.kind a).rounds[l.past.length]? = some r) (hstage : l.stage = .posting sent)
      (hout : (outbox (N.program a) (N.parties a) l r)[sent]? = some (dest, m)) :
      Move s a ({ s with
          node := Api.set s.node (entryKey l.signup.uuid l.signup.number r.name dest)
            (N.json.toString m) }.put a { l with stage := .posting (sent + 1) })
        [.posted a l.signup r.name dest m]
  | turn {l : Locals M} {r : Round} {sent : ℕ} (hl : s.clients a = some l)
      (hr : (N.kind a).rounds[l.past.length]? = some r) (hstage : l.stage = .posting sent)
      (hout : (outbox (N.program a) (N.parties a) l r)[sent]? = none) :
      Move s a (s.put a { l with stage := .polling [] }) []
  | read {l : Locals M} {r : Round} {ansVec : List String} {i : ℕ} {v : String}
      (hl : s.clients a = some l) (hr : (N.kind a).rounds[l.past.length]? = some r)
      (hstage : l.stage = .polling ansVec)
      (hi : (others (N.parties a) l.signup.number)[ansVec.length]? = some i)
      (hv : Api.get s.node (inboxKey l.signup r i) = some v) :
      Move s a (s.put a { l with stage := .polling (ansVec ++ [v]) }) []
  | finish {l : Locals M} {r : Round} {ansVec : List String} {vec : List M} {event : Event M}
      (hl : s.clients a = some l) (hr : (N.kind a).rounds[l.past.length]? = some r)
      (hstage : l.stage = .polling ansVec)
      (hi : (others (N.parties a) l.signup.number)[ansVec.length]? = none)
      (hfinish : finish N a l r ansVec = .ok (vec, event)) :
      Move s a (s.put a { l with past := l.past ++ [vec], stage := .posting 0 }) [event]

variable {N}

/-- Every step is one of the cases. -/
theorem move_of_step {s s' : World M} {a : ℕ} {out : List (Event M)}
    (h : step N s a = .ok (s', out)) : Move (N := N) s a s' out := by
  rw [step] at h
  cases hl : s.clients a with
  | none =>
    rw [hl] at h
    obtain ⟨⟨node, p⟩, hsign, h⟩ := bind_eq_ok.mp h
    cases h
    exact .signup hl hsign
  | some l =>
    rw [hl] at h
    cases hr : (N.kind a).rounds[l.past.length]? with
    | none =>
      simp only [hr] at h
      cases h
      exact .stay
    | some r =>
      simp only [hr] at h
      cases hstage : l.stage with
      | posting sent =>
        simp only [hstage] at h
        cases hout : (outbox (N.program a) (N.parties a) l r)[sent]? with
        | some e =>
          simp only [hout] at h
          cases h
          exact .post hl hr hstage hout
        | none =>
          simp only [hout] at h
          cases h
          exact .turn hl hr hstage hout
      | polling ansVec =>
        simp only [hstage] at h
        cases hi : (others (N.parties a) l.signup.number)[ansVec.length]? with
        | some i =>
          simp only [hi] at h
          cases hv : Api.get s.node (inboxKey l.signup r i) with
          | some v =>
            simp only [hv] at h
            cases h
            exact .read hl hr hstage hi hv
          | none =>
            simp only [hv] at h
            cases h
            exact .stay
        | none =>
          simp only [hi] at h
          obtain ⟨⟨vec, event⟩, hfinish, h⟩ := bind_eq_ok.mp h
          cases h
          exact .finish hl hr hstage hi hfinish

end Client

end VDexNode.Mpt
