import VDexNode.Mpt.Sessions

/-!
# VDexNode.Mpt.Retries — signup requests that are sent again

`postb` sends a request once more when `send` fails, whether the server has handled it or not; the
server counts a signup each time.

* `Dispensed` : the record of a kind counts the numbers handed out in the session that is open.
* `Held` : a client has the number of the one request of its that was answered.
* `postSignup_ok` : the server handles every signup; a step of a client keeps both.
* `signup_exactly_once` : **the clients hold the numbers of a session without gaps exactly when no
  answer of the session got lost.**
* `signup_lost` : a lost answer is sent for again, and its number is held by nobody.
-/

namespace VDexNode.Mpt

open Api

/-! ## Requests -/

/-- What becomes of a request: it does not reach the server, and `send` fails; its answer arrives,
or is lost, and `send` fails, or breaks off, and `text` does. -/
inductive Delivery where
  | unsent
  | answered
  | lost
  | broken
deriving DecidableEq, Repr

/-- A client in the loop of `postb`, with its variable `_i`; with its answer; or after a failed
`unwrap`. -/
inductive Caller where
  | trying (i : ℕ)
  | answered (signup : PartySignup)
  | panicked
deriving DecidableEq, Repr

/-- `retries`. -/
def retries : ℕ := 3

/-- `for _i in 1..retries`, after `send` has failed; `postb` ends in `None`, which is unwrapped. -/
def Caller.again (i : ℕ) : Caller := if i + 1 < retries then .trying (i + 1) else .panicked

/-- The client of a request that the server has handled. -/
def Delivery.caller (d : Delivery) (i : ℕ) (signup : PartySignup) : Caller :=
  match d with
  | .answered => .answered signup
  | .broken => .panicked
  | .unsent => .again i
  | .lost => .again i

/-- The node and the clients. -/
structure Lobby where
  node : Api.Node
  clients : ℕ → Caller

/-- A number handed out: for which client, and what became of the answer. -/
structure Slip where
  client : ℕ
  signup : PartySignup
  delivery : Delivery
deriving DecidableEq, Repr

/-- The client `a` is now in the state `c`. -/
def Lobby.put (s : Lobby) (a : ℕ) (c : Caller) : Lobby :=
  { s with clients := Function.update s.clients a c }

section Lobby

variable (S : Setup) (kinds : ℕ → Kind)

/-- One request of the client `call.1`, unless it is through, with what becomes of it. -/
def postSignup (s : Lobby) (call : ℕ × Delivery) : Result (Lobby × List Slip) :=
  match s.clients call.1 with
  | .trying i =>
    if call.2 = .unsent then .ok (s.put call.1 (.again i), [])
    else do
      let (node, signup) ← (kinds call.1).signup S s.node
      return ({ s with node }.put call.1 (call.2.caller i signup), [⟨call.1, signup, call.2⟩])
  | .answered _ => .ok (s, [])
  | .panicked => .ok (s, [])

/-- The node after `Server::run`, and every client before its first request. -/
def lobby : Lobby := { node := announce S, clients := fun _ => .trying 1 }

variable {S kinds}

/-- How many numbers of a session have been handed out. -/
def handedOut (log : List Slip) (uuid : String) : ℕ := countIn (fun e => e.signup.uuid) log uuid

/-! ## The invariant -/

variable (S kinds) in
/-- The records and the numbers handed out: `opened k` is the uuid drawn for the open session. -/
structure Dispensed (node : Api.Node) (log : List Slip) (opened : Kind → ℕ) : Prop where
  record : ∀ k : Kind, Api.get node k.key = some (S.json.toString
    ⟨handedOut log (S.newV4 (opened k)), S.newV4 (opened k)⟩)
  opened_lt : ∀ k, opened k < node.drawn
  opened_inj : Function.Injective opened
  drawn : ∀ e ∈ log, ∃ d < node.drawn, e.signup.uuid = S.newV4 d
  consecutive : Consecutive (fun e : Slip => e.signup.uuid) (fun e => e.signup.number) log
  owner : ∀ e ∈ log, ∀ k, e.signup.uuid = S.newV4 (opened k) → kinds e.client = k
  bounded : ∀ e ∈ log,
    handedOut log e.signup.uuid ≤ max 1 ((kinds e.client).parties S.params)

/-- A client has the number of its request that was answered. -/
def Held (clients : ℕ → Caller) (log : List Slip) : Prop :=
  ∀ a p, clients a = .answered p ↔
    ∃ e ∈ log, e.client = a ∧ e.delivery = .answered ∧ e.signup = p

theorem again_ne_answered (i : ℕ) (p : PartySignup) : Caller.again i ≠ .answered p := by
  unfold Caller.again
  split_ifs
  · exact nofun
  · exact nofun

theorem caller_eq_answered {d : Delivery} {i : ℕ} {p q : PartySignup} :
    d.caller i p = .answered q ↔ d = .answered ∧ p = q := by
  cases d with
  | unsent => exact iff_of_false (again_ne_answered i q) (fun h => nomatch h.1)
  | answered =>
    constructor
    · intro h
      cases h
      exact ⟨rfl, rfl⟩
    · rintro ⟨-, rfl⟩
      rfl
  | lost => exact iff_of_false (again_ne_answered i q) (fun h => nomatch h.1)
  | broken => exact iff_of_false nofun (fun h => nomatch h.1)

/-- A client that is still trying gets `c`, which is what its new slips say. -/
theorem Held.update {clients : ℕ → Caller} {log out : List Slip} (h : Held clients log) {a i : ℕ}
    (hi : clients a = .trying i) {c : Caller} (hclient : ∀ e ∈ out, e.client = a)
    (hc : ∀ p, c = .answered p ↔ ∃ e ∈ out, e.delivery = .answered ∧ e.signup = p) :
    Held (Function.update clients a c) (log ++ out) := by
  intro b p
  by_cases hb : b = a
  · -- no answer has reached the client before
    rw [hb, Function.update_self, hc]
    constructor
    · rintro ⟨e, he, hd, hp⟩
      exact ⟨e, List.mem_append_right log he, hclient e he, hd, hp⟩
    · rintro ⟨e, he, ha, hd, hp⟩
      rcases List.mem_append.mp he with he | he
      · have hanswered := (h a p).mpr ⟨e, he, ha, hd, hp⟩
        rw [hi] at hanswered
        cases hanswered
      · exact ⟨e, he, hd, hp⟩
  · rw [Function.update_of_ne hb, h b p]
    constructor
    · rintro ⟨e, he, hrest⟩
      exact ⟨e, List.mem_append_left out he, hrest⟩
    · rintro ⟨e, he, hbe, hrest⟩
      rcases List.mem_append.mp he with he | he
      · exact ⟨e, he, hbe, hrest⟩
      · exact absurd (hbe.symm.trans (hclient e he)) hb

/-- A session takes a uuid that no kind has. -/
theorem update_fresh_injective {opened : Kind → ℕ} (h : Function.Injective opened) {d : ℕ}
    (hd : ∀ k, opened k ≠ d) (k : Kind) : Function.Injective (Function.update opened k d) := by
  intro k₁ k₂ heq
  by_cases h₁ : k₁ = k
  · by_cases h₂ : k₂ = k
    · rw [h₁, h₂]
    · rw [h₁, Function.update_self, Function.update_of_ne h₂] at heq
      exact absurd heq.symm (hd k₂)
  · by_cases h₂ : k₂ = k
    · rw [h₂, Function.update_self, Function.update_of_ne h₁] at heq
      exact absurd heq (hd k₁)
    · rw [Function.update_of_ne h₁, Function.update_of_ne h₂] at heq
      exact h heq

/-- The next uuid has not been handed out. -/
theorem Dispensed.fresh {node : Api.Node} {log : List Slip} {opened : Kind → ℕ}
    (h : Dispensed S kinds node log opened) {e : Slip} (he : e ∈ log) :
    e.signup.uuid ≠ S.newV4 node.drawn := by
  obtain ⟨d, hd, huuid⟩ := h.drawn e he
  rw [huuid]
  intro heq
  exact hd.ne (S.newV4_injective heq)

/-- One more number, in a session that is `opened'` for the kind. -/
theorem Dispensed.extend {node node' : Api.Node} {log : List Slip} {opened opened' : Kind → ℕ}
    (h : Dispensed S kinds node log opened) {k : Kind} {e : Slip} (hclient : kinds e.client = k)
    (he : e.signup = ⟨handedOut log (S.newV4 (opened' k)) + 1, S.newV4 (opened' k)⟩)
    (hsize : handedOut log (S.newV4 (opened' k)) + 1 ≤ max 1 (k.parties S.params))
    (hrecord : Api.get node' k.key = some (S.json.toString e.signup))
    (hframe : ∀ key, key ≠ k.key → Api.get node' key = Api.get node key)
    (hother : ∀ k', k' ≠ k → opened' k' = opened k') (hlt : opened' k < node'.drawn)
    (hinj : Function.Injective opened') (hdrawn : node.drawn ≤ node'.drawn)
    (howner : ∀ e' ∈ log, e'.signup.uuid = S.newV4 (opened' k) → kinds e'.client = k) :
    Dispensed S kinds node' (log ++ [e]) opened' := by
  have huuid : e.signup.uuid = S.newV4 (opened' k) := by rw [he]
  refine ⟨fun k' => ?_, fun k' => ?_, hinj, ?_, ?_, ?_, ?_⟩
  · rw [handedOut, countIn_concat]
    by_cases hk : k' = k
    · rw [hk, if_pos huuid, hrecord, he]
      rfl
    · have hne : e.signup.uuid ≠ S.newV4 (opened' k') := by
        rw [huuid]
        exact fun heq => hk (hinj (S.newV4_injective heq)).symm
      rw [if_neg hne, hframe k'.key (fun hkey => hk (Kind.key_injective hkey)), h.record k',
        hother k' hk]
      rfl
  · by_cases hk : k' = k
    · rw [hk]
      exact hlt
    · rw [hother k' hk]
      exact (h.opened_lt k').trans_le hdrawn
  · refine List.forall_mem_append.mpr ⟨fun e' he' => ?_, List.forall_mem_singleton.mpr ?_⟩
    · obtain ⟨d, hd, heq⟩ := h.drawn e' he'
      exact ⟨d, hd.trans_le hdrawn, heq⟩
    · exact ⟨opened' k, hlt, huuid⟩
  · apply h.consecutive.concat
    rw [he]
    rfl
  · refine List.forall_mem_append.mpr ⟨fun e' he' k' heq => ?_,
      List.forall_mem_singleton.mpr (fun k' heq => ?_)⟩
    · by_cases hk : k' = k
      · rw [hk] at heq ⊢
        exact howner e' he' heq
      · rw [hother k' hk] at heq
        exact h.owner e' he' k' heq
    · rw [huuid] at heq
      rw [hclient]
      exact hinj (S.newV4_injective heq)
  · have hnew : handedOut (log ++ [e]) (S.newV4 (opened' k)) ≤ max 1 (k.parties S.params) := by
      rw [handedOut, countIn_concat, if_pos huuid]
      exact hsize
    refine List.forall_mem_append.mpr ⟨fun e' he' => ?_, List.forall_mem_singleton.mpr ?_⟩
    · by_cases heq : e'.signup.uuid = S.newV4 (opened' k)
      · rw [heq, howner e' he' heq]
        exact hnew
      · rw [handedOut, countIn_concat, if_neg (fun hs => heq (hs.symm.trans huuid))]
        exact h.bounded e' he'
    · rw [huuid, hclient]
      exact hnew

/-- **A signup hands out the next number** of the open session, or the first of a new one. -/
theorem Dispensed.signup {node : Api.Node} {log : List Slip} {opened : Kind → ℕ}
    (h : Dispensed S kinds node log opened) (a : ℕ) : ∃ node' p opened',
      (kinds a).signup S node = .ok (node', p) ∧
        ∀ d, Dispensed S kinds node' (log ++ [⟨a, p, d⟩]) opened' := by
  obtain ⟨k, hk⟩ : ∃ k, kinds a = k := ⟨_, rfl⟩
  by_cases hlt : handedOut log (S.newV4 (opened k)) < k.parties S.params
  · obtain ⟨p, hp⟩ : ∃ p : PartySignup,
      p = ⟨handedOut log (S.newV4 (opened k)) + 1, S.newV4 (opened k)⟩ := ⟨_, rfl⟩
    refine ⟨Api.set node k.key (S.json.toString p), p, opened, ?_, fun d => ?_⟩
    · rw [hk, hp]
      exact signup_open (h.record k) hlt
    · exact h.extend hk hp (le_max_of_le_right hlt) (get_set_self node k.key _)
        (fun key hkey => get_set_of_ne node hkey _) (fun _ _ => rfl) (h.opened_lt k) h.opened_inj
        (le_refl _) (fun e he heq => h.owner e he k heq)
  · have hnone : handedOut log (S.newV4 node.drawn) = 0 := by
      refine List.countP_eq_zero.mpr (fun e he => ?_)
      rw [decide_eq_true_iff]
      exact h.fresh he
    have hopened : Function.update opened k node.drawn k = node.drawn := Function.update_self ..
    obtain ⟨p, hp⟩ : ∃ p : PartySignup, p = ⟨1, S.newV4 node.drawn⟩ := ⟨_, rfl⟩
    refine ⟨Api.set { node with drawn := node.drawn + 1 } k.key (S.json.toString p), p,
      Function.update opened k node.drawn, ?_, fun d => ?_⟩
    · rw [hk, hp]
      exact signup_full (h.record k) hlt
    · refine h.extend hk ?_ ?_ (get_set_self _ k.key _) (fun key hkey => get_set_of_ne _ hkey _)
        (fun k' hk' => Function.update_of_ne hk' _ _) ?_ ?_ (Nat.le_succ _) (fun e he heq => ?_)
      · rw [hopened, hnone]
        exact hp
      · rw [hopened, hnone]
        exact le_max_left _ _
      · rw [hopened]
        exact Nat.lt_succ_self _
      · exact update_fresh_injective h.opened_inj (fun k' => (h.opened_lt k').ne) k
      · rw [hopened] at heq
        exact absurd heq (h.fresh he)

theorem dispensed_announce :
    Dispensed S kinds (announce S) [] (fun k => if k = .keygen then 0 else 1) := by
  have h := numbered_announce S
  refine ⟨h.record, fun k => h.drawn k 0 (Nat.zero_le _), ?_, nofun, nofun, nofun, nofun⟩
  intro k k' heq
  cases k <;> cases k' <;> first | rfl | exact absurd heq (by decide)

/-- Two slips of one number are one. -/
theorem Dispensed.eq_of_signup {node : Api.Node} {log : List Slip} {opened : Kind → ℕ}
    (h : Dispensed S kinds node log opened) {e e' : Slip} (he : e ∈ log) (he' : e' ∈ log)
    (hsame : e.signup = e'.signup) : e = e' := by
  obtain ⟨i, hi⟩ := List.mem_iff_getElem?.mp he
  obtain ⟨j, hj⟩ := List.mem_iff_getElem?.mp he'
  have hij : i = j := h.consecutive.inj hi hj (by rw [hsame]) (by rw [hsame])
  rw [hij, hj] at hi
  exact (Option.some.inj hi).symm

/-! ## Runs -/

/-- **A request is handled**, by the server if it gets there, and the invariant holds after it. -/
theorem postSignup_ok {s : Lobby} {log : List Slip} {opened : Kind → ℕ}
    (h : Dispensed S kinds s.node log opened) (hheld : Held s.clients log) (call : ℕ × Delivery) :
    ∃ s' out opened', postSignup S kinds s call = .ok (s', out) ∧
      Dispensed S kinds s'.node (log ++ out) opened' ∧ Held s'.clients (log ++ out) := by
  obtain ⟨a, d⟩ := call
  -- a client that is through sends nothing
  have hstay : postSignup S kinds s (a, d) = .ok (s, []) → ∃ s' out opened',
      postSignup S kinds s (a, d) = .ok (s', out) ∧
        Dispensed S kinds s'.node (log ++ out) opened' ∧ Held s'.clients (log ++ out) := by
    intro hok
    refine ⟨s, [], opened, hok, ?_⟩
    rw [List.append_nil]
    exact ⟨h, hheld⟩
  cases hi : s.clients a with
  | trying i =>
    by_cases hd : d = .unsent
    · refine ⟨s.put a (.again i), [], opened, ?_, ?_, ?_⟩
      · simp only [postSignup, hi, if_pos hd]
      · rw [List.append_nil]
        exact h
      · refine hheld.update hi nofun (fun p => iff_of_false (again_ne_answered i p) ?_)
        rintro ⟨e, he, -⟩
        exact absurd he List.not_mem_nil
    · obtain ⟨node, p, opened', hok, hnext⟩ := h.signup a
      refine ⟨{ s with node }.put a (d.caller i p), [⟨a, p, d⟩], opened', ?_, hnext d, ?_⟩
      · simp only [postSignup, hi, if_neg hd, hok, ok_bind]
        rfl
      · refine hheld.update hi (List.forall_mem_singleton.mpr rfl) (fun q => ?_)
        rw [caller_eq_answered]
        constructor
        · rintro ⟨hanswered, hq⟩
          exact ⟨_, List.mem_singleton_self _, hanswered, hq⟩
        · rintro ⟨e, he, hanswered, hq⟩
          rw [List.mem_singleton.mp he] at hanswered hq
          exact ⟨hanswered, hq⟩
  | answered p =>
    apply hstay
    simp only [postSignup, hi]
  | panicked =>
    apply hstay
    simp only [postSignup, hi]

variable (S kinds) in
/-- **The invariant holds in every run.** -/
theorem dispensed_run (acts : List (ℕ × Delivery)) :
    (∃ opened, Dispensed S kinds (run (postSignup S kinds) (lobby S) acts).1.node
      (run (postSignup S kinds) (lobby S) acts).2 opened) ∧
    Held (run (postSignup S kinds) (lobby S) acts).1.clients
      (run (postSignup S kinds) (lobby S) acts).2 := by
  refine run_invariant
    (fun (s : Lobby) log => (∃ opened, Dispensed S kinds s.node log opened) ∧ Held s.clients log)
    ?_ ?_ acts
  · refine ⟨⟨_, dispensed_announce⟩, fun a p => iff_of_false nofun ?_⟩
    rintro ⟨e, he, -⟩
    exact absurd he List.not_mem_nil
  · rintro s log call s' out ⟨⟨opened, h⟩, hheld⟩ hstep
    obtain ⟨s'', out', opened', hok, hnext, hheld'⟩ := postSignup_ok h hheld call
    rw [hok] at hstep
    cases hstep
    exact ⟨⟨opened', hnext⟩, hheld'⟩

/-! ## Exactly once -/

/-- The last number of a session that has been handed out. -/
def LastNumber (log : List Slip) (uuid : String) (n : ℕ) : Prop :=
  (∃ e ∈ log, e.signup = ⟨n, uuid⟩) ∧ ∀ e ∈ log, e.signup.uuid = uuid → e.signup.number ≤ n

/-- The numbers of a session that clients hold are `1, …, n`, and each has one holder. -/
def HeldOnce (clients : ℕ → Caller) (uuid : String) (n : ℕ) : Prop :=
  (∀ a p, clients a = .answered p → p.uuid = uuid → 1 ≤ p.number ∧ p.number ≤ n) ∧
  ∀ i, 1 ≤ i → i ≤ n → ∃! a, clients a = .answered ⟨i, uuid⟩

/-- Once a session is full, its size is its last number. -/
theorem Dispensed.lastNumber {node : Api.Node} {log : List Slip} {opened : Kind → ℕ}
    (h : Dispensed S kinds node log opened) {e : Slip} (he : e ∈ log)
    (hfull : e.signup.number = (kinds e.client).parties S.params) :
    LastNumber log e.signup.uuid ((kinds e.client).parties S.params) := by
  obtain ⟨h1, -⟩ := h.consecutive.le he
  have hbound : handedOut log e.signup.uuid ≤ max 1 ((kinds e.client).parties S.params) :=
    h.bounded e he
  refine ⟨⟨e, he, by rw [← hfull]⟩, fun e' he' huuid => ?_⟩
  obtain ⟨-, hle⟩ := h.consecutive.le he'
  rw [huuid] at hle
  rw [max_eq_right (by omega)] at hbound
  exact hle.trans hbound

/-- **Every number has its holder exactly when every answer arrived.** -/
theorem Dispensed.heldOnce_iff {s : Lobby} {log : List Slip} {opened : Kind → ℕ}
    (h : Dispensed S kinds s.node log opened) (hheld : Held s.clients log) {uuid : String} {n : ℕ}
    (hlast : LastNumber log uuid n) :
    HeldOnce s.clients uuid n ↔ ∀ e ∈ log, e.signup.uuid = uuid → e.delivery = .answered := by
  constructor
  · rintro ⟨-, hholder⟩ e he huuid
    obtain ⟨h1, -⟩ := h.consecutive.le he
    obtain ⟨a, ha, -⟩ := hholder e.signup.number h1 (hlast.2 e he huuid)
    obtain ⟨e', he', -, hanswered, hsignup⟩ := (hheld a _).mp ha
    have hsame : e' = e := h.eq_of_signup he' he (by rw [hsignup, ← huuid])
    rw [← hsame]
    exact hanswered
  · intro hall
    refine ⟨fun a p ha huuid => ?_, fun i h1 hi => ?_⟩
    · obtain ⟨e, he, -, -, rfl⟩ := (hheld a p).mp ha
      obtain ⟨h1, -⟩ := h.consecutive.le he
      exact ⟨h1, hlast.2 e he huuid⟩
    · obtain ⟨⟨e, he, hn⟩, -⟩ := hlast
      obtain ⟨-, hle⟩ := h.consecutive.le he
      have hcount : n ≤ handedOut log uuid := by
        rw [hn] at hle
        exact hle
      obtain ⟨t, ht, huuid, hnumber⟩ := h.consecutive.exists_of_le h1 (hi.trans hcount)
      have hsignup : t.signup = ⟨i, uuid⟩ := by rw [← huuid, ← hnumber]
      refine ⟨t.client, (hheld _ _).mpr ⟨t, ht, rfl, hall t ht huuid, hsignup⟩, fun a ha => ?_⟩
      obtain ⟨e', he', rfl, -, hsignup'⟩ := (hheld a _).mp ha
      rw [h.eq_of_signup he' ht (hsignup'.trans hsignup.symm)]

/-- **Signup is exactly-once while no answer gets lost**, for any number of clients and any order
and fate of their requests.  Of a session whose last number so far is `n`, its size once it is full,
the clients hold the numbers `1, …, n`, each once, exactly when each request of the session that
the server has handled was answered. -/
theorem signup_exactly_once (S : Setup) (kinds : ℕ → Kind) (acts : List (ℕ × Delivery)) :
    (∀ e ∈ (run (postSignup S kinds) (lobby S) acts).2,
      e.signup.number = (kinds e.client).parties S.params →
        LastNumber (run (postSignup S kinds) (lobby S) acts).2 e.signup.uuid
          ((kinds e.client).parties S.params)) ∧
    ∀ uuid n, LastNumber (run (postSignup S kinds) (lobby S) acts).2 uuid n →
      (HeldOnce (run (postSignup S kinds) (lobby S) acts).1.clients uuid n ↔
        ∀ e ∈ (run (postSignup S kinds) (lobby S) acts).2, e.signup.uuid = uuid →
          e.delivery = .answered) := by
  obtain ⟨⟨opened, h⟩, hheld⟩ := dispensed_run S kinds acts
  exact ⟨fun e he hfull => h.lastNumber he hfull, fun uuid n hlast => h.heldOnce_iff hheld hlast⟩

/-- The answer to the first request of client `0` is lost, and the second is given the number two:
the session of two is full, everyone who has started is through, and nobody holds the number one. -/
theorem signup_lost :
    ¬ ∀ (S : Setup) (kinds : ℕ → Kind) (acts : List (ℕ × Delivery)),
      (∀ a, (run (postSignup S kinds) (lobby S) acts).1.clients a = .trying 1 ∨
        ∃ p, (run (postSignup S kinds) (lobby S) acts).1.clients a = .answered p) →
      ∀ e ∈ (run (postSignup S kinds) (lobby S) acts).2,
        e.signup.number = (kinds e.client).parties S.params →
          HeldOnce (run (postSignup S kinds) (lobby S) acts).1.clients e.signup.uuid
            ((kinds e.client).parties S.params) := by
  intro hclaim
  have hclients : (run (postSignup pairNetwork.setup (fun _ => .keygen)) (lobby pairNetwork.setup)
      [(0, .lost), (0, .answered)]).1.clients
        = Function.update (Function.update (fun _ => .trying 1) 0 (.trying 2)) 0
            (.answered ⟨2, ""⟩) := rfl
  have hlog : (run (postSignup pairNetwork.setup (fun _ => .keygen)) (lobby pairNetwork.setup)
      [(0, .lost), (0, .answered)]).2 = [⟨0, ⟨1, ""⟩, .lost⟩, ⟨0, ⟨2, ""⟩, .answered⟩] := rfl
  have hheld := hclaim pairNetwork.setup (fun _ => .keygen) [(0, .lost), (0, .answered)]
  rw [hclients, hlog, Function.update_idem] at hheld
  obtain ⟨-, hholder⟩ := hheld (fun a => by
    by_cases ha : a = 0
    · rw [ha, Function.update_self]
      exact Or.inr ⟨_, rfl⟩
    · rw [Function.update_of_ne ha]
      exact Or.inl rfl) ⟨0, ⟨2, ""⟩, .answered⟩ (List.mem_cons_of_mem _ List.mem_cons_self) rfl
  obtain ⟨a, ha, -⟩ := hholder 1 (le_refl 1) (by decide)
  by_cases h0 : a = 0
  · rw [h0, Function.update_self] at ha
    exact absurd ha (by decide)
  · rw [Function.update_of_ne h0] at ha
    exact nomatch ha

end Lobby

end VDexNode.Mpt
