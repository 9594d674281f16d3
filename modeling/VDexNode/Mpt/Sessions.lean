import VDexNode.Mpt.Session
import VDexNode.Mpt.Signups

/-!
# VDexNode.Mpt.Sessions — sessions over the shared store

Any number of clients take their steps in any order.  The uuid of a session is drawn once, so a
number and a uuid belong to one client, and no entry of a round is written twice.  What a poll finds
is therefore the one message posted there.

* `inv_step`, `inv_run` : the invariant of the store and the clients, for one step and for a run.
* `sessions_agree` : **numbers are distinct and, in a session that is full, exactly `1, …, n`; all
  clients of a session that finish a round hold the same vector; and no client gets stuck in an
  error.**
-/

namespace VDexNode.Mpt

open Api

/-! ## The invariant -/

section Invariant

variable {M : Type} (N : Network M)

/-- How many messages of a round have been sent. -/
def Stage.sentOf (total : ℕ) : Stage → ℕ
  | .posting sent => sent
  | .polling _ => total

/-- A client is past its request to `dest` in a round. -/
def Sent (k : Kind) (n : ℕ) (l : Locals M) (round dest : String) : Prop :=
  ∃ i r, k.rounds[i]? = some r ∧ r.name = round ∧ (i < l.past.length ∨ i = l.past.length ∧
    dest ∈ (dests n l.signup r).take (l.stage.sentOf (dests n l.signup r).length))

/-- What a client has done in its round: its signup, the messages it has sent, and the entries it
has read, each of which its holder has posted. -/
structure Following (log : List (Event M)) (a : ℕ) (l : Locals M) : Prop where
  signed : .signedUp (N.kind a) a l.signup ∈ log
  outboxed : ∀ r, (N.kind a).rounds[l.past.length]? = some r →
    ∀ e ∈ (outbox (N.program a) (N.parties a) l r).take
      (l.stage.sentOf (outbox (N.program a) (N.parties a) l r).length),
        .posted a l.signup r.name e.1 e.2 ∈ log
  reads : ∀ r ansVec, (N.kind a).rounds[l.past.length]? = some r → l.stage = .polling ansVec →
    ∃ f : ℕ → M, ansVec = ((others (N.parties a) l.signup.number).take ansVec.length).map
        (fun i => N.json.toString (f i)) ∧
      ∀ i ∈ (others (N.parties a) l.signup.number).take ansVec.length, ∃ b,
        .posted b ⟨i, l.signup.uuid⟩ r.name (if r.p2p then toString l.signup.number else "") (f i)
          ∈ log

/-- What the vector of a round consists of. -/
def Sound (log : List (Event M)) : Event M → Prop
  | .signedUp _ _ _ => True
  | .posted _ _ _ _ _ => True
  | .built a p round vec => .signedUp (N.kind a) a p ∈ log ∧
      ∃ f : ℕ → M, vec = (List.range' 1 (N.parties a)).map f ∧
        ∀ i, 1 ≤ i → i ≤ N.parties a → ∃ b, .posted b ⟨i, p.uuid⟩ round "" (f i) ∈ log
  | .received a p round ansVec => .signedUp (N.kind a) a p ∈ log ∧
      ∃ f : ℕ → M, ansVec = (others (N.parties a) p.number).map f ∧
        ∀ i ∈ others (N.parties a) p.number, ∃ b,
          .posted b ⟨i, p.uuid⟩ round (toString p.number) (f i) ∈ log

/-- **The invariant** of the store, the clients and what has happened. -/
structure Inv (s : World M) (log : List (Event M)) : Prop where
  numbered : ∃ session, Numbered N.setup s.node (issued log) session
  stored : ∀ uuid number round dest v,
    Api.get s.node (entryKey uuid number round dest) = some v ↔
      ∃ a m, .posted a ⟨number, uuid⟩ round dest m ∈ log ∧ v = N.json.toString m
  signed : ∀ k a p, .signedUp k a p ∈ log → k = N.kind a ∧ ∃ l, s.clients a = some l ∧ l.signup = p
  sent : ∀ a p round dest m, .posted a p round dest m ∈ log →
    ∃ l, s.clients a = some l ∧ l.signup = p ∧ Sent (N.kind a) (N.parties a) l round dest
  following : ∀ a l, s.clients a = some l → Following N log a l
  sound : ∀ e ∈ log, Sound N log e

variable {N}

theorem Following.mono {log log' : List (Event M)} (hsub : log ⊆ log') {a : ℕ} {l : Locals M}
    (h : Following N log a l) : Following N log' a l where
  signed := hsub h.signed
  outboxed r hr e he := hsub (h.outboxed r hr e he)
  reads r ansVec hr hstage := by
    obtain ⟨f, hans, hposted⟩ := h.reads r ansVec hr hstage
    refine ⟨f, hans, fun i hi => ?_⟩
    obtain ⟨b, hb⟩ := hposted i hi
    exact ⟨b, hsub hb⟩

theorem Sound.mono {log log' : List (Event M)} (hsub : log ⊆ log') {e : Event M}
    (h : Sound N log e) : Sound N log' e := by
  cases e with
  | signedUp | posted => trivial
  | built a p round vec =>
    obtain ⟨hsigned, f, hvec, hposted⟩ := h
    refine ⟨hsub hsigned, f, hvec, fun i h1 hn => ?_⟩
    obtain ⟨b, hb⟩ := hposted i h1 hn
    exact ⟨b, hsub hb⟩
  | received a p round ansVec =>
    obtain ⟨hsigned, f, hvec, hposted⟩ := h
    refine ⟨hsub hsigned, f, hvec, fun i hi => ?_⟩
    obtain ⟨b, hb⟩ := hposted i hi
    exact ⟨b, hsub hb⟩

theorem inv_init : Inv N (init N) [] where
  numbered := ⟨_, numbered_announce N.setup⟩
  stored uuid number round dest v := by
    have hkeygen : entryKey uuid number round dest ≠ keygenKey := entryKey_ne_key _ _ _ _ .keygen
    have hsign : entryKey uuid number round dest ≠ signKey := entryKey_ne_key _ _ _ _ .sign
    have hnone : Api.get (announce N.setup) (entryKey uuid number round dest) = none := by
      show Api.get (Api.set (Api.set _ keygenKey _) signKey _) _ = none
      rw [get_set_of_ne _ hsign, get_set_of_ne _ hkeygen]
      rfl
    show Api.get (announce N.setup) _ = some v ↔ _
    rw [hnone]
    exact iff_of_false nofun (by rintro ⟨a, m, h, -⟩; cases h)
  signed k a p h := by cases h
  sent a p round dest m h := by cases h
  following a l h := by cases h
  sound e h := by cases h

/-! ## Steps -/

@[simp] theorem put_self (s : World M) (a : ℕ) (l : Locals M) : (s.put a l).clients a = some l := by
  show Function.update s.clients a (some l) a = some l
  rw [Function.update_self]

theorem put_of_ne (s : World M) {a b : ℕ} (h : b ≠ a) (l : Locals M) :
    (s.put a l).clients b = s.clients b := by
  show Function.update s.clients a (some l) b = s.clients b
  rw [Function.update_of_ne h]

/-- What holds of all clients and of the changed one, after the change. -/
theorem forall_put {P : ℕ → Locals M → Prop} {s : World M} {a : ℕ} {l : Locals M}
    (hs : ∀ b l', s.clients b = some l' → P b l') (ha : P a l) :
    ∀ b l', (s.put a l).clients b = some l' → P b l' := by
  intro b l' hb
  by_cases hba : b = a
  · subst hba
    rw [put_self] at hb
    cases hb
    exact ha
  · rw [put_of_ne s hba] at hb
    exact hs b l' hb

/-- A number of a session has one holder. -/
theorem Inv.holder (hn : 1 ≤ N.setup.params.parties) {s : World M} {log : List (Event M)}
    (h : Inv N s log) {k k' : Kind} {a b : ℕ} {p p' : PartySignup}
    (ha : .signedUp k a p ∈ log) (hb : .signedUp k' b p' ∈ log) (huuid : p.uuid = p'.uuid) :
    k = k' ∧ (p.number = p'.number → a = b) := by
  obtain ⟨session, hnumbered⟩ := h.numbered
  obtain ⟨i, hi⟩ := List.getElem?_of_mem (mem_issued.mpr ha)
  obtain ⟨j, hj⟩ := List.getElem?_of_mem (mem_issued.mpr hb)
  obtain ⟨rfl, -, hsame⟩ := hnumbered.position hn hi hj huuid
  refine ⟨rfl, fun hnum => ?_⟩
  rw [hsame hnum, hj] at hi
  exact (Prod.mk.inj (Option.some.inj hi)).1.symm

theorem Kind.nodup_rounds (k : Kind) : (k.rounds.map Round.name).Nodup := by
  cases k <;> decide

theorem nodup_dests (n : ℕ) (p : PartySignup) (r : Round) : (dests n p r).Nodup := by
  rw [dests]
  by_cases hp2p : r.p2p = true
  · rw [if_pos hp2p]
    refine List.Nodup.map (fun i j hij => number_of_toString hij) ?_
    exact List.Nodup.filter _ List.nodup_range'
  · rw [if_neg hp2p]
    exact List.nodup_singleton ""

theorem map_fst_outbox (prog : Program M) (n : ℕ) (l : Locals M) (r : Round) :
    (outbox prog n l r).map Prod.fst = dests n l.signup r := by
  rw [outbox, dests]
  by_cases hp2p : r.p2p = true
  · rw [if_pos hp2p, if_pos hp2p, List.map_map]
    rfl
  · rw [if_neg hp2p, if_neg hp2p]
    rfl

/-- An entry is not among those before it. -/
theorem notMem_take_of_getElem? {α : Type} {l : List α} (hnodup : l.Nodup) {i : ℕ} {x : α}
    (h : l[i]? = some x) : x ∉ l.take i := by
  intro hmem
  obtain ⟨j, hj⟩ := List.getElem?_of_mem hmem
  obtain ⟨hlt, -⟩ := List.getElem?_eq_some_iff.mp hj
  rw [List.length_take] at hlt
  rw [List.getElem?_take_of_lt (by omega), ← h] at hj
  have hsame := (List.getElem?_inj (by omega) hnodup).mp hj
  omega

/-- The next request of a client is a new one. -/
theorem not_sent_next {k : Kind} {n : ℕ} {l : Locals M} {r : Round} {sent : ℕ} {dest : String}
    (hr : k.rounds[l.past.length]? = some r) (hstage : l.stage = .posting sent)
    (hdest : (dests n l.signup r)[sent]? = some dest) : ¬ Sent k n l r.name dest := by
  rintro ⟨i, r', hi, hname, hpast⟩
  have hidx : i = l.past.length := by
    have hlt : i < (k.rounds.map Round.name).length := by
      rw [List.length_map]
      exact (List.getElem?_eq_some_iff.mp hi).1
    refine (List.getElem?_inj hlt k.nodup_rounds).mp ?_
    rw [List.getElem?_map, List.getElem?_map, hi, hr, Option.map_some, Option.map_some, hname]
  subst hidx
  rw [hr] at hi
  cases hi
  rcases hpast with hlt | ⟨-, hmem⟩
  · exact absurd hlt (lt_irrefl _)
  · rw [hstage] at hmem
    exact notMem_take_of_getElem? (nodup_dests n l.signup r) hdest hmem

/-- What one client has, after a change of the variables of `a`. -/
theorem exists_put {Q : Locals M → Prop} {s : World M} {a b : ℕ} {l l' : Locals M}
    (hl : s.clients a = some l) (hQ : b = a → Q l → Q l')
    (hb : ∃ lb, s.clients b = some lb ∧ Q lb) : ∃ lb, (s.put a l').clients b = some lb ∧ Q lb := by
  obtain ⟨lb, hlb, hq⟩ := hb
  by_cases hba : b = a
  · rw [hba, hl] at hlb
    cases hlb
    rw [hba]
    exact ⟨l', put_self s a l', hQ hba hq⟩
  · exact ⟨lb, by rw [put_of_ne s hba, hlb], hq⟩

/-- A message that is posted is logged. -/
theorem issued_posted (log : List (Event M)) (a : ℕ) (p : PartySignup) (round dest : String)
    (m : M) :
    issued (log ++ [.posted a p round dest m]) = issued log := by
  funext k
  rw [issued_append]
  exact List.append_nil _

/-- What a key is related to depends on the messages that have been posted. -/
theorem exists_posted_congr {log log' : List (Event M)}
    (h : ∀ b p round dest m, .posted b p round dest m ∈ log' → .posted b p round dest m ∈ log)
    (hsub : log ⊆ log') (p : PartySignup) (round dest v : String) :
    (∃ a m, .posted a p round dest m ∈ log ∧ v = N.json.toString m) ↔
      ∃ a m, .posted a p round dest m ∈ log' ∧ v = N.json.toString m := by
  constructor
  · rintro ⟨b, m, he, hv⟩
    exact ⟨b, m, hsub he, hv⟩
  · rintro ⟨b, m, he, hv⟩
    exact ⟨b, m, h b p round dest m he, hv⟩

/-- Requests that neither sign up nor post change the variables of one client only. -/
theorem Inv.put {s : World M} {log out : List (Event M)} (h : Inv N s log) {a : ℕ} {l l' : Locals M}
    (hl : s.clients a = some l) (hsignup : l'.signup = l.signup)
    (hsent : ∀ round dest, Sent (N.kind a) (N.parties a) l round dest →
      Sent (N.kind a) (N.parties a) l' round dest)
    (hsigned : ∀ k b p, .signedUp k b p ∉ out) (hposted : ∀ b p round dest m,
      .posted b p round dest m ∉ out)
    (hfollow : Following N (log ++ out) a l') (hsound : ∀ e ∈ out, Sound N (log ++ out) e) :
    Inv N (s.put a l') (log ++ out) := by
  have hsub : log ⊆ log ++ out := List.subset_append_left log out
  have hissued : issued (log ++ out) = issued log := by
    funext k
    have hnone : issued out k = [] := by
      refine List.eq_nil_iff_forall_not_mem.mpr (fun ap hap => ?_)
      exact hsigned k ap.1 ap.2 (mem_issued.mp hap)
    rw [issued_append, hnone, List.append_nil]
  have hold : ∀ b p round dest m, .posted b p round dest m ∈ log ++ out →
      .posted b p round dest m ∈ log := fun b p round dest m he =>
    (List.mem_append.mp he).resolve_right (hposted b p round dest m)
  refine ⟨?_, fun uuid number round dest v => ?_, fun k b p he => ?_, fun b p round dest m he => ?_,
    ?_, fun e he => ?_⟩
  · rw [hissued]
    exact h.numbered
  · exact (h.stored uuid number round dest v).trans (exists_posted_congr hold hsub _ _ _ _)
  · obtain ⟨hk, hb⟩ := h.signed k b p ((List.mem_append.mp he).resolve_right (hsigned _ _ _))
    exact ⟨hk, exists_put hl (fun _ hp => hsignup.trans hp) hb⟩
  · refine exists_put hl (fun hba hq => ?_) (h.sent b p round dest m (hold _ _ _ _ _ he))
    obtain ⟨hp, hq⟩ := hq
    rw [hba] at hq ⊢
    exact ⟨hsignup.trans hp, hsent round dest hq⟩
  · exact forall_put (fun b lb hlb => (h.following b lb hlb).mono hsub) hfollow
  · rcases List.mem_append.mp he with he | he
    · exact (h.sound e he).mono hsub
    · exact hsound e he

/-- **A signup.** -/
theorem Inv.signup (hn : 1 ≤ N.setup.params.parties) {s : World M} {log : List (Event M)}
    (h : Inv N s log) {a : ℕ} {node : Api.Node} {p : PartySignup} (hnone : s.clients a = none)
    (hsign : (N.kind a).signup N.setup s.node = .ok (node, p)) :
    Inv N ({ s with node }.put a ⟨p, [], .posting 0⟩) (log ++ [.signedUp (N.kind a) a p]) := by
  have hsub : log ⊆ log ++ [.signedUp (N.kind a) a p] := List.subset_append_left log _
  obtain ⟨session, hnumbered⟩ := h.numbered
  obtain ⟨node', p', session', hok, hnext, hframe⟩ := hnumbered.signup hn (N.kind a)
  rw [hsign] at hok
  cases hok
  have hkeep : ∀ {Q : Locals M → Prop} {b : ℕ}, (∃ l, s.clients b = some l ∧ Q l) →
      ∃ l, ({ s with node }.put a ⟨p, [], .posting 0⟩ : World M).clients b = some l ∧ Q l := by
    rintro Q b ⟨l, hl, hq⟩
    have hba : b ≠ a := by
      rintro rfl
      rw [hnone] at hl
      cases hl
    exact ⟨l, by rw [put_of_ne _ hba]; exact hl, hq⟩
  have hold : ∀ b p' round dest m,
      .posted b p' round dest m ∈ log ++ [.signedUp (N.kind a) a p] →
        .posted b p' round dest m ∈ log := fun b p' round dest m he =>
    (List.mem_append.mp he).resolve_right (fun he => by cases List.mem_singleton.mp he)
  refine ⟨?_, fun uuid number round dest v => ?_, fun k b p' he => ?_,
    fun b p' round dest m he => hkeep (h.sent b p' round dest m (hold _ _ _ _ _ he)), ?_,
    fun e he => ?_⟩
  · rw [issued_signedUp]
    exact ⟨session', hnext a⟩
  · show Api.get node (entryKey uuid number round dest) = some v ↔ _
    rw [hframe _ (entryKey_ne_key uuid number round dest (N.kind a)), h.stored]
    exact exists_posted_congr hold hsub _ _ _ _
  · rcases List.mem_append.mp he with he | he
    · obtain ⟨hk, hb⟩ := h.signed k b p' he
      exact ⟨hk, hkeep hb⟩
    · cases List.mem_singleton.mp he
      exact ⟨rfl, _, put_self _ a _, rfl⟩
  · refine forall_put (fun b l hl => (h.following b l hl).mono hsub) ⟨?_, ?_, ?_⟩
    · exact List.mem_append_right log List.mem_cons_self
    · intro r _ e he
      exact absurd he List.not_mem_nil
    · intro r ansVec _ hstage
      cases hstage
  · rcases List.mem_append.mp he with he | he
    · exact (h.sound e he).mono hsub
    · rw [List.mem_singleton.mp he]
      trivial

/-- The variables of a client that has sent one more message. -/
def Locals.sentNext (l : Locals M) (sent : ℕ) : Locals M := { l with stage := .posting (sent + 1) }

/-- The requests before are still behind the client. -/
theorem Sent.next {k : Kind} {n : ℕ} {l : Locals M} {sent : ℕ} {round dest : String}
    (h : Sent k n l round dest) (hstage : l.stage = .posting sent) :
    Sent k n (l.sentNext sent) round dest := by
  obtain ⟨i, r, hi, hname, hpast⟩ := h
  refine ⟨i, r, hi, hname, hpast.imp_right (fun hmem => ⟨hmem.1, ?_⟩)⟩
  obtain ⟨-, hmem⟩ := hmem
  rw [hstage] at hmem
  exact List.take_subset_take_left _ (Nat.le_succ sent) hmem

/-- The new request is behind the client. -/
theorem sent_next_self {k : Kind} {n : ℕ} {l : Locals M} {r : Round} {sent : ℕ} {dest : String}
    (hr : k.rounds[l.past.length]? = some r) (hdest : (dests n l.signup r)[sent]? = some dest) :
    Sent k n (l.sentNext sent) r.name dest := by
  refine ⟨l.past.length, r, hr, rfl, Or.inr ⟨rfl, ?_⟩⟩
  show dest ∈ (dests n l.signup r).take (sent + 1)
  rw [List.take_add_one, hdest]
  exact List.mem_append_right _ List.mem_cons_self

/-- What the client has sent is logged, the new message included. -/
theorem Following.next {log : List (Event M)} {a : ℕ} {l : Locals M} {r : Round} {sent : ℕ}
    {dest : String} {m : M} (h : Following N log a l)
    (hr : (N.kind a).rounds[l.past.length]? = some r) (hstage : l.stage = .posting sent)
    (hout : (outbox (N.program a) (N.parties a) l r)[sent]? = some (dest, m)) :
    Following N (log ++ [.posted a l.signup r.name dest m]) a (l.sentNext sent) := by
  have hsub : log ⊆ log ++ [.posted a l.signup r.name dest m] := List.subset_append_left log _
  refine ⟨hsub h.signed, fun r' hr' e he => ?_, fun r' ansVec _ hpoll => by cases hpoll⟩
  have hr' : (N.kind a).rounds[l.past.length]? = some r' := hr'
  rw [hr] at hr'
  cases hr'
  have he : e ∈ (outbox (N.program a) (N.parties a) l r).take (sent + 1) := he
  rw [List.take_add_one, hout] at he
  rcases List.mem_append.mp he with he | he
  · refine hsub (h.outboxed r hr e ?_)
    rw [hstage]
    exact he
  · rw [List.mem_singleton.mp he]
    exact List.mem_append_right log List.mem_cons_self

/-- A message is new: nobody else has the number, and the client has not been here before. -/
theorem Inv.fresh (hn : 1 ≤ N.setup.params.parties) {s : World M} {log : List (Event M)}
    (h : Inv N s log) {a : ℕ} {l : Locals M} {r : Round} {sent : ℕ} {dest : String}
    (hl : s.clients a = some l) (hr : (N.kind a).rounds[l.past.length]? = some r)
    (hstage : l.stage = .posting sent)
    (hdest : (dests (N.parties a) l.signup r)[sent]? = some dest) (b : ℕ) (m : M) :
    .posted b l.signup r.name dest m ∉ log := by
  intro hb
  obtain ⟨lb, hlb, hp, hsent⟩ := h.sent b _ _ _ _ hb
  have hsigned := (h.following b lb hlb).signed
  rw [hp] at hsigned
  obtain ⟨-, hsame⟩ := h.holder hn hsigned (h.following a l hl).signed rfl
  rw [hsame rfl] at hlb hsent
  rw [hl] at hlb
  cases hlb
  exact not_sent_next hr hstage hdest hsent

/-- The store after a new message. -/
theorem Inv.stored_post {s : World M} {log : List (Event M)} (h : Inv N s log) {a : ℕ}
    {p : PartySignup} {round dest : String} {m : M}
    (hfresh : ∀ b m', .posted b p round dest m' ∉ log) (uuid : String) (number : ℕ)
    (round' dest' v : String) :
    Api.get (Api.set s.node (entryKey p.uuid p.number round dest) (N.json.toString m))
        (entryKey uuid number round' dest') = some v ↔
      ∃ b m', .posted b ⟨number, uuid⟩ round' dest' m' ∈ log ++ [.posted a p round dest m] ∧
        v = N.json.toString m' := by
  by_cases hkey : entryKey uuid number round' dest' = entryKey p.uuid p.number round dest
  · obtain ⟨rfl, rfl, rfl, rfl⟩ := entryKey_inj hkey
    rw [get_set_self, Option.some_inj]
    constructor
    · rintro rfl
      exact ⟨a, m, List.mem_append_right log List.mem_cons_self, rfl⟩
    · rintro ⟨b, m', he, hv⟩
      rcases List.mem_append.mp he with he | he
      · exact absurd he (hfresh b m')
      · cases List.mem_singleton.mp he
        exact hv.symm
  · rw [get_set_of_ne _ hkey, h.stored]
    constructor
    · rintro ⟨b, m', he, hv⟩
      exact ⟨b, m', List.mem_append_left _ he, hv⟩
    · rintro ⟨b, m', he, hv⟩
      rcases List.mem_append.mp he with he | he
      · exact ⟨b, m', he, hv⟩
      · injection List.mem_singleton.mp he with hb hp hround hdest hm
        subst hround hdest
        rw [← hp] at hkey
        exact absurd rfl hkey

/-- **A message is posted**, under a key that nobody has written to. -/
theorem Inv.post (hn : 1 ≤ N.setup.params.parties) {s : World M} {log : List (Event M)}
    (h : Inv N s log) {a : ℕ} {l : Locals M} {r : Round} {sent : ℕ} {dest : String} {m : M}
    (hl : s.clients a = some l) (hr : (N.kind a).rounds[l.past.length]? = some r)
    (hstage : l.stage = .posting sent)
    (hout : (outbox (N.program a) (N.parties a) l r)[sent]? = some (dest, m)) :
    Inv N ({ s with
        node := Api.set s.node (entryKey l.signup.uuid l.signup.number r.name dest)
          (N.json.toString m) }.put a (l.sentNext sent))
      (log ++ [.posted a l.signup r.name dest m]) := by
  have hsub : log ⊆ log ++ [.posted a l.signup r.name dest m] := List.subset_append_left log _
  have hdest : (dests (N.parties a) l.signup r)[sent]? = some dest := by
    rw [← map_fst_outbox (N.program a), List.getElem?_map, hout]
    rfl
  refine ⟨?_, h.stored_post (h.fresh hn hl hr hstage hdest), fun k b p he => ?_,
    fun b p round dest' m' he => ?_, ?_, fun e he => ?_⟩
  · rw [issued_posted]
    obtain ⟨session, hnumbered⟩ := h.numbered
    exact ⟨session, hnumbered.frame (fun k =>
      get_set_of_ne s.node (entryKey_ne_key _ _ _ _ k).symm _) rfl⟩
  · rcases List.mem_append.mp he with he | he
    · obtain ⟨hk, hb⟩ := h.signed k b p he
      exact ⟨hk, exists_put hl (fun _ hp => hp) hb⟩
    · cases List.mem_singleton.mp he
  · rcases List.mem_append.mp he with he | he
    · refine exists_put hl (fun hba hq => ?_) (h.sent b p round dest' m' he)
      rw [hba] at hq ⊢
      exact ⟨hq.1, hq.2.next hstage⟩
    · injection List.mem_singleton.mp he with hb hp hround hdest' hm
      subst hb hp hround hdest'
      exact ⟨_, put_self _ _ _, rfl, sent_next_self hr hdest⟩
  · exact forall_put (fun b lb hlb => (h.following b lb hlb).mono hsub)
      ((h.following a l hl).next hr hstage hout)
  · rcases List.mem_append.mp he with he | he
    · exact (h.sound e he).mono hsub
    · rw [List.mem_singleton.mp he]
      trivial

/-- **The end of the requests of a round**: everything has been sent. -/
theorem Inv.turn {s : World M} {log : List (Event M)} (h : Inv N s log) {a : ℕ} {l : Locals M}
    {r : Round} {sent : ℕ} (hl : s.clients a = some l)
    (hr : (N.kind a).rounds[l.past.length]? = some r) (hstage : l.stage = .posting sent)
    (hout : (outbox (N.program a) (N.parties a) l r)[sent]? = none) :
    Inv N (s.put a { l with stage := .polling [] }) (log ++ []) := by
  have hfollow := h.following a l hl
  refine h.put hl rfl (fun round dest => ?_) (fun _ _ _ => List.not_mem_nil)
    (fun _ _ _ _ _ => List.not_mem_nil) ?_ (fun e he => absurd he List.not_mem_nil)
  · rintro ⟨i, r', hi, hname, hpast⟩
    refine ⟨i, r', hi, hname, hpast.imp_right (fun hmem => ⟨hmem.1, ?_⟩)⟩
    show dest ∈ (dests (N.parties a) l.signup r').take (dests (N.parties a) l.signup r').length
    rw [List.take_length]
    exact List.mem_of_mem_take hmem.2
  · rw [List.append_nil]
    refine ⟨hfollow.signed, fun r' hr' e he => ?_, fun r' ansVec _ hpoll => ?_⟩
    · have hr' : (N.kind a).rounds[l.past.length]? = some r' := hr'
      rw [hr] at hr'
      cases hr'
      refine hfollow.outboxed r hr e ?_
      rw [hstage]
      show e ∈ (outbox (N.program a) (N.parties a) l r).take sent
      rw [List.take_of_length_le (List.getElem?_eq_none_iff.mp hout)]
      exact List.mem_of_mem_take he
    · cases hpoll
      exact ⟨fun _ => (N.program a).broadcast l.signup l.past, rfl,
        fun i hi => absurd hi List.not_mem_nil⟩

/-- **An entry is read**: somebody has posted it. -/
theorem Inv.read {s : World M} {log : List (Event M)} (h : Inv N s log) {a : ℕ} {l : Locals M}
    {r : Round} {ansVec : List String} {i : ℕ} {v : String} (hl : s.clients a = some l)
    (hr : (N.kind a).rounds[l.past.length]? = some r) (hstage : l.stage = .polling ansVec)
    (hi : (others (N.parties a) l.signup.number)[ansVec.length]? = some i)
    (hv : Api.get s.node (inboxKey l.signup r i) = some v) :
    Inv N (s.put a { l with stage := .polling (ansVec ++ [v]) }) (log ++ []) := by
  have hfollow := h.following a l hl
  refine h.put hl rfl (fun round dest => ?_) (fun _ _ _ => List.not_mem_nil)
    (fun _ _ _ _ _ => List.not_mem_nil) ?_ (fun e he => absurd he List.not_mem_nil)
  · rintro ⟨j, r', hj, hname, hpast⟩
    rw [hstage] at hpast
    exact ⟨j, r', hj, hname, hpast⟩
  · rw [List.append_nil]
    refine ⟨hfollow.signed, fun r' hr' e he => ?_, fun r' ansVec' hr' hpoll => ?_⟩
    · refine hfollow.outboxed r' hr' e ?_
      rw [hstage]
      exact he
    · have hr' : (N.kind a).rounds[l.past.length]? = some r' := hr'
      rw [hr] at hr'
      cases hr'
      cases hpoll
      obtain ⟨f, hans, hposted⟩ := hfollow.reads r ansVec hr hstage
      obtain ⟨b, m, hb, rfl⟩ := (h.stored _ _ _ _ _).mp hv
      have hnew : i ∉ (others (N.parties a) l.signup.number).take ansVec.length :=
        notMem_take_of_getElem? (List.Nodup.filter _ List.nodup_range') hi
      have hkeep : ∀ j ∈ (others (N.parties a) l.signup.number).take ansVec.length,
          Function.update f i m j = f j := by
        intro j hj
        refine Function.update_of_ne ?_ m f
        rintro rfl
        exact hnew hj
      refine ⟨Function.update f i m, ?_, fun j hj => ?_⟩
      · rw [List.length_append, List.length_singleton, List.take_add_one, hi, List.map_append,
          List.map_congr_left (fun j hj => congrArg N.json.toString (hkeep j hj)), ← hans]
        show _ = ansVec ++ [N.json.toString (Function.update f i m i)]
        rw [Function.update_self]
      · rw [List.length_append, List.length_singleton, List.take_add_one, hi] at hj
        rcases List.mem_append.mp hj with hj | hj
        · rw [hkeep j hj]
          exact hposted j hj
        · rw [List.mem_singleton.mp hj, Function.update_self]
          exact ⟨b, hb⟩

/-- Numbers are those of the parties. -/
theorem Inv.number (hn : 1 ≤ N.setup.params.parties) {s : World M} {log : List (Event M)}
    (h : Inv N s log) {k : Kind} {a : ℕ} {p : PartySignup} (ha : .signedUp k a p ∈ log) :
    1 ≤ p.number ∧ p.number ≤ k.parties N.setup.params := by
  obtain ⟨session, hnumbered⟩ := h.numbered
  obtain ⟨i, hi⟩ := List.getElem?_of_mem (mem_issued.mpr ha)
  have hmod := Nat.mod_lt i (one_le_parties hn k)
  rw [hnumbered.holds k i a p hi]
  exact ⟨Nat.succ_pos _, hmod⟩

/-- **The vector of a round** can be built once all entries have been read. -/
theorem Inv.finish_ok (hn : 1 ≤ N.setup.params.parties) {s : World M} {log : List (Event M)}
    (h : Inv N s log) {a : ℕ} {l : Locals M} {r : Round} {ansVec : List String}
    (hl : s.clients a = some l) (hr : (N.kind a).rounds[l.past.length]? = some r)
    (hstage : l.stage = .polling ansVec)
    (hi : (others (N.parties a) l.signup.number)[ansVec.length]? = none) :
    ∃ vec event, finish N a l r ansVec = .ok (vec, event) ∧ Sound N log event ∧
      (∀ k b p, event ≠ .signedUp k b p) ∧ ∀ b p round dest m, event ≠ .posted b p round dest m := by
  have hfollow := h.following a l hl
  obtain ⟨f, hans, hposted⟩ := hfollow.reads r ansVec hr hstage
  rw [List.take_of_length_le (List.getElem?_eq_none_iff.mp hi)] at hans hposted
  have hvalues : ansVec.mapM (fun v => unwrap (N.json.fromStr v))
      = .ok ((others (N.parties a) l.signup.number).map f) := by
    rw [hans, List.mapM_map]
    exact mapM_eq_ok_map (fun j _ => unwrap_eq_ok.mpr (N.json.fromStr_toString (f j)))
  rw [finish, hvalues, ok_bind]
  by_cases hp2p : r.p2p = true
  · simp only [hp2p, if_true] at hposted ⊢
    exact ⟨_, _, rfl, ⟨hfollow.signed, f, rfl, hposted⟩, nofun, nofun⟩
  · obtain ⟨h1, hle⟩ := h.number hn hfollow.signed
    have hle : l.signup.number ≤ N.parties a := hle
    -- the own value is put back among the others
    obtain ⟨g, hg⟩ : ∃ g, g = Function.update f l.signup.number
      ((N.program a).broadcast l.signup l.past) := ⟨_, rfl⟩
    have hown : g l.signup.number = (N.program a).broadcast l.signup l.past := by
      rw [hg, Function.update_self]
    have hothers : ∀ j ∈ others (N.parties a) l.signup.number, g j = f j := by
      intro j hj
      rw [hg, Function.update_of_ne (mem_others.mp hj).2]
    have hvec := formatVecFromReads_others h1 hle g
    rw [List.map_congr_left hothers, hown] at hvec
    rw [if_neg hp2p]
    refine ⟨_, _, bind_eq_ok.mpr ⟨_, hvec, rfl⟩, ⟨hfollow.signed, g, rfl, fun j hj1 hjn => ?_⟩,
      nofun, nofun⟩
    by_cases hj : j = l.signup.number
    · rw [hj, hown]
      refine ⟨a, hfollow.outboxed r hr ("", (N.program a).broadcast l.signup l.past) ?_⟩
      rw [hstage]
      show _ ∈ (outbox (N.program a) (N.parties a) l r).take
        (outbox (N.program a) (N.parties a) l r).length
      rw [List.take_length, outbox, if_neg hp2p]
      exact List.mem_cons_self
    · have hmem : j ∈ others (N.parties a) l.signup.number := mem_others.mpr ⟨⟨hj1, hjn⟩, hj⟩
      obtain ⟨b, hb⟩ := hposted j hmem
      rw [if_neg hp2p] at hb
      rw [hothers j hmem]
      exact ⟨b, hb⟩

/-- **A round ends.** -/
theorem Inv.finish (hn : 1 ≤ N.setup.params.parties) {s : World M} {log : List (Event M)}
    (h : Inv N s log) {a : ℕ} {l : Locals M} {r : Round} {ansVec : List String} {vec : List M}
    {event : Event M} (hl : s.clients a = some l)
    (hr : (N.kind a).rounds[l.past.length]? = some r) (hstage : l.stage = .polling ansVec)
    (hi : (others (N.parties a) l.signup.number)[ansVec.length]? = none)
    (hfinish : Mpt.finish N a l r ansVec = .ok (vec, event)) :
    Inv N (s.put a { l with past := l.past ++ [vec], stage := .posting 0 }) (log ++ [event]) := by
  have hsub : log ⊆ log ++ [event] := List.subset_append_left log _
  obtain ⟨vec', event', hok, hsound, hsigned, hposted⟩ := h.finish_ok hn hl hr hstage hi
  rw [hfinish] at hok
  cases hok
  refine h.put hl rfl (fun round dest => ?_)
    (fun k b p he => hsigned k b p (List.mem_singleton.mp he).symm)
    (fun b p round dest m he => hposted b p round dest m (List.mem_singleton.mp he).symm) ?_
    (fun e he => by rw [List.mem_singleton.mp he]; exact hsound.mono hsub)
  · rintro ⟨i, r', hir, hname, hpast⟩
    refine ⟨i, r', hir, hname, Or.inl ?_⟩
    show i < (l.past ++ [vec]).length
    rw [List.length_append, List.length_singleton]
    omega
  · refine ⟨hsub (h.following a l hl).signed, fun r' _ e he => absurd he List.not_mem_nil,
      fun r' ansVec' _ hpoll => by cases hpoll⟩

/-! ## Runs -/

theorem inv_step (hn : 1 ≤ N.setup.params.parties) {s s' : World M} {log out : List (Event M)}
    {a : ℕ} (h : Inv N s log) (hstep : step N s a = .ok (s', out)) : Inv N s' (log ++ out) := by
  cases move_of_step hstep with
  | signup hnone hsign => exact h.signup hn hnone hsign
  | stay =>
    rw [List.append_nil]
    exact h
  | post hl hr hstage hout => exact h.post hn hl hr hstage hout
  | turn hl hr hstage hout => exact h.turn hl hr hstage hout
  | read hl hr hstage hi hv => exact h.read hl hr hstage hi hv
  | finish hl hr hstage hi hfinish => exact h.finish hn hl hr hstage hi hfinish

/-- **The invariant holds in every run.** -/
theorem inv_run (hn : 1 ≤ N.setup.params.parties) (acts : List ℕ) :
    Inv N (run (step N) (init N) acts).1 (run (step N) (init N) acts).2 :=
  run_invariant (Inv N) inv_init (fun _ _ _ _ _ h hstep => inv_step hn h hstep) acts

/-- **No client gets stuck in an error.** -/
theorem exists_step (hn : 1 ≤ N.setup.params.parties) {s : World M} {log : List (Event M)}
    (h : Inv N s log) (a : ℕ) : ∃ r, step N s a = .ok r := by
  rw [step]
  cases hl : s.clients a with
  | none =>
    obtain ⟨session, hnumbered⟩ := h.numbered
    obtain ⟨node, p, _, hsign, -, -⟩ := hnumbered.signup hn (N.kind a)
    exact ⟨_, bind_eq_ok.mpr ⟨_, hsign, rfl⟩⟩
  | some l =>
    cases hr : (N.kind a).rounds[l.past.length]? with
    | none =>
      simp only [hr]
      exact ⟨_, rfl⟩
    | some r =>
      cases hstage : l.stage with
      | posting sent =>
        cases hout : (outbox (N.program a) (N.parties a) l r)[sent]? with
        | some e =>
          simp only [hr, hstage, hout]
          exact ⟨_, rfl⟩
        | none =>
          simp only [hr, hstage, hout]
          exact ⟨_, rfl⟩
      | polling ansVec =>
        cases hi : (others (N.parties a) l.signup.number)[ansVec.length]? with
        | some i =>
          cases hv : Api.get s.node (inboxKey l.signup r i) with
          | some v =>
            simp only [hr, hstage, hi, hv]
            exact ⟨_, rfl⟩
          | none =>
            simp only [hr, hstage, hi, hv]
            exact ⟨_, rfl⟩
        | none =>
          obtain ⟨vec, event, hfinish, -⟩ := h.finish_ok hn hl hr hstage hi
          simp only [hr, hstage, hi, hfinish, ok_bind]
          exact ⟨_, rfl⟩

/-! ## Sessions -/

variable (N)

/-- **Session formation and round agreement**, of what has happened in a run. -/
structure SessionsAgree (log : List (Event M)) : Prop where
  /-- Within a session the numbers are distinct; a session is one of key generation or of
  signing. -/
  distinct : ∀ k k' a b p p', .signedUp k a p ∈ log → .signedUp k' b p' ∈ log →
    p.uuid = p'.uuid → k = k' ∧ (p.number = p'.number → a = b)
  number : ∀ k a p, .signedUp k a p ∈ log → 1 ≤ p.number ∧ p.number ≤ k.parties N.setup.params
  /-- Once the next session opens, every number has been given. -/
  full : ∀ pre post k a b p p', log = pre ++ .signedUp k b p' :: post → .signedUp k a p ∈ pre →
    p'.uuid ≠ p.uuid → ∀ i, 1 ≤ i → i ≤ k.parties N.setup.params →
      ∃ c, .signedUp k c ⟨i, p.uuid⟩ ∈ pre
  /-- A client signs up once, and posts under its own number. -/
  signup : ∀ k k' a p p', .signedUp k a p ∈ log → .signedUp k' a p' ∈ log → k = k' ∧ p = p'
  poster : ∀ a p round dest m, .posted a p round dest m ∈ log → .signedUp (N.kind a) a p ∈ log
  /-- There is one value of a round under a number, for each addressee. -/
  posted : ∀ a b p round dest m m', .posted a p round dest m ∈ log →
    .posted b p round dest m' ∈ log → a = b ∧ m = m'
  /-- The entry of `i` in the vector of a round is the value that the holder of `i` has posted. -/
  built : ∀ a p round vec, .built a p round vec ∈ log → .signedUp (N.kind a) a p ∈ log ∧
    vec.length = N.parties a ∧ ∀ i, 1 ≤ i → i ≤ N.parties a → ∃ b m,
      .posted b ⟨i, p.uuid⟩ round "" m ∈ log ∧ vec[i - 1]? = some m
  /-- The clients of a session hold the same vector. -/
  agree : ∀ a b p p' round vec vec', .built a p round vec ∈ log → .built b p' round vec' ∈ log →
    p.uuid = p'.uuid → vec = vec'
  /-- What a client reads of the others is what they have addressed to it. -/
  received : ∀ a p round (ansVec : List M), .received a p round ansVec ∈ log →
    .signedUp (N.kind a) a p ∈ log ∧ ansVec.length = (others (N.parties a) p.number).length ∧
      ∀ (j i : ℕ), (others (N.parties a) p.number)[j]? = some i → ∃ b m,
        .posted b ⟨i, p.uuid⟩ round (toString p.number) m ∈ log ∧ ansVec[j]? = some m

variable {N}

/-- Once the next session opens, every number has been given. -/
theorem Inv.full {s : World M} {log : List (Event M)} (h : Inv N s log)
    {pre post : List (Event M)} {k : Kind} {a b : ℕ} {p p' : PartySignup}
    (hlog : log = pre ++ .signedUp k b p' :: post) (ha : .signedUp k a p ∈ pre)
    (hne : p'.uuid ≠ p.uuid) {i : ℕ} (h1 : 1 ≤ i) (hi : i ≤ k.parties N.setup.params) :
    ∃ c, .signedUp k c ⟨i, p.uuid⟩ ∈ pre := by
  obtain ⟨session, hnumbered⟩ := h.numbered
  have hissued : issued log k = issued pre k ++ (b, p') :: issued post k := by
    rw [hlog, issued_append]
    refine congrArg _ ?_
    simp only [issued, List.filterMap_cons, if_true]
  obtain ⟨m, hm⟩ := List.getElem?_of_mem (mem_issued.mpr ha)
  have hlt : m < (issued pre k).length := (List.getElem?_eq_some_iff.mp hm).1
  have hpa := hnumbered.holds k m a p (by rw [hissued, List.getElem?_append_left hlt, hm])
  have hpb := hnumbered.holds k (issued pre k).length b p' (by
    rw [hissued, List.getElem?_append_right (le_refl _), Nat.sub_self, List.getElem?_cons_zero])
  have hlater : m / k.parties N.setup.params
      < (issued pre k).length / k.parties N.setup.params := by
    refine lt_of_le_of_ne (Nat.div_le_div_right hlt.le) (fun hses => hne ?_)
    rw [hpa, hpb, hses]
  obtain ⟨x, hx, hnum, hses⟩ := exists_ticket_of_lt hlater h1 hi
  obtain ⟨⟨c, q⟩, hq⟩ : ∃ e, (issued pre k)[x]? = some e := ⟨_, List.getElem?_eq_getElem hx⟩
  have hpc := hnumbered.holds k x c q (by rw [hissued, List.getElem?_append_left hx, hq])
  refine ⟨c, mem_issued.mp ?_⟩
  rw [hnum, hses] at hpc
  rw [hpa, ← hpc]
  exact List.mem_of_getElem? hq

/-- A message is posted under the number of the client. -/
theorem Inv.poster {s : World M} {log : List (Event M)} (h : Inv N s log) {a : ℕ} {p : PartySignup}
    {round dest : String} {m : M} (ha : .posted a p round dest m ∈ log) :
    .signedUp (N.kind a) a p ∈ log := by
  obtain ⟨l, hl, rfl, -⟩ := h.sent a p round dest m ha
  exact (h.following a l hl).signed

/-- There is one message under a key. -/
theorem Inv.posted_unique (hn : 1 ≤ N.setup.params.parties) {s : World M} {log : List (Event M)}
    (h : Inv N s log) {a b : ℕ} {p : PartySignup} {round dest : String} {m m' : M}
    (ha : .posted a p round dest m ∈ log) (hb : .posted b p round dest m' ∈ log) :
    a = b ∧ m = m' := by
  obtain ⟨-, hsame⟩ := h.holder hn (h.poster ha) (h.poster hb) rfl
  have hm := (h.stored p.uuid p.number round dest _).mpr ⟨a, m, ha, rfl⟩
  have hm' := (h.stored p.uuid p.number round dest _).mpr ⟨b, m', hb, rfl⟩
  rw [hm] at hm'
  exact ⟨hsame rfl, N.json.toString_inj (Option.some.inj hm')⟩

/-- The entries of a vector that has been built. -/
theorem Inv.built {s : World M} {log : List (Event M)} (h : Inv N s log) {a : ℕ} {p : PartySignup}
    {round : String} {vec : List M} (ha : .built a p round vec ∈ log) :
    .signedUp (N.kind a) a p ∈ log ∧ vec.length = N.parties a ∧
      ∀ i, 1 ≤ i → i ≤ N.parties a → ∃ b m,
        .posted b ⟨i, p.uuid⟩ round "" m ∈ log ∧ vec[i - 1]? = some m := by
  obtain ⟨hsigned, f, rfl, hposted⟩ := h.sound _ ha
  refine ⟨hsigned, by rw [List.length_map, List.length_range'], fun i h1 hi => ?_⟩
  obtain ⟨b, hb⟩ := hposted i h1 hi
  exact ⟨b, f i, hb, getElem?_range'_map f h1 hi⟩

/-- Two clients of a session build the same vector. -/
theorem Inv.agree (hn : 1 ≤ N.setup.params.parties) {s : World M} {log : List (Event M)}
    (h : Inv N s log) {a b : ℕ} {p p' : PartySignup} {round : String} {vec vec' : List M}
    (ha : .built a p round vec ∈ log) (hb : .built b p' round vec' ∈ log)
    (huuid : p.uuid = p'.uuid) :
    vec = vec' := by
  obtain ⟨hsigned, hlen, hentry⟩ := h.built ha
  obtain ⟨hsigned', hlen', hentry'⟩ := h.built hb
  obtain ⟨hkind, -⟩ := h.holder hn hsigned hsigned' huuid
  have hparties : N.parties b = N.parties a := by rw [Network.parties, Network.parties, hkind]
  refine List.ext_getElem? (fun i => ?_)
  by_cases hi : i < N.parties a
  · obtain ⟨c, m, hc, hm⟩ := hentry (i + 1) (Nat.succ_pos i) hi
    obtain ⟨c', m', hc', hm'⟩ := hentry' (i + 1) (Nat.succ_pos i) (by omega)
    rw [← huuid] at hc'
    obtain ⟨-, hsame⟩ := h.posted_unique hn hc hc'
    rw [Nat.add_sub_cancel] at hm hm'
    rw [hm, hm', hsame]
  · rw [List.getElem?_eq_none (by omega), List.getElem?_eq_none (by omega)]

theorem Inv.sessionsAgree (hn : 1 ≤ N.setup.params.parties) {s : World M} {log : List (Event M)}
    (h : Inv N s log) : SessionsAgree N log where
  distinct _ _ _ _ _ _ ha hb huuid := h.holder hn ha hb huuid
  number _ _ _ ha := h.number hn ha
  full _ _ _ _ _ _ _ hlog ha hne _ h1 hi := h.full hlog ha hne h1 hi
  signup k k' a p p' ha hb := by
    obtain ⟨rfl, l, hl, rfl⟩ := h.signed k a p ha
    obtain ⟨rfl, l', hl', rfl⟩ := h.signed k' a p' hb
    rw [hl] at hl'
    cases hl'
    exact ⟨rfl, rfl⟩
  poster _ _ _ _ _ ha := h.poster ha
  posted _ _ _ _ _ _ _ ha hb := h.posted_unique hn ha hb
  built _ _ _ _ ha := h.built ha
  agree _ _ _ _ _ _ _ ha hb huuid := h.agree hn ha hb huuid
  received a p round ansVec ha := by
    obtain ⟨hsigned, f, rfl, hposted⟩ := h.sound _ ha
    refine ⟨hsigned, List.length_map f, fun j i hj => ?_⟩
    obtain ⟨b, hb⟩ := hposted i (List.mem_of_getElem? hj)
    exact ⟨b, f i, hb, by rw [List.getElem?_map, hj, Option.map_some]⟩

/-- **Sessions over the shared store**, for any number of clients and any order of their requests.
A request of an entry is answered exactly when it has been posted, and no client gets stuck in an
error. -/
theorem sessions_agree (hn : 1 ≤ N.setup.params.parties) (acts : List ℕ) :
    SessionsAgree N (run (step N) (init N) acts).2 ∧
    (∀ uuid number round dest v,
      Api.get (run (step N) (init N) acts).1.node (entryKey uuid number round dest) = some v ↔
        ∃ a m, .posted a ⟨number, uuid⟩ round dest m ∈ (run (step N) (init N) acts).2 ∧
          v = N.json.toString m) ∧
    ∀ a, ∃ r, step N (run (step N) (init N) acts).1 a = .ok r :=
  ⟨(inv_run hn acts).sessionsAgree hn, (inv_run hn acts).stored, exists_step hn (inv_run hn acts)⟩

end Invariant

/-! ## Two parties -/

/-- Numbers in unary. -/
def unaryJson : Json ℕ where
  toString n := String.ofList (List.replicate n 'x')
  fromStr s := some s.toList.length
  fromStr_toString n := by rw [String.toList_ofList, List.length_replicate]

/-- The number of a record in unary, and its uuid. -/
def unarySignupJson : Json PartySignup where
  toString p := String.ofList (List.replicate p.number 'x' ++ '-' :: p.uuid.toList)
  fromStr s := some ⟨(s.toList.takeWhile (· == 'x')).length,
    String.ofList ((s.toList.dropWhile (· == 'x')).drop 1)⟩
  fromStr_toString p := by
    have hall : ∀ c ∈ List.replicate p.number 'x', (c == 'x') = true := by simp
    have htake : (List.replicate p.number 'x' ++ '-' :: p.uuid.toList).takeWhile (· == 'x')
        = List.replicate p.number 'x' := by
      rw [List.takeWhile_append_of_pos hall, List.takeWhile_cons_of_neg (by decide), List.append_nil]
    have hdrop : (List.replicate p.number 'x' ++ '-' :: p.uuid.toList).dropWhile (· == 'x')
        = '-' :: p.uuid.toList := by
      rw [List.dropWhile_append_of_pos hall, List.dropWhile_cons_of_neg (by decide)]
    rw [String.toList_ofList, htake, hdrop, List.length_replicate, List.drop_one, List.tail_cons,
      String.ofList_toList]

/-- Two parties generate keys; client `a` posts `a + 5`. -/
def pairNetwork : Network ℕ where
  setup :=
    { params := ⟨2, 1⟩
      newV4 := unaryJson.toString
      newV4_injective := fun _ _ h => unaryJson.toString_inj h
      json := unarySignupJson }
  json := unaryJson
  program a := ⟨.keygen, fun _ _ => a + 5, fun _ _ i => a + i⟩

/-- The clients `1` and `0` sign up in this order, post, and build the same vector in round 1. -/
theorem sessions_agree_pair :
    SessionsAgree pairNetwork
      (run (step pairNetwork) (init pairNetwork) [1, 0, 1, 1, 1, 0, 1, 1, 0, 0, 0]).2 ∧
    (run (step pairNetwork) (init pairNetwork) [1, 0, 1, 1, 1, 0, 1, 1, 0, 0, 0]).2 =
      [.signedUp .keygen 1 ⟨1, ""⟩, .signedUp .keygen 0 ⟨2, ""⟩, .posted 1 ⟨1, ""⟩ "round1" "" 6,
        .posted 0 ⟨2, ""⟩ "round1" "" 5, .built 1 ⟨1, ""⟩ "round1" [6, 5],
        .built 0 ⟨2, ""⟩ "round1" [6, 5]] :=
  ⟨(sessions_agree (N := pairNetwork) (by decide) [1, 0, 1, 1, 1, 0, 1, 1, 0, 0, 0]).1, rfl⟩

end VDexNode.Mpt
