import VDexNode.Lib.Tickets
import VDexNode.Mpt.Client

/-!
# VDexNode.Mpt.Signups — numbers of the parties of a session

The record of a kind is a ticket dispenser: `Numbered` relates it to the signups so far, in the
order in which the server has answered them, and to the uuids drawn.

* `entryKey_inj`, `entryKey_ne_key` : entries of different parties, rounds or sessions do not
  collide, nor does an entry with a record.
* `Numbered.position` : **a number of a session belongs to one signup.**
* `Numbered.signup` : **a signup hands out the next ticket.**
-/

namespace VDexNode.Mpt

open Api

/-! ## Keys -/

/-- The record of a kind. -/
def Kind.key : Kind → TupleKey
  | .keygen => keygenKey
  | .sign => signKey

theorem Kind.key_injective : Function.Injective Kind.key := by
  intro k k' h
  cases k <;> cases k' <;> first | rfl | exact absurd h (by decide)

theorem signup_eq (S : Setup) (k : Kind) (s : Api.Node) :
    k.signup S s = signupUnder S k.key (k.parties S.params) s := by
  cases k <;> rfl

/-- A signup in a session that is open. -/
theorem signup_open {S : Setup} {k : Kind} {s : Api.Node} {p : PartySignup}
    (hp : Api.get s k.key = some (S.json.toString p)) (hlt : p.number < k.parties S.params) :
    k.signup S s = .ok (Api.set s k.key (S.json.toString ⟨p.number + 1, p.uuid⟩),
      ⟨p.number + 1, p.uuid⟩) := by
  rw [signup_eq, signupUnder, unwrap_eq_ok.mpr hp, ok_bind,
    unwrap_eq_ok.mpr (S.json.fromStr_toString p), ok_bind]
  exact if_pos hlt

/-- A signup once the session is full: the next one takes the next uuid. -/
theorem signup_full {S : Setup} {k : Kind} {s : Api.Node} {p : PartySignup}
    (hp : Api.get s k.key = some (S.json.toString p)) (hge : ¬ p.number < k.parties S.params) :
    k.signup S s = .ok (Api.set { s with drawn := s.drawn + 1 } k.key
      (S.json.toString ⟨1, S.newV4 s.drawn⟩), ⟨1, S.newV4 s.drawn⟩) := by
  rw [signup_eq, signupUnder, unwrap_eq_ok.mpr hp, ok_bind,
    unwrap_eq_ok.mpr (S.json.fromStr_toString p), ok_bind]
  exact if_neg hge

/-- Decimal numbers are read back. -/
theorem number_of_toString {i j : ℕ} (h : toString i = toString j) : i = j := by
  have hdigits : Nat.toDigits 10 i = Nat.toDigits 10 j := by
    rw [← Nat.toList_repr, ← Nat.toList_repr]
    exact congrArg String.toList h
  rw [← Nat.ofDigitChars_ten_toDigits (n := i), hdigits, Nat.ofDigitChars_ten_toDigits]

/-- An entry of a party is not a record. -/
theorem entryKey_ne_key (uuid : String) (number : ℕ) (round dest : String) (k : Kind) :
    entryKey uuid number round dest ≠ k.key := by
  intro h
  have hfirst : toString number = "signup" := by
    have hfirst := congrArg TupleKey.first h
    cases k <;> exact hfirst
  have hs : 's' ∈ Nat.toDigits 10 number := by
    rw [← Nat.toList_repr]
    have hlist : (toString number).toList = "signup".toList := congrArg String.toList hfirst
    show 's' ∈ (toString number).toList
    rw [hlist]
    decide
  exact absurd (Nat.isDigit_of_mem_toDigits (by decide) (by decide) hs) (by decide)

theorem entryKey_inj {uuid uuid' : String} {number number' : ℕ} {round round' dest dest' : String}
    (h : entryKey uuid number round dest = entryKey uuid' number' round' dest') :
    uuid = uuid' ∧ number = number' ∧ round = round' ∧ dest = dest' := by
  obtain ⟨hnumber, hround, huuid, hdest⟩ := TupleKey.mk.inj h
  exact ⟨huuid, number_of_toString hnumber, hround, hdest⟩

/-! ## Signups -/

section Signups

variable {M : Type}

/-- The signups of a kind, in order. -/
def issued (log : List (Event M)) (k : Kind) : List (ℕ × PartySignup) :=
  log.filterMap (fun e => match e with
    | .signedUp k' a p => if k' = k then some (a, p) else none
    | _ => none)

theorem issued_append (log out : List (Event M)) (k : Kind) :
    issued (log ++ out) k = issued log k ++ issued out k := List.filterMap_append

theorem mem_issued {log : List (Event M)} {k : Kind} {a : ℕ} {p : PartySignup} :
    (a, p) ∈ issued log k ↔ .signedUp k a p ∈ log := by
  rw [issued, List.mem_filterMap]
  constructor
  · rintro ⟨e, he, h⟩
    cases e with
    | signedUp k' b p' =>
      by_cases hk : k' = k
      · simp only [hk, if_true] at h
        cases h
        rw [← hk]
        exact he
      · simp only [hk, if_false] at h
        cases h
    | posted | built | received => cases h
  · intro h
    exact ⟨_, h, by simp only [if_true]⟩

theorem issued_signedUp (log : List (Event M)) (k : Kind) (a : ℕ) (p : PartySignup) :
    issued (log ++ [.signedUp k a p])
      = Function.update (issued log) k (issued log k ++ [(a, p)]) := by
  funext k'
  rw [issued_append]
  by_cases hk : k' = k
  · rw [hk, Function.update_self]
    simp only [issued, List.filterMap_cons, if_true, List.filterMap_nil]
  · rw [Function.update_of_ne hk]
    simp only [issued, List.filterMap_cons, Ne.symm hk, if_false, List.filterMap_nil,
      List.append_nil]

/-- The last ticket of a kind. -/
def lastTicket (S : Setup) (iss : Kind → List (ℕ × PartySignup)) (k : Kind) : ℕ × ℕ :=
  ticket (k.parties S.params) (iss k).length

/-- The records and the tickets handed out: `session k j` is the uuid drawn for session `j`. -/
structure Numbered (S : Setup) (node : Api.Node) (iss : Kind → List (ℕ × PartySignup))
    (session : Kind → ℕ → ℕ) : Prop where
  record : ∀ k : Kind, Api.get node k.key = some (S.json.toString
    ⟨(lastTicket S iss k).1, S.newV4 (session k (lastTicket S iss k).2)⟩)
  drawn : ∀ k j, j ≤ (lastTicket S iss k).2 → session k j < node.drawn
  inj : ∀ k j k' j', j ≤ (lastTicket S iss k).2 → j' ≤ (lastTicket S iss k').2 →
    session k j = session k' j' → k = k' ∧ j = j'
  holds : ∀ (k : Kind) i a (p : PartySignup), (iss k)[i]? = some (a, p) →
    p = ⟨i % k.parties S.params + 1, S.newV4 (session k (i / k.parties S.params))⟩

variable {S : Setup} {node node' : Api.Node} {iss : Kind → List (ℕ × PartySignup)}
  {session session' : Kind → ℕ → ℕ}

theorem one_le_parties (hn : 1 ≤ S.params.parties) (k : Kind) : 1 ≤ k.parties S.params := by
  cases k with
  | keygen => exact hn
  | sign => exact Nat.succ_pos _

/-- Entries of parties leave the records alone. -/
theorem Numbered.frame (h : Numbered S node iss session)
    (hget : ∀ k : Kind, Api.get node' k.key = Api.get node k.key)
    (hdrawn : node'.drawn = node.drawn) :
    Numbered S node' iss session where
  record k := by rw [hget, h.record]
  drawn k j hj := by
    rw [hdrawn]
    exact h.drawn k j hj
  inj := h.inj
  holds := h.holds

/-- **A number of a session belongs to one signup.** -/
theorem Numbered.position (hn : 1 ≤ S.params.parties) (h : Numbered S node iss session) {k k' : Kind}
    {i i' a a' : ℕ} {p p' : PartySignup} (hi : (iss k)[i]? = some (a, p))
    (hi' : (iss k')[i']? = some (a', p')) (huuid : p.uuid = p'.uuid) :
    k = k' ∧ i / k.parties S.params = i' / k'.parties S.params ∧
      (p.number = p'.number → i = i') := by
  have hlt : i < (iss k).length := (List.getElem?_eq_some_iff.mp hi).1
  have hlt' : i' < (iss k').length := (List.getElem?_eq_some_iff.mp hi').1
  have hp := h.holds k i a p hi
  have hp' := h.holds k' i' a' p' hi'
  have hdraw : session k (i / k.parties S.params) = session k' (i' / k'.parties S.params) := by
    rw [hp, hp'] at huuid
    exact S.newV4_injective huuid
  obtain ⟨rfl, hses⟩ := h.inj _ _ _ _ (session_le (one_le_parties hn k) hlt)
    (session_le (one_le_parties hn k') hlt') hdraw
  refine ⟨rfl, hses, fun hnum => ?_⟩
  rw [hp, hp'] at hnum
  exact ticket_inj hnum hses

/-- The last ticket of a kind, after one more signup of the kind. -/
theorem lastTicket_update_self (k : Kind) (e : ℕ × PartySignup) :
    lastTicket S (Function.update iss k (iss k ++ [e])) k
      = nextTicket (k.parties S.params) (lastTicket S iss k) := by
  rw [lastTicket, Function.update_self, List.length_append]
  rfl

theorem lastTicket_update_of_ne {k k' : Kind} (hk : k' ≠ k) (l : List (ℕ × PartySignup)) :
    lastTicket S (Function.update iss k l) k' = lastTicket S iss k' := by
  rw [lastTicket, Function.update_of_ne hk, lastTicket]

/-- The signups hold their tickets, the new one the last. -/
theorem Numbered.holds_concat (hn : 1 ≤ S.params.parties) (h : Numbered S node iss session) {k : Kind}
    {a : ℕ} {t : ℕ × ℕ} (ht : t = nextTicket (k.parties S.params) (lastTicket S iss k))
    (hold : ∀ k' j, j ≤ (lastTicket S iss k').2 → session' k' j = session k' j) (k' : Kind) (i b : ℕ)
    (p : PartySignup) (hi : (Function.update iss k
      (iss k ++ [(a, ⟨t.1, S.newV4 (session' k t.2)⟩)]) k')[i]? = some (b, p)) :
    p = ⟨i % k'.parties S.params + 1, S.newV4 (session' k' (i / k'.parties S.params))⟩ := by
  have hkept : ∀ k', (iss k')[i]? = some (b, p) →
      p = ⟨i % k'.parties S.params + 1, S.newV4 (session' k' (i / k'.parties S.params))⟩ := by
    intro k' hi
    have hlt : i < (iss k').length := (List.getElem?_eq_some_iff.mp hi).1
    rw [hold k' _ (session_le (one_le_parties hn k') hlt)]
    exact h.holds k' i b p hi
  by_cases hk : k' = k
  · subst hk
    rw [Function.update_self] at hi
    by_cases hlt : i < (iss k').length
    · rw [List.getElem?_append_left hlt] at hi
      exact hkept k' hi
    · have hlast : i = (iss k').length := by
        have hlen := (List.getElem?_eq_some_iff.mp hi).1
        rw [List.length_append, List.length_singleton] at hlen
        omega
      rw [hlast, List.getElem?_append_right (le_refl _), Nat.sub_self] at hi
      have hp : p = ⟨t.1, S.newV4 (session' k' t.2)⟩ := (Prod.mk.inj (Option.some.inj hi)).2.symm
      have hnext : t = (i % k'.parties S.params + 1, i / k'.parties S.params) := by
        rw [ht, hlast]
        exact ticket_succ (one_le_parties hn k') _
      rw [hp, hnext]
  · rw [Function.update_of_ne hk] at hi
    exact hkept k' hi

/-- One more ticket: `t` is the next one, and its session is open or takes the next uuid. -/
theorem Numbered.extend (hn : 1 ≤ S.params.parties) (h : Numbered S node iss session) {k : Kind}
    {a : ℕ} {t : ℕ × ℕ} (ht : t = nextTicket (k.parties S.params) (lastTicket S iss k))
    (hrecord : Api.get node' k.key = some (S.json.toString ⟨t.1, S.newV4 (session' k t.2)⟩))
    (hframe : ∀ key, key ≠ k.key → Api.get node' key = Api.get node key)
    (hold : ∀ k' j, j ≤ (lastTicket S iss k').2 → session' k' j = session k' j)
    (hdrawn : node.drawn ≤ node'.drawn)
    (hnew : ∀ j, j ≤ t.2 → j ≤ (lastTicket S iss k).2 ∨
      j = t.2 ∧ session' k j = node.drawn ∧ node.drawn < node'.drawn) :
    Numbered S node'
      (Function.update iss k (iss k ++ [(a, ⟨t.1, S.newV4 (session' k t.2)⟩)])) session' := by
  -- an open session is an old one, or the one that takes the next uuid
  have hopen : ∀ k' j, j ≤ (lastTicket S (Function.update iss k
      (iss k ++ [(a, ⟨t.1, S.newV4 (session' k t.2)⟩)])) k').2 → j ≤ (lastTicket S iss k').2 ∨
        k' = k ∧ j = t.2 ∧ session' k' j = node.drawn ∧ node.drawn < node'.drawn := by
    intro k' j hj
    by_cases hk : k' = k
    · subst hk
      rw [lastTicket_update_self, ← ht] at hj
      exact (hnew j hj).imp_right (fun hj => ⟨rfl, hj⟩)
    · rw [lastTicket_update_of_ne hk] at hj
      exact Or.inl hj
  refine ⟨fun k' => ?_, fun k' j hj => ?_, fun k₁ j₁ k₂ j₂ h₁ h₂ heq => ?_,
    h.holds_concat hn ht hold⟩
  · by_cases hk : k' = k
    · rw [hk, lastTicket_update_self, ← ht]
      exact hrecord
    · rw [lastTicket_update_of_ne hk, hframe k'.key (fun hkey => hk (Kind.key_injective hkey)),
        h.record, hold k' _ (le_refl _)]
  · rcases hopen k' j hj with hj | ⟨-, -, hj, hlt⟩
    · rw [hold k' j hj]
      exact lt_of_lt_of_le (h.drawn k' j hj) hdrawn
    · rw [hj]
      exact hlt
  · rcases hopen k₁ j₁ h₁ with h₁ | ⟨hk₁, hj₁, hd₁, -⟩ <;>
      rcases hopen k₂ j₂ h₂ with h₂ | ⟨hk₂, hj₂, hd₂, -⟩
    · rw [hold k₁ j₁ h₁, hold k₂ j₂ h₂] at heq
      exact h.inj k₁ j₁ k₂ j₂ h₁ h₂ heq
    · rw [hold k₁ j₁ h₁, hd₂] at heq
      exact absurd heq (h.drawn k₁ j₁ h₁).ne
    · rw [hd₁, hold k₂ j₂ h₂] at heq
      exact absurd heq.symm (h.drawn k₂ j₂ h₂).ne
    · exact ⟨hk₁.trans hk₂.symm, hj₁.trans hj₂.symm⟩

/-- **A signup hands out the next ticket** and touches nothing but its record. -/
theorem Numbered.signup (hn : 1 ≤ S.params.parties) (h : Numbered S node iss session) (k : Kind) :
    ∃ node' p session', k.signup S node = .ok (node', p) ∧
      (∀ a, Numbered S node' (Function.update iss k (iss k ++ [(a, p)])) session') ∧
      ∀ key, key ≠ k.key → Api.get node' key = Api.get node key := by
  by_cases hlt : (lastTicket S iss k).1 < k.parties S.params
  · have ht : ((lastTicket S iss k).1 + 1, (lastTicket S iss k).2)
        = nextTicket (k.parties S.params) (lastTicket S iss k) := (if_pos hlt).symm
    obtain ⟨p, hp⟩ : ∃ p : PartySignup, p = ⟨(lastTicket S iss k).1 + 1,
      S.newV4 (session k (lastTicket S iss k).2)⟩ := ⟨_, rfl⟩
    refine ⟨Api.set node k.key (S.json.toString p), p, session, ?_, fun a => ?_,
      fun key hkey => get_set_of_ne node hkey _⟩
    · rw [hp]
      exact signup_open (h.record k) hlt
    · rw [hp]
      exact h.extend hn ht (get_set_self node k.key _) (fun key hkey => get_set_of_ne node hkey _)
        (fun _ _ _ => rfl) (le_refl _) (fun j hj => Or.inl hj)
  · have ht : (1, (lastTicket S iss k).2 + 1)
        = nextTicket (k.parties S.params) (lastTicket S iss k) := (if_neg hlt).symm
    obtain ⟨session', hsession'⟩ : ∃ session', session' = fun k' j =>
      if k' = k ∧ j = (lastTicket S iss k).2 + 1 then node.drawn else session k' j := ⟨_, rfl⟩
    have hopened : session' k ((lastTicket S iss k).2 + 1) = node.drawn := by
      rw [hsession']
      exact if_pos ⟨rfl, rfl⟩
    have hold : ∀ k' j, j ≤ (lastTicket S iss k').2 → session' k' j = session k' j := by
      intro k' j hj
      rw [hsession']
      refine if_neg ?_
      rintro ⟨rfl, rfl⟩
      omega
    obtain ⟨p, hp⟩ : ∃ p : PartySignup,
      p = ⟨1, S.newV4 (session' k ((lastTicket S iss k).2 + 1))⟩ := ⟨_, rfl⟩
    refine ⟨Api.set { node with drawn := node.drawn + 1 } k.key (S.json.toString p), p, session', ?_,
      fun a => ?_, fun key hkey => get_set_of_ne { node with drawn := node.drawn + 1 } hkey _⟩
    · rw [hp, hopened]
      exact signup_full (h.record k) hlt
    · rw [hp]
      refine h.extend hn ht (get_set_self _ k.key _) (fun key hkey => get_set_of_ne _ hkey _) hold
        (Nat.le_succ _) (fun j hj => ?_)
      rcases Nat.lt_or_eq_of_le hj with hj | rfl
      · exact Or.inl (Nat.lt_succ_iff.mp hj)
      · exact Or.inr ⟨rfl, hopened, Nat.lt_succ_self _⟩

/-- The records that the server announces. -/
theorem numbered_announce (S : Setup) :
    Numbered S (announce S) (fun _ => []) (fun k _ => if k = .keygen then 0 else 1) where
  record k := by
    cases k with
    | keygen =>
      have hne : keygenKey ≠ signKey := by decide
      show Api.get (Api.set _ signKey _) keygenKey = _
      rw [get_set_of_ne _ hne, get_set_self]
      rfl
    | sign =>
      show Api.get (Api.set _ signKey _) signKey = _
      rw [get_set_self]
      rfl
  drawn k j _ := by
    cases k with
    | keygen => exact Nat.zero_lt_two
    | sign => exact Nat.one_lt_two
  inj k j k' j' hj hj' h := by
    have hj : j ≤ 0 := hj
    have hj' : j' ≤ 0 := hj'
    refine ⟨?_, by omega⟩
    cases k <;> cases k' <;> first | rfl | exact absurd h (by decide)
  holds k i a p h := by cases h

end Signups

end VDexNode.Mpt
