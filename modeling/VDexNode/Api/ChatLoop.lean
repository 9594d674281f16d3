import Mathlib.Algebra.Group.Nat.Defs
import Mathlib.Data.List.AList
import VDexNode.Lib.Machine

/-!
# VDexNode.Api.ChatLoop — joining and leaving chat rooms

`Handler::join` numbers a new reader and queues a `Join`, the reader's `drop` queues a `Leave`, and
the chat loop of `main` takes the queue, a batch at a time, and opens or cancels a listening of the
DHT for each event.  The queue is behind one lock, and the counter behind that of the handler, which
is held throughout `join`; so what happens is a sequence of such accesses, in any order, and
`chatLoopStep` makes one of them.

* `Ordered` : events are queued once, a `Leave` after its `Join`; what is queued is what has been
  handled, what is left of the batch and what waits.
* `Listening` : the tokens are those of the rooms joined and not left.
* `run_iteration` : an iteration handles all that waits when it begins.
* `subscriptions_balanced` : **every event is handled once, no `Leave` comes without its `Join`, and
  every listening is cancelled when its reader has left.**
-/

namespace VDexNode.Api

/-! ## The chat loop -/

/-- `ChatEvent`: the id of the reader and its room.  The queue of messages that a `Join` carries is
the reader's own and no event looks at it. -/
inductive ChatEvent where
  | join (id : ℕ) (room : String)
  | leave (id : ℕ) (room : String)
deriving DecidableEq, Repr

/-- The counter of the handler, the shared list of events, the readers that are alive, and the
locals of the chat loop: what is left of the batch, and the tokens of `listen`, of which `listens`
have been handed out. -/
structure ChatState where
  chatReadersIdx : ℕ := 0
  chatEvents : List ChatEvent := []
  readers : List (ℕ × String) := []
  events : List ChatEvent := []
  tokens : AList (fun _ : ℕ × String => ℕ) := ∅
  listens : ℕ := 0

/-- What may happen: a request joins a room, a reader is dropped, the loop takes the shared list, or
it handles the next event of its batch. -/
inductive ChatAction where
  | join (room : String)
  | drop (id : ℕ) (room : String)
  | takeEvents
  | handleEvent
deriving DecidableEq, Repr

/-- What a step did: an event was queued, or one was handled, a `Join` by `listen` and a `Leave` by
`cancel_listen` or by the warning of an invalid parameter. -/
inductive Note where
  | queued (e : ChatEvent)
  | listened (id : ℕ) (room : String) (token : ℕ)
  | cancelled (id : ℕ) (room : String) (token : ℕ)
  | invalid (id : ℕ) (room : String)
deriving DecidableEq, Repr

/-- `Handler::join` with `ChatReader::new`; the counter is a `u64`. -/
def join (s : ChatState) (room : String) : Except String (ChatState × List Note) :=
  if s.chatReadersIdx + 1 < 2 ^ 64 then
    let id := s.chatReadersIdx + 1
    .ok ({ s with
      chatReadersIdx := id
      chatEvents := s.chatEvents ++ [.join id room]
      readers := (id, room) :: s.readers }, [.queued (.join id room)])
  else .error "attempt to add with overflow"

/-- `ChatReader::drop`, of a reader that is alive. -/
def dropReader (s : ChatState) (id : ℕ) (room : String) : Except String (ChatState × List Note) :=
  if (id, room) ∈ s.readers then
    .ok ({ s with
      chatEvents := s.chatEvents ++ [.leave id room]
      readers := s.readers.filter (fun r => decide (r ≠ (id, room))) }, [.queued (.leave id room)])
  else .error "no such reader"

/-- The head of an iteration: the shared list is copied and cleared under its lock. -/
def takeEvents (s : ChatState) : Except String (ChatState × List Note) :=
  if s.events = [] then .ok ({ s with events := s.chatEvents, chatEvents := [] }, [])
  else .error "the batch is not finished"

/-- One turn of the loop over the batch. -/
def handleEvent (s : ChatState) : Except String (ChatState × List Note) :=
  match s.events with
  | [] => .error "the batch is finished"
  | .join id room :: rest =>
    .ok ({ s with
      events := rest
      tokens := s.tokens.insert (id, room) s.listens
      listens := s.listens + 1 }, [.listened id room s.listens])
  | .leave id room :: rest =>
    match s.tokens.lookup (id, room) with
    | some value =>
      .ok ({ s with events := rest, tokens := s.tokens.erase (id, room) },
        [.cancelled id room value])
    | none => .ok ({ s with events := rest }, [.invalid id room])

/-- One step of a thread. -/
def chatLoopStep (s : ChatState) : ChatAction → Except String (ChatState × List Note)
  | .join room => join s room
  | .drop id room => dropReader s id room
  | .takeEvents => takeEvents s
  | .handleEvent => handleEvent s

/-! ## What has happened -/

/-- The event a note says was queued. -/
def Note.queued? : Note → Option ChatEvent
  | .queued e => some e
  | _ => none

/-- The event a note says was handled. -/
def Note.handled? : Note → Option ChatEvent
  | .listened id room _ => some (.join id room)
  | .cancelled id room _ | .invalid id room => some (.leave id room)
  | .queued _ => none

/-- The token a note says was given to `cancel_listen`. -/
def Note.cancelled? : Note → Option ℕ
  | .cancelled _ _ token => some token
  | _ => none

/-- The events queued, in order. -/
def queuedEvents (log : List Note) : List ChatEvent := log.filterMap Note.queued?

/-- The events handled, in order. -/
def handled (log : List Note) : List ChatEvent := log.filterMap Note.handled?

/-- The tokens given to `cancel_listen`, in order. -/
def cancelled (log : List Note) : List ℕ := log.filterMap Note.cancelled?

@[simp] theorem queuedEvents_append (log out : List Note) :
    queuedEvents (log ++ out) = queuedEvents log ++ queuedEvents out := List.filterMap_append

@[simp] theorem handled_append (log out : List Note) :
    handled (log ++ out) = handled log ++ handled out := List.filterMap_append

@[simp] theorem cancelled_append (log out : List Note) :
    cancelled (log ++ out) = cancelled log ++ cancelled out := List.filterMap_append

/-! ## The invariant -/

/-- The events queued so far: those handled, the rest of the batch and those that wait.  None is
queued twice, a `Leave` is queued after its `Join`, and a reader is alive between the two. -/
structure Ordered (s : ChatState) (log : List Note) : Prop where
  split : queuedEvents log = handled log ++ s.events ++ s.chatEvents
  nodup : (queuedEvents log).Nodup
  after : ∀ l id room r, queuedEvents log = l ++ .leave id room :: r → .join id room ∈ l
  below : ∀ id room, .join id room ∈ queuedEvents log → id ≤ s.chatReadersIdx
  alive : ∀ id room, (id, room) ∈ s.readers ↔
    .join id room ∈ queuedEvents log ∧ .leave id room ∉ queuedEvents log

/-- The listenings: one token for each `Join` handled, kept until the `Leave` is handled and then
given to `cancel_listen`. -/
structure Listening (s : ChatState) (log : List Note) : Prop where
  listened : ∀ id room, .join id room ∈ handled log → ∃ token, .listened id room token ∈ log
  fresh : ∀ id room token, .listened id room token ∈ log → token < s.listens
  token_inj : ∀ id room id' room' token, .listened id room token ∈ log →
    .listened id' room' token ∈ log → id = id' ∧ room = room'
  tokens : ∀ id room token, s.tokens.lookup (id, room) = some token ↔
    .listened id room token ∈ log ∧ .leave id room ∉ handled log
  ended : ∀ id room token, .listened id room token ∈ log →
    (cancelled log).count token = if .leave id room ∈ handled log then 1 else 0
  only : ∀ token ∈ cancelled log, ∃ id room, .listened id room token ∈ log
  valid : ∀ id room, .invalid id room ∉ log

theorem handled_of_listened {log : List Note} {id token : ℕ} {room : String}
    (h : .listened id room token ∈ log) : .join id room ∈ handled log :=
  List.mem_filterMap.mpr ⟨_, h, rfl⟩

section Steps

variable {s s' : ChatState} {log out : List Note}

/-- The next event of the batch has not been handled. -/
theorem Ordered.head_not_handled (h : Ordered s log) {e : ChatEvent} {rest : List ChatEvent}
    (he : s.events = e :: rest) : e ∉ handled log := by
  have hnodup := h.nodup
  rw [h.split, he, List.append_assoc] at hnodup
  intro hmem
  exact (List.nodup_append.mp hnodup).2.2 e hmem e (by simp) rfl

/-- A `Leave` that is handled or next in the batch has its `Join` handled before. -/
theorem Ordered.join_handled (h : Ordered s log) {id : ℕ} {room : String}
    {rest : List ChatEvent} (he : s.events = .leave id room :: rest) :
    .join id room ∈ handled log := by
  refine h.after (handled log) id room (rest ++ s.chatEvents) ?_
  rw [h.split, he, List.append_assoc, List.cons_append]

theorem Ordered.join_of_leave (h : Ordered s log) {id : ℕ} {room : String}
    (hleave : .leave id room ∈ handled log) : .join id room ∈ handled log := by
  obtain ⟨l, r, hsplit⟩ := List.append_of_mem hleave
  have hjoin : ChatEvent.join id room ∈ l := by
    refine h.after l id room (r ++ (s.events ++ s.chatEvents)) ?_
    rw [h.split, hsplit]
    simp only [List.append_assoc, List.cons_append]
  rw [hsplit]
  exact List.mem_append_left _ hjoin

/-- One more event is queued. -/
theorem Ordered.queue (h : Ordered s log) {e : ChatEvent} (hnew : e ∉ queuedEvents log)
    (hafter : ∀ id room, e = .leave id room → .join id room ∈ queuedEvents log)
    (hbelow : ∀ id room, e = .join id room → id ≤ s'.chatReadersIdx)
    (hidx : s.chatReadersIdx ≤ s'.chatReadersIdx) (hevents : s'.events = s.events)
    (hchat : s'.chatEvents = s.chatEvents ++ [e])
    (halive : ∀ id room, (id, room) ∈ s'.readers ↔
      .join id room ∈ queuedEvents log ++ [e] ∧ .leave id room ∉ queuedEvents log ++ [e]) :
    Ordered s' (log ++ [.queued e]) := by
  have hq : queuedEvents (log ++ [.queued e]) = queuedEvents log ++ [e] := queuedEvents_append _ _
  have hh : handled (log ++ [.queued e]) = handled log := by
    rw [handled_append]
    exact List.append_nil _
  refine ⟨?_, ?_, fun l id room r hl => ?_, fun id room hid => ?_, fun id room => ?_⟩
  · rw [hq, hh, hevents, hchat, h.split, List.append_assoc]
  · rw [hq]
    exact List.nodup_append.mpr ⟨h.nodup, List.nodup_singleton e, fun a ha b hb => by
      rw [List.mem_singleton.mp hb]
      rintro rfl
      exact hnew ha⟩
  · rw [hq] at hl
    rcases List.eq_nil_or_concat r with rfl | ⟨r', x, rfl⟩
    · obtain ⟨rfl, he⟩ := List.append_inj' hl rfl
      exact hafter id room (List.singleton_inj.mp he)
    · rw [List.concat_eq_append, ← List.cons_append, ← List.append_assoc] at hl
      exact h.after l id room r' (List.append_inj' hl rfl).1
  · rw [hq] at hid
    rcases List.mem_append.mp hid with hid | hid
    · exact le_trans (h.below id room hid) hidx
    · exact hbelow id room (List.mem_singleton.mp hid).symm
  · rw [hq]
    exact halive id room

theorem Ordered.join (h : Ordered s log) {room : String} (hs : join s room = .ok (s', out)) :
    Ordered s' (log ++ out) := by
  unfold Api.join at hs
  split_ifs at hs
  cases hs
  have hfresh : ∀ room', .join (s.chatReadersIdx + 1) room' ∉ queuedEvents log := by
    intro room' hmem
    have := h.below _ _ hmem
    omega
  have hleave : ∀ room', .leave (s.chatReadersIdx + 1) room' ∉ queuedEvents log := by
    intro room' hmem
    obtain ⟨l, r, hsplit⟩ := List.append_of_mem hmem
    refine hfresh room' ?_
    rw [hsplit]
    exact List.mem_append_left _ (h.after l _ _ r hsplit)
  refine h.queue (hfresh room) nofun ?_ (Nat.le_succ _) rfl rfl (fun id room' => ?_)
  · rintro id room' heq
    cases heq
    exact le_rfl
  · simp only [List.mem_cons, List.mem_append, Prod.mk.injEq, List.not_mem_nil, or_false,
      ChatEvent.join.injEq, reduceCtorEq]
    by_cases hid : id = s.chatReadersIdx + 1 ∧ room' = room
    · obtain ⟨rfl, rfl⟩ := hid
      exact iff_of_true (Or.inl ⟨rfl, rfl⟩) ⟨Or.inr ⟨rfl, rfl⟩, hleave room'⟩
    · rw [h.alive]
      simp only [hid, false_or, or_false]

theorem Ordered.drop (h : Ordered s log) {id : ℕ} {room : String}
    (hs : dropReader s id room = .ok (s', out)) : Ordered s' (log ++ out) := by
  unfold dropReader at hs
  split_ifs at hs with hmem
  cases hs
  obtain ⟨hjoin, hleave⟩ := (h.alive id room).mp hmem
  refine h.queue hleave ?_ nofun le_rfl rfl rfl (fun id' room' => ?_)
  · rintro id' room' heq
    cases heq
    exact hjoin
  · simp only [List.mem_filter, decide_eq_true_eq, h.alive, List.mem_append, List.mem_cons,
      List.not_mem_nil, or_false, reduceCtorEq, ChatEvent.leave.injEq, ne_eq, Prod.mk.injEq,
      not_or, and_assoc]

/-- The loop moves events on: the shared list becomes the batch, or the head of the batch has been
handled. -/
theorem Ordered.move (h : Ordered s log) (hq : queuedEvents out = [])
    (hsplit : handled log ++ s.events ++ s.chatEvents =
      handled (log ++ out) ++ s'.events ++ s'.chatEvents)
    (hidx : s'.chatReadersIdx = s.chatReadersIdx) (hreaders : s'.readers = s.readers) :
    Ordered s' (log ++ out) := by
  have hsame : queuedEvents (log ++ out) = queuedEvents log := by
    rw [queuedEvents_append, hq, List.append_nil]
  refine ⟨?_, ?_, fun l id room r hl => ?_, fun id room hid => ?_, fun id room => ?_⟩
  · rw [hsame, h.split, hsplit]
  · rw [hsame]
    exact h.nodup
  · rw [hsame] at hl
    exact h.after l id room r hl
  · rw [hsame] at hid
    rw [hidx]
    exact h.below id room hid
  · rw [hsame, hreaders]
    exact h.alive id room

/-- What `handleEvent` does. -/
theorem handleEvent_cases (hs : handleEvent s = .ok (s', out)) :
    ∃ id room rest,
      (s.events = .join id room :: rest ∧ out = [.listened id room s.listens] ∧ s' = { s with
        events := rest
        tokens := s.tokens.insert (id, room) s.listens
        listens := s.listens + 1 }) ∨
      (s.events = .leave id room :: rest ∧ ∃ token, s.tokens.lookup (id, room) = some token ∧
        out = [.cancelled id room token] ∧
        s' = { s with events := rest, tokens := s.tokens.erase (id, room) }) ∨
      (s.events = .leave id room :: rest ∧ s.tokens.lookup (id, room) = none ∧
        out = [.invalid id room] ∧ s' = { s with events := rest }) := by
  rw [handleEvent] at hs
  cases he : s.events with
  | nil =>
    rw [he] at hs
    cases hs
  | cons e rest =>
    cases e with
    | join id room =>
      simp only [he] at hs
      cases hs
      exact ⟨id, room, rest, Or.inl ⟨rfl, rfl, rfl⟩⟩
    | leave id room =>
      cases ht : s.tokens.lookup (id, room) with
      | some token =>
        simp only [he, ht] at hs
        cases hs
        exact ⟨id, room, rest, Or.inr (Or.inl ⟨rfl, token, ht, rfl, rfl⟩)⟩
      | none =>
        simp only [he, ht] at hs
        cases hs
        exact ⟨id, room, rest, Or.inr (Or.inr ⟨rfl, ht, rfl, rfl⟩)⟩

theorem Ordered.handle (h : Ordered s log) (hs : handleEvent s = .ok (s', out)) :
    Ordered s' (log ++ out) := by
  have hmove : ∀ (e : ChatEvent) (rest : List ChatEvent), handled log ++ e :: rest ++ s.chatEvents =
      handled log ++ [e] ++ rest ++ s.chatEvents := by
    intro e rest
    simp only [List.append_assoc, List.cons_append, List.nil_append]
  obtain ⟨id, room, rest, ⟨he, rfl, rfl⟩ | ⟨he, token, -, rfl, rfl⟩ | ⟨he, -, rfl, rfl⟩⟩ :=
    handleEvent_cases hs
  · refine h.move rfl ?_ rfl rfl
    rw [handled_append, he]
    exact hmove _ _
  · refine h.move rfl ?_ rfl rfl
    rw [handled_append, he]
    exact hmove _ _
  · refine h.move rfl ?_ rfl rfl
    rw [handled_append, he]
    exact hmove _ _

theorem listened_concat {id id' token token' : ℕ} {room room' : String} :
    .listened id' room' token' ∈ log ++ [.listened id room token] ↔
      .listened id' room' token' ∈ log ∨ (id' = id ∧ room' = room ∧ token' = token) := by
  rw [List.mem_append, List.mem_singleton, Note.listened.injEq]

/-- The next token has been given to nobody. -/
theorem Listening.count_fresh (h : Listening s log) : (cancelled log).count s.listens = 0 := by
  apply List.count_eq_zero_of_not_mem
  intro hm
  obtain ⟨id, room, hold⟩ := h.only _ hm
  exact lt_irrefl _ (h.fresh id room _ hold)

/-- The table after a `Join` that is handled for the first time. -/
theorem Listening.lookup_insert (h : Listening s log) (ho : Ordered s log) {id : ℕ} {room : String}
    (hnot : .join id room ∉ handled log) (id' : ℕ) (room' : String) (token : ℕ) :
    (s.tokens.insert (id, room) s.listens).lookup (id', room') = some token ↔
      .listened id' room' token ∈ log ++ [.listened id room s.listens] ∧
        .leave id' room' ∉ handled log := by
  rw [listened_concat]
  by_cases hid : (id', room') = (id, room)
  · cases hid
    rw [AList.lookup_insert]
    constructor
    · intro heq
      cases heq
      exact ⟨Or.inr ⟨rfl, rfl, rfl⟩, fun hl => hnot (ho.join_of_leave hl)⟩
    · rintro ⟨hold | ⟨-, -, rfl⟩, -⟩
      · exact absurd (handled_of_listened hold) hnot
      · rfl
  · rw [AList.lookup_insert_ne hid, h.tokens]
    have hne : ¬ (id' = id ∧ room' = room ∧ token = s.listens) := by
      rintro ⟨rfl, rfl, -⟩
      exact hid rfl
    rw [or_iff_left hne]

/-- The tokens after a `Join` is handled: a fresh one for the reader. -/
theorem Listening.join (h : Listening s log) (ho : Ordered s log) {id : ℕ} {room : String}
    {rest : List ChatEvent} (he : s.events = .join id room :: rest) :
    Listening { s with
      events := rest
      tokens := s.tokens.insert (id, room) s.listens
      listens := s.listens + 1 } (log ++ [.listened id room s.listens]) := by
  have hh : handled (log ++ [.listened id room s.listens]) = handled log ++ [.join id room] :=
    handled_append _ _
  have hc : cancelled (log ++ [.listened id room s.listens]) = cancelled log := by
    rw [cancelled_append]
    exact List.append_nil _
  have hnot : .join id room ∉ handled log := ho.head_not_handled he
  have hleave : ∀ id' room', .leave id' room' ∈ handled log ++ [.join id room] ↔
      .leave id' room' ∈ handled log := by
    intro id' room'
    rw [List.mem_append, List.mem_singleton]
    exact or_iff_left nofun
  refine ⟨fun id' room' hjoin => ?_, fun id' room' token htoken => ?_,
    fun id₁ room₁ id₂ room₂ token h₁ h₂ => ?_, fun id' room' token => ?_,
    fun id' room' token htoken => ?_, fun token htoken => ?_, fun id' room' hinvalid => ?_⟩
  · rw [hh] at hjoin
    rcases List.mem_append.mp hjoin with hjoin | hjoin
    · obtain ⟨token, htoken⟩ := h.listened id' room' hjoin
      exact ⟨token, List.mem_append_left _ htoken⟩
    · cases List.mem_singleton.mp hjoin
      exact ⟨s.listens, List.mem_append_right _ (List.mem_singleton_self _)⟩
  · show token < s.listens + 1
    rcases listened_concat.mp htoken with hold | ⟨-, -, rfl⟩
    · exact Nat.lt_succ_of_lt (h.fresh _ _ _ hold)
    · exact Nat.lt_succ_self _
  · rcases listened_concat.mp h₁ with hold₁ | ⟨rfl, rfl, rfl⟩
    · rcases listened_concat.mp h₂ with hold₂ | ⟨rfl, rfl, rfl⟩
      · exact h.token_inj _ _ _ _ _ hold₁ hold₂
      · exact absurd (h.fresh _ _ _ hold₁) (lt_irrefl _)
    · rcases listened_concat.mp h₂ with hold₂ | ⟨rfl, rfl, -⟩
      · exact absurd (h.fresh _ _ _ hold₂) (lt_irrefl _)
      · exact ⟨rfl, rfl⟩
  · rw [hh, hleave]
    exact h.lookup_insert ho hnot id' room' token
  · rw [hc, hh]
    simp only [hleave]
    rcases listened_concat.mp htoken with hold | ⟨rfl, rfl, rfl⟩
    · exact h.ended id' room' token hold
    · rw [h.count_fresh, if_neg (fun hl => hnot (ho.join_of_leave hl))]
  · rw [hc] at htoken
    obtain ⟨id', room', hold⟩ := h.only token htoken
    exact ⟨id', room', List.mem_append_left _ hold⟩
  · rcases List.mem_append.mp hinvalid with hold | hnew
    · exact h.valid _ _ hold
    · cases List.mem_singleton.mp hnew

/-- The tokens after a `Leave` is handled: that of the reader has gone to `cancel_listen`. -/
theorem Listening.leave (h : Listening s log) {id token : ℕ} {room : String}
    {rest : List ChatEvent} (ht : s.tokens.lookup (id, room) = some token) :
    Listening { s with events := rest, tokens := s.tokens.erase (id, room) }
      (log ++ [.cancelled id room token]) := by
  have hh : handled (log ++ [.cancelled id room token]) = handled log ++ [.leave id room] :=
    handled_append _ _
  have hc : cancelled (log ++ [.cancelled id room token]) = cancelled log ++ [token] :=
    cancelled_append _ _
  have hmem : ∀ {id' room' token'}, .listened id' room' token' ∈ log ++ [.cancelled id room token] →
      .listened id' room' token' ∈ log := by
    intro id' room' token' hmem
    rcases List.mem_append.mp hmem with hmem | hmem
    · exact hmem
    · cases List.mem_singleton.mp hmem
  obtain ⟨hlistened, hnot⟩ := (h.tokens id room token).mp ht
  have hleave : ∀ id' room', .leave id' room' ∈ handled log ++ [.leave id room] ↔
      .leave id' room' ∈ handled log ∨ (id' = id ∧ room' = room) := by
    intro id' room'
    rw [List.mem_append, List.mem_singleton, ChatEvent.leave.injEq]
  refine ⟨fun id' room' hjoin => ?_, fun id' room' token' htoken => h.fresh _ _ _ (hmem htoken),
    fun id₁ room₁ id₂ room₂ token' h₁ h₂ => h.token_inj _ _ _ _ _ (hmem h₁) (hmem h₂),
    fun id' room' token' => ?_, fun id' room' token' htoken => ?_, fun token' htoken => ?_,
    fun id' room' hinvalid => ?_⟩
  · rw [hh] at hjoin
    rcases List.mem_append.mp hjoin with hjoin | hjoin
    · obtain ⟨token', htoken⟩ := h.listened id' room' hjoin
      exact ⟨token', List.mem_append_left _ htoken⟩
    · cases List.mem_singleton.mp hjoin
  · rw [hh, hleave]
    show (s.tokens.erase (id, room)).lookup (id', room') = some token' ↔ _
    by_cases hid : (id', room') = (id, room)
    · cases hid
      rw [AList.lookup_erase]
      exact iff_of_false nofun (fun hall => hall.2 (Or.inr ⟨rfl, rfl⟩))
    · have hne : ¬ (id' = id ∧ room' = room) := fun heq => hid (Prod.ext heq.1 heq.2)
      rw [AList.lookup_erase_ne hid, h.tokens, or_iff_left hne]
      exact and_congr_left (fun _ => ⟨List.mem_append_left _, hmem⟩)
  · have hold := hmem htoken
    rw [hc, hh, List.count_append, h.ended id' room' token' hold]
    simp only [hleave]
    by_cases hid : id' = id ∧ room' = room
    · obtain ⟨rfl, rfl⟩ := hid
      have hkeep : s.tokens.lookup (id', room') = some token' :=
        (h.tokens id' room' token').mpr ⟨hold, hnot⟩
      obtain rfl : token = token' := Option.some.inj (ht.symm.trans hkeep)
      rw [if_neg hnot, if_pos (Or.inr ⟨rfl, rfl⟩), List.count_singleton_self]
    · have hne : token ≠ token' := by
        rintro rfl
        exact hid (h.token_inj _ _ _ _ _ hold hlistened)
      simp only [or_iff_left hid, List.count_singleton, beq_iff_eq, hne, if_false, Nat.add_zero]
  · rw [hc] at htoken
    rcases List.mem_append.mp htoken with hold | hnew
    · obtain ⟨id', room', hold⟩ := h.only token' hold
      exact ⟨id', room', List.mem_append_left _ hold⟩
    · rw [List.mem_singleton.mp hnew]
      exact ⟨id, room, List.mem_append_left _ hlistened⟩
  · rcases List.mem_append.mp hinvalid with hold | hnew
    · exact h.valid _ _ hold
    · cases List.mem_singleton.mp hnew

/-- Steps that handle no event leave the tokens alone. -/
theorem Listening.frame (h : Listening s log) (hout : ∀ n ∈ out, ∃ e, n = .queued e)
    (htokens : s'.tokens = s.tokens) (hlistens : s'.listens = s.listens) :
    Listening s' (log ++ out) := by
  have hnone : ∀ {α : Type} (f : Note → Option α), (∀ e, f (.queued e) = none) →
      (log ++ out).filterMap f = log.filterMap f := by
    intro α f hf
    have hnil : out.filterMap f = [] := List.filterMap_eq_nil_iff.mpr (fun n hn => by
      obtain ⟨e, rfl⟩ := hout n hn
      exact hf e)
    rw [List.filterMap_append, hnil, List.append_nil]
  have hh : handled (log ++ out) = handled log := hnone _ (fun _ => rfl)
  have hc : cancelled (log ++ out) = cancelled log := hnone _ (fun _ => rfl)
  have hmem : ∀ n : Note, n.queued? = none → (n ∈ log ++ out ↔ n ∈ log) := by
    intro n hn
    rw [List.mem_append]
    refine or_iff_left (fun hm => ?_)
    obtain ⟨e, rfl⟩ := hout n hm
    cases hn
  have hlistened : ∀ {id room token}, .listened id room token ∈ log ++ out →
      .listened id room token ∈ log := (hmem _ rfl).mp
  refine ⟨fun id room hjoin => ?_, fun id room token htoken => ?_,
    fun id room id' room' token h₁ h₂ => ?_, fun id room token => ?_,
    fun id room token htoken => ?_, fun token htoken => ?_, fun id room hinvalid => ?_⟩
  · rw [hh] at hjoin
    obtain ⟨token, htoken⟩ := h.listened id room hjoin
    exact ⟨token, List.mem_append_left _ htoken⟩
  · rw [hlistens]
    exact h.fresh id room token (hlistened htoken)
  · exact h.token_inj _ _ _ _ _ (hlistened h₁) (hlistened h₂)
  · rw [htokens, hh, hmem _ rfl]
    exact h.tokens id room token
  · rw [hc, hh]
    exact h.ended id room token (hlistened htoken)
  · rw [hc] at htoken
    obtain ⟨id, room, hold⟩ := h.only token htoken
    exact ⟨id, room, List.mem_append_left _ hold⟩
  · exact h.valid id room ((hmem _ rfl).mp hinvalid)

/-- **Step lemma**: whoever takes the next step, the events stay in order and the tokens those of
the rooms joined. -/
theorem balanced_step (h : Ordered s log ∧ Listening s log) {a : ChatAction}
    (hs : chatLoopStep s a = .ok (s', out)) :
    Ordered s' (log ++ out) ∧ Listening s' (log ++ out) := by
  obtain ⟨ho, hl⟩ := h
  cases a with
  | join room =>
    refine ⟨ho.join hs, ?_⟩
    simp only [chatLoopStep, Api.join] at hs
    split_ifs at hs
    cases hs
    exact hl.frame (fun n hn => ⟨_, List.mem_singleton.mp hn⟩) rfl rfl
  | drop id room =>
    refine ⟨ho.drop hs, ?_⟩
    simp only [chatLoopStep, dropReader] at hs
    split_ifs at hs
    cases hs
    exact hl.frame (fun n hn => ⟨_, List.mem_singleton.mp hn⟩) rfl rfl
  | takeEvents =>
    simp only [chatLoopStep, Api.takeEvents] at hs
    split_ifs at hs with hempty
    cases hs
    refine ⟨ho.move rfl ?_ rfl rfl, hl.frame nofun rfl rfl⟩
    show handled log ++ s.events ++ s.chatEvents = handled (log ++ []) ++ s.chatEvents ++ []
    rw [hempty, List.append_nil, List.append_nil, List.append_nil]
  | handleEvent =>
    refine ⟨ho.handle hs, ?_⟩
    obtain ⟨id, room, rest, ⟨he, rfl, rfl⟩ | ⟨he, token, ht, rfl, rfl⟩ | ⟨he, hnone, -, -⟩⟩ :=
      handleEvent_cases hs
    · exact hl.join ho he
    · exact hl.leave ht
    · -- the `Join` has been handled and the `Leave` has not: there is a token
      obtain ⟨token, htoken⟩ := hl.listened id room (ho.join_handled he)
      have hsome := (hl.tokens id room token).mpr ⟨htoken, ho.head_not_handled he⟩
      cases hnone.symm.trans hsome

end Steps

theorem balanced_init : Ordered {} [] ∧ Listening {} [] := by
  refine ⟨⟨rfl, List.nodup_nil, ?_, nofun, ?_⟩, nofun, nofun, nofun, ?_, nofun, nofun, nofun⟩
  · intro l id room r hl
    exact absurd hl.symm (List.append_ne_nil_of_right_ne_nil l nofun)
  · exact fun id room => iff_of_false nofun (fun h => by cases h.1)
  · exact fun id room token => iff_of_false nofun (fun h => by cases h.1)

/-- The keys of `tokens` are the readers that have joined and not left. -/
theorem Listening.mem_tokens {s : ChatState} {log : List Note} (h : Listening s log) (id : ℕ)
    (room : String) :
    (id, room) ∈ s.tokens ↔ .join id room ∈ handled log ∧ .leave id room ∉ handled log := by
  rw [← AList.lookup_isSome, Option.isSome_iff_exists]
  constructor
  · rintro ⟨token, htoken⟩
    obtain ⟨hlistened, hnot⟩ := (h.tokens id room token).mp htoken
    exact ⟨handled_of_listened hlistened, hnot⟩
  · rintro ⟨hjoin, hnot⟩
    obtain ⟨token, htoken⟩ := h.listened id room hjoin
    exact ⟨token, (h.tokens id room token).mpr ⟨htoken, hnot⟩⟩

/-- The invariant along every run. -/
theorem run_balanced (actions : List ChatAction) :
    Ordered (run chatLoopStep {} actions).1 (run chatLoopStep {} actions).2 ∧
      Listening (run chatLoopStep {} actions).1 (run chatLoopStep {} actions).2 :=
  run_invariant (fun s log => Ordered s log ∧ Listening s log) balanced_init
    (fun _ _ _ _ _ h hs => balanced_step h hs) actions

/-! ## An iteration -/

section Iteration

variable {c : ChatState × List Note}

/-- A batch that is not finished goes on. -/
theorem exists_handleEvent {s : ChatState} {e : ChatEvent} {rest : List ChatEvent}
    (h : s.events = e :: rest) : ∃ r, handleEvent s = .ok r := by
  cases e with
  | join id room => exact ⟨_, by rw [handleEvent, h]⟩
  | leave id room =>
    cases ht : s.tokens.lookup (id, room) with
    | some token =>
      simp only [handleEvent, h, ht]
      exact ⟨_, rfl⟩
    | none =>
      simp only [handleEvent, h, ht]
      exact ⟨_, rfl⟩

/-- **A turn over the batch** takes its first event, if there is one, and handles it. -/
theorem commit_handleEvent :
    (commit chatLoopStep c .handleEvent).1.events = c.1.events.drop 1 ∧
      handled (commit chatLoopStep c .handleEvent).2 = handled c.2 ++ c.1.events.take 1 := by
  cases hevents : c.1.events with
  | nil =>
    have hs : chatLoopStep c.1 .handleEvent = .error "the batch is finished" := by
      rw [chatLoopStep, handleEvent, hevents]
    rw [commit_of_error hs, hevents]
    exact ⟨rfl, (List.append_nil _).symm⟩
  | cons e rest =>
    obtain ⟨⟨s', out⟩, hs⟩ := exists_handleEvent hevents
    have hstep : chatLoopStep c.1 .handleEvent = .ok (s', out) := hs
    rw [commit_of_ok hstep, handled_append, ← hevents]
    obtain ⟨id, room, rest, ⟨he, rfl, rfl⟩ | ⟨he, token, -, rfl, rfl⟩ | ⟨he, -, rfl, rfl⟩⟩ :=
      handleEvent_cases hs
    all_goals
      rw [he]
      exact ⟨rfl, rfl⟩

/-- Readers that come and go leave the batch alone. -/
theorem commit_of_ne {a : ChatAction} (htake : a ≠ .takeEvents) (hhandle : a ≠ .handleEvent) :
    (commit chatLoopStep c a).1.events = c.1.events ∧
      handled (commit chatLoopStep c a).2 = handled c.2 := by
  cases hs : chatLoopStep c.1 a with
  | error e =>
    rw [commit_of_error hs]
    exact ⟨rfl, rfl⟩
  | ok r =>
    obtain ⟨s', out⟩ := r
    rw [commit_of_ok hs, handled_append]
    cases a with
    | join room =>
      simp only [chatLoopStep, join] at hs
      split_ifs at hs
      cases hs
      exact ⟨rfl, List.append_nil _⟩
    | drop id room =>
      simp only [chatLoopStep, dropReader] at hs
      split_ifs at hs
      cases hs
      exact ⟨rfl, List.append_nil _⟩
    | takeEvents => exact absurd rfl htake
    | handleEvent => exact absurd rfl hhandle

/-- **Between two heads of the loop** the batch is handled from its front, an event a turn. -/
theorem run_batch (actions : List ChatAction) {more : List ChatAction}
    (hmore : .takeEvents ∉ more) :
    (run chatLoopStep {} (actions ++ more)).1.events =
        (run chatLoopStep {} actions).1.events.drop (more.count .handleEvent) ∧
      handled (run chatLoopStep {} (actions ++ more)).2 = handled (run chatLoopStep {} actions).2 ++
        (run chatLoopStep {} actions).1.events.take (more.count .handleEvent) := by
  induction more using List.reverseRecOn with
  | nil =>
    rw [List.append_nil]
    exact ⟨rfl, (List.append_nil _).symm⟩
  | append_singleton more a ih =>
    obtain ⟨hevents, hhandled⟩ := ih (fun h => hmore (List.mem_append_left _ h))
    have htake : a ≠ .takeEvents := by
      rintro rfl
      exact hmore (List.mem_append_right _ (List.mem_singleton_self _))
    rw [← List.append_assoc, run_concat, List.count_append]
    by_cases ha : a = .handleEvent
    · subst ha
      obtain ⟨hdrop, htake⟩ := @commit_handleEvent (run chatLoopStep {} (actions ++ more))
      rw [hdrop, htake, hevents, hhandled, List.count_singleton_self, List.drop_drop,
        List.take_add, List.append_assoc]
      exact ⟨rfl, rfl⟩
    · obtain ⟨hsame, hnone⟩ :=
        @commit_of_ne (run chatLoopStep {} (actions ++ more)) a htake ha
      have hcount : [a].count .handleEvent = 0 :=
        List.count_eq_zero_of_not_mem (fun h => ha (List.mem_singleton.mp h).symm)
      rw [hsame, hnone, hcount]
      exact ⟨hevents, hhandled⟩

/-- The head of an iteration takes all that waits. -/
theorem commit_takeEvents (h : c.1.events = []) :
    (commit chatLoopStep c .takeEvents).1.events = c.1.chatEvents ∧
      handled (commit chatLoopStep c .takeEvents).2 = handled c.2 := by
  have hs : chatLoopStep c.1 .takeEvents =
      .ok ({ c.1 with events := c.1.chatEvents, chatEvents := [] }, []) := if_pos h
  rw [commit_of_ok hs, List.append_nil]
  exact ⟨rfl, rfl⟩

/-- **An iteration**: it takes what waits and, turn after turn, handles all of it. -/
theorem run_iteration {actions more : List ChatAction} (hmore : .takeEvents ∉ more)
    (hempty : (run chatLoopStep {} actions).1.events = [])
    (hlen : (run chatLoopStep {} actions).1.chatEvents.length ≤ more.count .handleEvent) :
    (run chatLoopStep {} (actions ++ .takeEvents :: more)).1.events = [] ∧
      handled (run chatLoopStep {} (actions ++ .takeEvents :: more)).2 =
        handled (run chatLoopStep {} actions).2 ++ (run chatLoopStep {} actions).1.chatEvents := by
  obtain ⟨htaken, hold⟩ := commit_takeEvents hempty
  obtain ⟨hevents, hhandled⟩ := run_batch (actions ++ [.takeEvents]) hmore
  rw [List.append_assoc, List.singleton_append, run_concat, htaken] at hevents hhandled
  rw [hevents, hhandled, hold, List.drop_eq_nil_of_le hlen, List.take_of_length_le hlen]
  exact ⟨rfl, rfl⟩

end Iteration

/-- **Subscriptions are balanced**: in every order of joins, drops and steps of the chat loop, every
event queued is handled once or waits to be, in order; the warning of an invalid parameter never
comes; each token of `listen` goes to `cancel_listen` once if the `Leave` of its reader has been
handled and not at all otherwise, and no other token does; and the tokens kept are those of the
readers whose `Join` has been handled and whose `Leave` has not.  An iteration, while readers come
and go, ends with nothing of its batch left: all that was queued when it began is handled, once. -/
theorem subscriptions_balanced (actions : List ChatAction) :
    let s := (run chatLoopStep {} actions).1
    let log := (run chatLoopStep {} actions).2
    (queuedEvents log).Nodup ∧ queuedEvents log = handled log ++ s.events ++ s.chatEvents ∧
    (∀ id room, .invalid id room ∉ log) ∧
    (∀ id room token, .listened id room token ∈ log →
      (cancelled log).count token = if .leave id room ∈ handled log then 1 else 0) ∧
    (∀ token ∈ cancelled log, ∃ id room, .listened id room token ∈ log) ∧
    (∀ id room, (id, room) ∈ s.tokens ↔
      .join id room ∈ handled log ∧ .leave id room ∉ handled log) ∧
    ∀ more, .takeEvents ∉ more → s.events = [] → s.chatEvents.length ≤ more.count .handleEvent →
      let t := run chatLoopStep {} (actions ++ .takeEvents :: more)
      t.1.events = [] ∧ handled t.2 = handled log ++ s.chatEvents ∧
        (∀ e ∈ queuedEvents log, (handled t.2).count e = 1) ∧
        ∀ id room, (id, room) ∈ t.1.tokens ↔
          .join id room ∈ handled t.2 ∧ .leave id room ∉ handled t.2 := by
  intro s log
  obtain ⟨ho, hl⟩ : Ordered s log ∧ Listening s log := run_balanced actions
  refine ⟨ho.nodup, ho.split, hl.valid, hl.ended, hl.only, hl.mem_tokens, ?_⟩
  intro more hmore hempty hlen t
  obtain ⟨hevents, hhandled⟩ := run_iteration hmore hempty hlen
  have hall : queuedEvents log = handled t.2 := by
    rw [ho.split, hempty, List.append_nil, hhandled]
  refine ⟨hevents, hhandled, fun e he => ?_, (run_balanced _).2.mem_tokens⟩
  rw [← hall]
  exact List.count_eq_one_of_mem ho.nodup he

/-- A visit: the reader joins, its `Join` is handled, it leaves, and the next iteration ends the
listening. -/
theorem visit_balanced :
    let t := run chatLoopStep {} ([.join "room", .takeEvents, .handleEvent, .drop 1 "room"] ++
      [.takeEvents, .handleEvent])
    t.1.events = [] ∧ handled t.2 = [.join 1 "room", .leave 1 "room"] ∧ cancelled t.2 = [0] ∧
      (1, "room") ∉ t.1.tokens := by
  obtain ⟨-, -, -, -, -, -, hiteration⟩ := subscriptions_balanced
    [.join "room", .takeEvents, .handleEvent, .drop 1 "room"]
  obtain ⟨hevents, hhandled, -, htokens⟩ :=
    hiteration [.handleEvent] (by decide) (by rfl) (by decide)
  refine ⟨hevents, hhandled, by rfl, fun h => ?_⟩
  exact ((htokens 1 "room").mp h).2 (by rw [hhandled]; decide)

end VDexNode.Api
