import Mathlib.Data.List.Nodup
import RLucene.Store.DataOutput

/-!
# The flush queue of a documents writer

Threads that flush add a ticket to the queue, and set its segment once it is written. Purging
threads hand the tickets at the head of the queue to a consumer. The consumer runs outside of the
lock on the queue: its ticket has left the map by then, and its identity leaves the queue
afterwards. A second lock keeps purging threads apart, but the consumer may purge again on the
thread that holds it.

`Step` is one lock section of some thread, and a `Run` interleaves them and keeps a history of what
they do. The order of the tickets, and that none is lost, are statements about the history.
-/

namespace RLucene.Index

open List Lib Store

/-- A ticket. What the consumer does with the frozen updates is not part of the queue. -/
structure FlushTicket (σ : Type) where
  hasSegment : Bool
  segment : Option σ := none
  failed : Bool := false

namespace FlushTicket

variable {σ : Type} (ticket : FlushTicket σ)

/-- Whether the ticket can be handed to the consumer. -/
def canPublish : Bool :=
  !ticket.hasSegment || ticket.segment.isSome || ticket.failed

/-- Set the segment of a ticket. -/
def setSegment (segment : σ) : FlushTicket σ :=
  { ticket with segment := some segment }

/-- Mark a ticket as failed. -/
def setFailed : FlushTicket σ :=
  { ticket with failed := true }

end FlushTicket

/-- Where a call of `inner_purge` stands: before the section that looks at the head of the queue, or
in the consumer. -/
inductive PurgeCall where
  | looking
  | publishing (id : Nat)

/-- The queue. Identities are numbered, and `identities` is the next one. The calls of `inner_purge`
are those of the thread that holds the purge lock, the innermost first. -/
structure DocumentsWriterFlushQueue (τ σ : Type) where
  queue : List Nat
  value : Nat → Option (FlushTicket σ)
  ticketCount : Int
  identities : Nat
  calls : List (τ × PurgeCall)

namespace DocumentsWriterFlushQueue

variable {τ σ : Type}

/-- A queue without tickets. -/
def new : DocumentsWriterFlushQueue τ σ :=
  ⟨[], fun _ => none, 0, 0, []⟩

section

/-! ## The lock sections -/

/-- One ticket more. -/
def incTickets (count : Int) : Int :=
  asI 32 (count + 1)

/-- One ticket less. -/
def decTickets (count : Int) : Int :=
  asI 32 (count - 1)

variable (s : DocumentsWriterFlushQueue τ σ)

/-- Add the ticket of a supplier, which may fail or give none. A ticket is new and has no segment
yet. -/
def addTicket (supplied : Result (Option Bool)) :
    Result (Option Nat) × DocumentsWriterFlushQueue τ σ :=
  match supplied with
  | .ok (some hasSegment) =>
    (.ok (some s.identities),
      { s with
        queue := s.queue ++ [s.identities]
        value := Function.update s.value s.identities (some { hasSegment })
        ticketCount := incTickets s.ticketCount
        identities := s.identities + 1 })
  | .ok none => (.ok none, { s with ticketCount := decTickets (incTickets s.ticketCount) })
  | .error e => (.error e, { s with ticketCount := decTickets (incTickets s.ticketCount) })

/-- Change a ticket that is still in the map. -/
def onTicket (id : Nat) (f : FlushTicket σ → FlushTicket σ) :
    Result Unit × DocumentsWriterFlushQueue τ σ :=
  match s.value id with
  | some ticket => (.ok (), { s with value := Function.update s.value id (some (f ticket)) })
  | none => (.error (.illegalState "could not get ticket"), s)

/-- Set the segment of a ticket in the queue. -/
def addSegment (id : Nat) (segment : σ) : Result Unit × DocumentsWriterFlushQueue τ σ :=
  s.onTicket id (·.setSegment segment)

/-- Mark a ticket in the queue as failed. -/
def markTicketFailed (id : Nat) : Result Unit × DocumentsWriterFlushQueue τ σ :=
  s.onTicket id FlushTicket.setFailed

/-- The first section of a round of `inner_purge`: take the ticket at the head, if it can be
published. -/
def takeHead : Result (Option (Nat × FlushTicket σ)) × DocumentsWriterFlushQueue τ σ :=
  match s.queue with
  | [] => (.ok none, s)
  | id :: _ =>
    match s.value id with
    | none => (.error (.illegalState "id in inner.queue but not in inner.value"), s)
    | some ticket =>
      if ticket.canPublish then
        (.ok (some (id, ticket)), { s with value := Function.update s.value id none })
      else (.ok none, s)

/-- The second section, after the consumer. -/
def pollHead : Result Nat × DocumentsWriterFlushQueue τ σ :=
  match s.queue with
  | [] => (.error (.illegalState "published flush queue is empty"), s)
  | id :: queue => (.ok id, { s with queue, ticketCount := decTickets s.ticketCount })

end

/-! ## Interleavings -/

/-- What has happened: the identities of the tickets that were added, handed to a consumer and
polled after it, in that order each, and of those that carry no segment, got theirs or were marked
failed. -/
structure History where
  added : List Nat
  handed : List Nat
  polled : List Nat
  ready : List Nat

/-- One lock section of some thread. A call that finds the purge lock taken, or no ticket to change,
leaves everything as it is. -/
inductive Step : History → DocumentsWriterFlushQueue τ σ → History →
    DocumentsWriterFlushQueue τ σ → Prop
  | addTicket {past s id s'} (hasSegment : Bool)
      (hadd : s.addTicket (.ok (some hasSegment)) = (.ok (some id), s')) :
    Step past s
      { past with
        added := past.added ++ [id]
        ready := if hasSegment then past.ready else id :: past.ready } s'
  | addNothing {past s supplied} (nothing : ∀ hasSegment, supplied ≠ .ok (some hasSegment)) :
    Step past s past (s.addTicket supplied).2
  | addSegment {past s id segment s'} (hset : s.addSegment id segment = (.ok (), s')) :
    Step past s { past with ready := id :: past.ready } s'
  | markTicketFailed {past s id s'} (hmark : s.markTicketFailed id = (.ok (), s')) :
    Step past s { past with ready := id :: past.ready } s'
  /-- A forced or attempted purge gets the free lock. -/
  | purge {past s} (t : τ) (free : s.calls = []) :
    Step past s past { s with calls := [(t, .looking)] }
  /-- The consumer purges on its own thread. -/
  | purgeAgain {past s t id calls} (own : s.calls = (t, .publishing id) :: calls) :
    Step past s past { s with calls := (t, .looking) :: s.calls }
  /-- The ticket at the head goes to the consumer. -/
  | hand {past s t calls id ticket s'} (own : s.calls = (t, .looking) :: calls)
      (htake : s.takeHead = (.ok (some (id, ticket)), s')) :
    Step past s { past with handed := past.handed ++ [id] }
      { s' with calls := (t, .publishing id) :: calls }
  /-- There is nothing to publish, or the section fails: the purge ends. -/
  | done {past s t calls} (own : s.calls = (t, .looking) :: calls)
      (nothing : ∀ head, s.takeHead.1 ≠ .ok (some head)) :
    Step past s past { s.takeHead.2 with calls }
  /-- After the consumer the purge goes on, or it ends because the consumer has failed. -/
  | poll {past s t id calls id' s' calls'} (own : s.calls = (t, .publishing id) :: calls)
      (hpoll : s.pollHead = (.ok id', s')) (either : calls' = (t, .looking) :: calls ∨
        calls' = calls) :
    Step past s { past with polled := past.polled ++ [id'] } { s' with calls := calls' }
  | pollFails {past s t id calls e s'} (own : s.calls = (t, .publishing id) :: calls)
      (hpoll : s.pollHead = (.error e, s')) : Step past s past { s' with calls }

/-- The states that are reached from a new queue, each with its history. -/
inductive Run : History → DocumentsWriterFlushQueue τ σ → Prop
  | new : Run ⟨[], [], [], []⟩ new
  | step {past s past' s'} (before : Run past s) (hstep : Step past s past' s') : Run past' s'

/-! ## The invariant -/

/-- The calls of the thread that holds the purge lock, and what they publish. A purge that the
consumer makes finds the ticket at the head gone, so it never publishes. -/
inductive Calls : List (τ × PurgeCall) → List Nat → Prop
  | free : Calls [] []
  | looking {t} : Calls [(t, .looking)] []
  | publishing {t id} : Calls [(t, .publishing id)] [id]
  | again {t t' id} : Calls [(t, .looking), (t', .publishing id)] [id]

/-- The tickets in the map. -/
structure Tickets (value : Nat → Option (FlushTicket σ)) (waiting ready : List Nat) : Prop where
  isSome_iff : ∀ id, (value id).isSome ↔ id ∈ waiting
  ready : ∀ id ticket, value id = some ticket → ticket.canPublish = true → id ∈ ready

/-- The queue is what was added and has not been polled: first the ticket that is being published,
then those in the map. -/
structure Sound (past : History) (s : DocumentsWriterFlushQueue τ σ) (busy waiting : List Nat) :
    Prop where
  calls : Calls s.calls busy
  queue_eq : s.queue = busy ++ waiting
  added_eq : past.added = past.polled ++ s.queue
  handed_eq : past.handed = past.polled ++ busy
  range_eq : past.added = range s.identities
  tickets : Tickets s.value waiting past.ready
  count_eq : s.ticketCount = asI 32 s.queue.length

variable {past : History} {s s' : DocumentsWriterFlushQueue τ σ}
  {busy waiting : List Nat} {id : Nat}

/-- At most one ticket is with the consumer. -/
theorem Calls.length_le {calls : List (τ × PurgeCall)} (h : Calls calls busy) :
    busy.length ≤ 1 := by
  cases h <;> simp

/-- What is busy is being published by one of the calls. -/
theorem Calls.publishing_mem {calls : List (τ × PurgeCall)} (h : Calls calls busy)
    (hid : id ∈ busy) : ∃ t, (t, .publishing id) ∈ calls := by
  cases h with
  | free | looking => cases hid
  | publishing | again =>
    rw [mem_singleton.mp hid]
    exact ⟨_, mem_of_mem_getLast? rfl⟩

/-- One ticket changes. -/
theorem Tickets.update {value : Nat → Option (FlushTicket σ)} {ready ready' waiting' : List Nat}
    (h : Tickets value waiting ready) {v : Option (FlushTicket σ)}
    (hself : v.isSome ↔ id ∈ waiting')
    (hothers : ∀ id' ≠ id, id' ∈ waiting' ↔ id' ∈ waiting)
    (hready : ∀ ticket, v = some ticket → ticket.canPublish = true → id ∈ ready')
    (hsub : ready ⊆ ready') : Tickets (Function.update value id v) waiting' ready' := by
  refine ⟨fun id' => ?_, fun id' ticket => ?_⟩
  · by_cases hid : id' = id
    · rw [hid, Function.update_self, hself]
    · rw [Function.update_of_ne hid, hothers id' hid, h.isSome_iff]
  · by_cases hid : id' = id
    · rw [hid, Function.update_self]
      exact hready ticket
    · rw [Function.update_of_ne hid]
      exact fun hvalue hcan => hsub (h.ready id' ticket hvalue hcan)

/-- A failed look at the head changes nothing. -/
theorem takeHead_eq (hnone : ∀ head, s.takeHead.1 ≠ .ok (some head)) : s.takeHead.2 = s := by
  unfold takeHead at hnone ⊢
  split
  · rfl
  · split
    · rfl
    · split
      · simp_all
      · rfl

/-- The head can be published. -/
theorem takeHead_ok {ticket : FlushTicket σ} (htake : s.takeHead = (.ok (some (id, ticket)), s')) :
    ∃ rest, s.queue = id :: rest ∧ s.value id = some ticket ∧ ticket.canPublish = true ∧
      s' = { s with value := Function.update s.value id none } := by
  unfold takeHead at htake
  split at htake
  · cases htake
  · rename_i queue hqueue
    split at htake
    · cases htake
    · split at htake
      · cases htake
        exact ⟨_, hqueue, ‹_›, ‹_›, rfl⟩
      · cases htake

/-- The head leaves the queue. -/
theorem pollHead_ok (hpoll : s.pollHead = (.ok id, s')) :
    ∃ queue, s.queue = id :: queue ∧
      s' = { s with queue, ticketCount := decTickets s.ticketCount } := by
  unfold pollHead at hpoll
  split at hpoll
  · cases hpoll
  · cases hpoll
    exact ⟨_, ‹_›, rfl⟩

/-- Without a ticket the count goes up and down again. -/
theorem addTicket_of_none {n : Int} (hcount : s.ticketCount = asI 32 n)
    {supplied : Result (Option Bool)} (hnone : ∀ hasSegment, supplied ≠ .ok (some hasSegment)) :
    (s.addTicket supplied).2 = s := by
  have hsame : decTickets (incTickets s.ticketCount) = s.ticketCount := by
    rw [decTickets, incTickets, Int.sub_eq_add_neg, asI_asI_add, Int.add_neg_cancel_right, hcount,
      asI_asI]
  match supplied with
  | .ok (some hasSegment) => exact absurd rfl (hnone hasSegment)
  | .ok none | .error e => rw [addTicket, hsame]

section

variable (h : Sound past s busy waiting)

include h

theorem Sound.setCalls {calls : List (τ × PurgeCall)} (hcalls : Calls calls busy) :
    Sound past { s with calls } busy waiting :=
  { h with calls := hcalls }

/-- A ticket is added. -/
theorem Sound.addTicket (hasSegment : Bool)
    (hadd : s.addTicket (.ok (some hasSegment)) = (.ok (some id), s')) :
    Sound
      { past with
        added := past.added ++ [id]
        ready := if hasSegment then past.ready else id :: past.ready }
      s' busy (waiting ++ [id]) := by
  cases hadd
  refine ⟨h.calls, ?_, ?_, h.handed_eq, ?_, h.tickets.update ?_ ?_ ?_ ?_, ?_⟩
  · rw [h.queue_eq, append_assoc]
  · rw [h.added_eq, append_assoc]
  · rw [h.range_eq, range_succ]
  · exact iff_of_true rfl (mem_append_right _ mem_cons_self)
  · intro id' hid
    rw [mem_append, mem_singleton, or_iff_left hid]
  · rintro ticket ⟨⟩ hcan
    simp [FlushTicket.canPublish] at hcan
    simp [hcan]
  · intro id hid
    dsimp only
    split
    · exact hid
    · exact mem_cons_of_mem _ hid
  · rw [incTickets, h.count_eq, asI_asI_add, length_append, length_singleton, Nat.cast_succ]

/-- A ticket gets its segment or fails. -/
theorem Sound.onTicket {f : FlushTicket σ → FlushTicket σ} (hon : s.onTicket id f = (.ok (), s')) :
    Sound { past with ready := id :: past.ready } s' busy waiting := by
  unfold DocumentsWriterFlushQueue.onTicket at hon
  split at hon
  · rename_i ticket hticket
    cases hon
    refine { h with tickets := h.tickets.update ?_ (fun _ _ => Iff.rfl) ?_ (subset_cons_self _ _) }
    · rw [← h.tickets.isSome_iff, hticket]
      rfl
    · exact fun _ _ _ => mem_cons_self
  · cases hon

/-- The head is handed to the consumer. -/
theorem Sound.hand {t : τ} {calls : List (τ × PurgeCall)} {ticket : FlushTicket σ}
    (own : s.calls = (t, .looking) :: calls)
    (htake : s.takeHead = (.ok (some (id, ticket)), s')) :
    ∃ rest, Sound { past with handed := past.handed ++ [id] }
      { s' with calls := (t, .publishing id) :: calls } [id] rest := by
  obtain ⟨rest, hqueue, hvalue, hcan, rfl⟩ := takeHead_ok htake
  have hnodup : (past.polled ++ s.queue).Nodup := by
    rw [← h.added_eq, h.range_eq]
    exact nodup_range
  have hrest : id ∉ rest := (nodup_cons.mp (hqueue ▸ hnodup.of_append_right)).1
  have hsame := h.queue_eq.symm.trans hqueue
  have hcalls := h.calls
  rw [own] at hcalls
  cases hcalls with
  | looking =>
    -- nothing is being published, so the head is the first ticket in the map
    obtain rfl : waiting = id :: rest := hsame
    refine ⟨rest, .publishing, hqueue, h.added_eq, ?_, h.range_eq,
      h.tickets.update (by simpa using hrest) ?_ nofun (Subset.refl _), h.count_eq⟩
    · rw [h.handed_eq, append_nil]
    · intro id' hid
      rw [mem_cons, or_iff_right hid]
  | again =>
    -- the outer call publishes the head, so its ticket is not in the map
    obtain ⟨rfl, rfl⟩ := cons.inj hsame
    exact absurd ((h.tickets.isSome_iff _).mp (hvalue ▸ rfl)) hrest

/-- The consumer is done. -/
theorem Sound.poll {t : τ} {calls calls' : List (τ × PurgeCall)} {id' : Nat}
    (own : s.calls = (t, .publishing id) :: calls) (hpoll : s.pollHead = (.ok id', s'))
    (either : calls' = (t, .looking) :: calls ∨ calls' = calls) :
    Sound { past with polled := past.polled ++ [id'] } { s' with calls := calls' } [] waiting := by
  obtain ⟨rest, hqueue, rfl⟩ := pollHead_ok hpoll
  have hcalls := h.calls
  have hsame := h.queue_eq
  rw [own] at hcalls
  cases hcalls
  obtain ⟨rfl, rfl⟩ := cons.inj (hsame.symm.trans hqueue)
  refine ⟨?_, rfl, ?_, ?_, h.range_eq, h.tickets, ?_⟩
  · rcases either with rfl | rfl
    · exact .looking
    · exact .free
  · rw [h.added_eq, hqueue, append_assoc]
    rfl
  · rw [h.handed_eq, append_nil]
  · rw [decTickets, h.count_eq, hqueue, Int.sub_eq_add_neg, asI_asI_add]
    simp

/-- One step of any thread. -/
theorem Sound.step {past' : History} (hstep : Step past s past' s') :
    ∃ busy waiting, Sound past' s' busy waiting := by
  have hcalls := h.calls
  cases hstep with
  | addTicket hasSegment hadd => exact ⟨_, _, h.addTicket hasSegment hadd⟩
  | addNothing hnone => exact ⟨busy, waiting, (addTicket_of_none h.count_eq hnone).symm ▸ h⟩
  | addSegment hon | markTicketFailed hon => exact ⟨_, _, h.onTicket hon⟩
  | purge t hfree =>
    rw [hfree] at hcalls
    cases hcalls
    exact ⟨_, waiting, h.setCalls .looking⟩
  | purgeAgain own =>
    rw [own] at hcalls ⊢
    cases hcalls
    exact ⟨_, waiting, h.setCalls .again⟩
  | hand own htake => exact ⟨_, h.hand own htake⟩
  | done own hnone =>
    rw [takeHead_eq hnone]
    rw [own] at hcalls
    cases hcalls with
    | looking => exact ⟨_, waiting, h.setCalls .free⟩
    | again => exact ⟨_, waiting, h.setCalls .publishing⟩
  | poll own hpoll either => exact ⟨_, _, h.poll own hpoll either⟩
  | pollFails own hpoll =>
    -- what is being published stands at the head of the queue
    rw [own] at hcalls
    cases hcalls
    rw [pollHead, h.queue_eq] at hpoll
    cases hpoll

end

/-- A run. -/
theorem Run.sound (hrun : Run past s) : ∃ busy waiting, Sound past s busy waiting := by
  induction hrun with
  | new =>
    exact ⟨[], [], .free, rfl, rfl, rfl, rfl, ⟨fun id => iff_of_false nofun not_mem_nil, nofun⟩,
      show 0 = asI 32 0 by decide⟩
  | step _ hstep ih =>
    obtain ⟨busy, waiting, h⟩ := ih
    exact h.step hstep

/-! ## What is seen of a queue -/

/-- Tickets are handed over in the order in which they were added, at most once and when they are
ready. The queue holds what was added and has not been polled: at most one ticket, which a call that
has not returned is publishing, and those in the map. So no entry of the queue is left behind. -/
structure Orderly (past : History) (s : DocumentsWriterFlushQueue τ σ) : Prop where
  handed_added : past.handed <+: past.added
  added_nodup : past.added.Nodup
  taken_ready : ∀ id ticket s', s.takeHead = (.ok (some (id, ticket)), s') → id ∈ past.ready
  added_eq : past.added = past.polled ++ s.queue
  queue_eq : ∃ busy waiting, s.queue = busy ++ waiting ∧ busy.length ≤ 1 ∧
    (∀ id ∈ busy, ∃ t, (t, .publishing id) ∈ s.calls) ∧
    past.handed = past.polled ++ busy ∧ ∀ id, (s.value id).isSome ↔ id ∈ waiting
  not_dangling : ∀ id ∈ s.queue,
    (s.value id).isSome ∨ ∃ t, (t, .publishing id) ∈ s.calls
  count_eq : s.queue.length < 2 ^ 31 → s.ticketCount = s.queue.length

/-- What holds after every run. -/
theorem flushQueue_orderly (hrun : Run past s) : Orderly past s := by
  obtain ⟨busy, waiting, h⟩ := hrun.sound
  refine ⟨?_, h.range_eq ▸ nodup_range, fun id ticket s' htake => ?_, h.added_eq,
    ⟨busy, waiting, h.queue_eq, h.calls.length_le, fun _ => h.calls.publishing_mem, h.handed_eq,
      h.tickets.isSome_iff⟩, fun id hid => ?_, fun hfew => ?_⟩
  · rw [h.handed_eq, h.added_eq, h.queue_eq, ← append_assoc]
    exact prefix_append _ _
  · obtain ⟨rest, -, hvalue, hcan, -⟩ := takeHead_ok htake
    exact h.tickets.ready id ticket hvalue hcan
  · rw [h.queue_eq] at hid
    rcases mem_append.mp hid with hid | hid
    · exact .inr (h.calls.publishing_mem hid)
    · exact .inl ((h.tickets.isSome_iff id).mpr hid)
  · rw [h.count_eq, asI_32 (by omega) (by omega)]

/-- Two tickets are added, the first is published while a third one is added, and its consumer
fails. -/
theorem flushQueue_orderly_sample :
    ∃ s : DocumentsWriterFlushQueue Nat Nat, Run ⟨[0, 1, 2], [0], [0], [0]⟩ s ∧
      Orderly ⟨[0, 1, 2], [0], [0], [0]⟩ s := by
  have hnew : Run _ (new : DocumentsWriterFlushQueue Nat Nat) := .new
  have htwo := (hnew.step (.addTicket false rfl)).step (.addTicket true rfl)
  have hhanded := (htwo.step (.purge 0 rfl)).step (.hand rfl rfl)
  have hrun := (hhanded.step (.addTicket true rfl)).step (.poll rfl rfl (.inr rfl))
  exact ⟨_, hrun, flushQueue_orderly hrun⟩

/-- The queue can have any length. -/
theorem exists_run_length (n : Nat) : ∃ past, ∃ s : DocumentsWriterFlushQueue τ σ,
    Run past s ∧ s.queue.length = n := by
  induction n with
  | zero => exact ⟨_, _, .new, rfl⟩
  | succ n ih =>
    obtain ⟨past, s, hrun, hlength⟩ := ih
    refine ⟨_, _, hrun.step (.addTicket true rfl), ?_⟩
    rw [length_append, hlength, length_singleton]

/-- With too many tickets the count wraps around. -/
theorem flushQueue_count_wraps : ∃ past, ∃ s : DocumentsWriterFlushQueue Nat Nat,
    Run past s ∧ s.queue.length = 2147483648 ∧ s.ticketCount = -2147483648 := by
  obtain ⟨past, s, hrun, hlength⟩ := exists_run_length 2147483648
  obtain ⟨busy, waiting, h⟩ := hrun.sound
  refine ⟨past, s, hrun, hlength, ?_⟩
  rw [h.count_eq, hlength]
  decide

end DocumentsWriterFlushQueue

end RLucene.Index
