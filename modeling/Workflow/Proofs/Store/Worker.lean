import Mathlib.Data.List.Basic
import Mathlib.Logic.Function.Iterate
import Workflow.Proofs.Store.Texts
import Workflow.Store.Worker

/-!
# The worker loses nothing

Whatever senders do and whenever the worker is cancelled, the requests it has persisted and those
that still wait are the accepted ones in order.  It stops only when none waits.  Each turn that
takes a request saves it to the store with the fault of that turn and tells what came of it, and
the store holds what was saved last for each workflow.
-/

namespace Workflow

namespace SaveEvent

def isSaved : SaveEvent -> Bool
  | saved _ _ => true
  | failed _ _ => false

/-- What can be told of a request.  Only a valid id can be saved under. -/
def Tells (e : SaveEvent) (r : SaveRequest) : Prop :=
  (FileName.isValidId r.id ∧ e = .saved r.id r.definition.blocks.length) ∨
    ∃ error, e = .failed r.id error

theorem Tells.isValidId {e : SaveEvent} {r : SaveRequest} (h : e.Tells r) (hsaved : e.isSaved) :
    FileName.isValidId r.id := by
  rcases h with ⟨hvalid, -⟩ | ⟨error, rfl⟩
  · exact hvalid
  · cases hsaved

end SaveEvent

namespace Worker

/-!
# What was accepted and what was saved last
-/

def Action.sent : Action -> List SaveRequest
  | .send r => [r]
  | _ => []

/-- The requests that were sent, in order. -/
def accepted (actions : List Action) : List SaveRequest :=
  actions.flatMap Action.sent

theorem accepted_concat (actions : List Action) (a : Action) :
    accepted (actions ++ [a]) = accepted actions ++ a.sent := by
  simp [accepted]

/-- The definition of the last request for a workflow that was saved. -/
def lastSaved? (w : Worker) (id : String) : Option Definition :=
  ((w.persisted.zip w.events).reverse.find? fun p => p.1.id == id && p.2.isSaved).map
    fun p => p.1.definition

/-- What holds of a worker after some actions. -/
structure Lossless (start : Worker) (actions : List Action) (w : Worker) : Prop where
  capacity : w.capacity = start.capacity
  order : w.persisted ++ w.queue = accepted actions
  room : w.queue.length <= w.capacity
  told : List.Forall₂ SaveEvent.Tells w.events w.persisted
  cancelled : w.cancelled -> Action.cancel ∈ actions
  stopped : w.stopped -> w.queue = [] ∧ (w.cancelled ∨ w.senders = 0)
  stored : ∀ id, w.store.text? id =
    ((w.lastSaved? id).map Definition.text).or (start.store.text? id)

variable {start w w' : Worker} {actions : List Action} {a : Action}

/-!
# Persisting
-/

theorem exists_event (w : Worker) (r : SaveRequest) (fault : Option Fault) :
    ∃ e store, w.persist r fault =
        { w with store, persisted := w.persisted ++ [r], events := w.events ++ [e] } ∧
      e.Tells r ∧ ∀ id, store.text? id =
        if (r.id == id && e.isSaved) = true then some r.definition.text else w.store.text? id := by
  unfold persist
  cases hsave : w.store.save r.id r.definition fault with
  | mk result store =>
      cases result with
      | error e =>
          refine ⟨_, store, rfl, Or.inr ⟨_, rfl⟩, fun id => ?_⟩
          rw [SaveEvent.isSaved, Bool.and_false, if_neg Bool.false_ne_true]
          exact Store.text?_save hsave (Or.inr (by simp))
      | ok u =>
          refine ⟨_, store, rfl, Or.inl ⟨(Store.read_of_save hsave).1, rfl⟩, fun id => ?_⟩
          rw [SaveEvent.isSaved, Bool.and_true]
          split
          · next hid =>
              rw [← eq_of_beq hid]
              exact Store.text?_of_save hsave
          · next hid =>
              exact Store.text?_save hsave (Or.inl fun heq => hid (beq_iff_eq.2 heq.symm))

theorem lastSaved?_concat {r : SaveRequest} {e : SaveEvent}
    (hlength : w.persisted.length = w.events.length) (hpersisted : w'.persisted = w.persisted ++ [r])
    (hevents : w'.events = w.events ++ [e]) (id : String) :
    w'.lastSaved? id =
      if (r.id == id && e.isSaved) = true then some r.definition else w.lastSaved? id := by
  rw [lastSaved?, hpersisted, hevents, List.zip_append hlength, List.zip_cons_cons,
    List.zip_nil_right, List.reverse_append, List.reverse_singleton, List.singleton_append,
    List.find?_cons]
  cases r.id == id && e.isSaved <;> rfl

theorem Lossless.persist (h : Lossless start actions w) {r : SaveRequest} {rest : List SaveRequest}
    (hqueue : w.queue = r :: rest) (fault : Option Fault) :
    Lossless start actions ({ w with queue := rest }.persist r fault) := by
  obtain ⟨e, store, hpersist, htells, htext⟩ := exists_event { w with queue := rest } r fault
  rw [hpersist]
  constructor
  case capacity => exact h.capacity
  case order =>
    have horder := h.order
    rw [hqueue] at horder
    simpa using horder
  case room =>
    have hroom := h.room
    rw [hqueue, List.length_cons] at hroom
    exact Nat.le_of_succ_le hroom
  case told => exact List.rel_append h.told (.cons htells .nil)
  case cancelled => exact h.cancelled
  case stopped =>
    intro hstopped
    cases hqueue.symm.trans (h.stopped hstopped).1
  case stored =>
    intro id
    rw [lastSaved?_concat h.told.length_eq.symm rfl rfl]
    refine (htext id).trans ?_
    split
    · rfl
    · exact h.stored id

/-!
# Steps
-/

theorem turn_of_waiting {r : SaveRequest} {rest : List SaveRequest} (h : w.queue = r :: rest)
    (fault : Option Fault) : w.turn fault = { w with queue := rest }.persist r fault := by
  rw [turn, h]

theorem turn_of_empty (h : w.queue = []) (fault : Option Fault) :
    w.turn fault = if w.cancelled || w.senders == 0 then { w with stopped := true } else w := by
  rw [turn, h]

theorem Lossless.of_quiet (h : Lossless start actions w) (hsent : a.sent = []) {senders : Nat}
    {cancelled stopped : Bool} (hcancelled : cancelled -> Action.cancel ∈ actions ++ [a])
    (hstopped : stopped -> w.queue = [] ∧ (cancelled ∨ senders = 0)) :
    Lossless start (actions ++ [a]) { w with senders, cancelled, stopped } where
  capacity := h.capacity
  order := by
    rw [accepted_concat, hsent, List.append_nil]
    exact h.order
  room := h.room
  told := h.told
  cancelled := hcancelled
  stopped := hstopped
  stored := h.stored

theorem Lossless.step (h : Lossless start actions w) (hstep : w.step a = some w') :
    Lossless start (actions ++ [a]) w' := by
  have hcancelled : w.cancelled -> Action.cancel ∈ actions ++ [a] :=
    fun hc => List.mem_append_left _ (h.cancelled hc)
  have hsenders : 0 < w.senders -> w.stopped -> w.queue = [] ∧ w.cancelled := by
    intro hsenders hstopped
    obtain ⟨hqueue, hend⟩ := h.stopped hstopped
    exact ⟨hqueue, hend.resolve_right (Nat.ne_of_gt hsenders)⟩
  cases a with
  | send r =>
      simp only [Worker.step, Option.ite_none_right_eq_some, Option.some.injEq, Bool.and_eq_true,
        hasRoom, decide_eq_true_eq, Bool.not_eq_true'] at hstep
      obtain ⟨⟨⟨-, hroom⟩, hrunning⟩, rfl⟩ := hstep
      constructor
      case capacity => exact h.capacity
      case order =>
        rw [accepted_concat, ← h.order, List.append_assoc]
        rfl
      case room =>
        rw [List.length_append]
        exact hroom
      case told => exact h.told
      case cancelled => exact hcancelled
      case stopped =>
        intro hstopped
        cases hrunning.symm.trans hstopped
      case stored => exact h.stored
  | addSender =>
      simp only [Worker.step, Option.ite_none_right_eq_some, Option.some.injEq] at hstep
      obtain ⟨hpos, rfl⟩ := hstep
      exact h.of_quiet rfl hcancelled fun hstopped => (hsenders hpos hstopped).imp_right Or.inl
  | dropSender =>
      simp only [Worker.step, Option.ite_none_right_eq_some, Option.some.injEq] at hstep
      obtain ⟨hpos, rfl⟩ := hstep
      exact h.of_quiet rfl hcancelled fun hstopped => (hsenders hpos hstopped).imp_right Or.inl
  | cancel =>
      cases hstep
      exact h.of_quiet rfl (fun _ => List.mem_append_right _ List.mem_cons_self)
        fun hstopped => ⟨(h.stopped hstopped).1, Or.inl rfl⟩
  | turn fault =>
      simp only [Worker.step, Option.ite_none_left_eq_some, Option.some.injEq] at hstep
      obtain ⟨-, rfl⟩ := hstep
      cases hqueue : w.queue with
      | cons r rest =>
          rw [turn_of_waiting hqueue]
          have hpersist := h.persist hqueue fault
          exact hpersist.of_quiet rfl
            (fun hc => List.mem_append_left _ (hpersist.cancelled hc)) hpersist.stopped
      | nil =>
          rw [turn_of_empty hqueue]
          split
          · next hend =>
              rw [Bool.or_eq_true, beq_iff_eq] at hend
              exact h.of_quiet rfl hcancelled fun _ => ⟨hqueue, hend⟩
          · exact h.of_quiet rfl hcancelled h.stopped

/-!
# What a turn does

The actions alone say which requests are taken and under which faults.
-/

/-- The requests that are taken over the actions, each with the fault of its turn. -/
def taken : List SaveRequest -> List Action -> List (SaveRequest × Option Fault)
  | _, [] => []
  | queue, .send r :: actions => taken (queue ++ [r]) actions
  | r :: queue, .turn fault :: actions => (r, fault) :: taken queue actions
  | queue, _ :: actions => taken queue actions

/-- Requests are saved to a store one after the other, and an event tells what came of each. -/
inductive Saves :
    Store -> List (SaveRequest × Option Fault) -> List SaveEvent -> Store -> Prop where
  | none (s : Store) : Saves s [] [] s
  | saved {s s₁ s' : Store} {r : SaveRequest} {fault : Option Fault}
      {rest : List (SaveRequest × Option Fault)} {events : List SaveEvent} :
      s.save r.id r.definition fault = (.ok (), s₁) ->
      Saves s₁ rest events s' ->
      Saves s ((r, fault) :: rest) (.saved r.id r.definition.blocks.length :: events) s'
  | failed {s s₁ s' : Store} {r : SaveRequest} {fault : Option Fault} {error : StoreError}
      {rest : List (SaveRequest × Option Fault)} {events : List SaveEvent} :
      s.save r.id r.definition fault = (.error error, s₁) ->
      Saves s₁ rest events s' ->
      Saves s ((r, fault) :: rest) (.failed r.id error.message :: events) s'

/-- What a worker takes over some actions is saved, told of and added to what was persisted. -/
structure SavesTaken (w : Worker) (actions : List Action) (w' : Worker) (events : List SaveEvent) :
    Prop where
  persisted : w'.persisted = w.persisted ++ (taken w.queue actions).map Prod.fst
  told : w'.events = w.events ++ events
  saves : Saves w.store (taken w.queue actions) events w'.store

/-- A worker that takes its next request saves it first and goes on from there. -/
theorem SavesTaken.of_persist {r : SaveRequest} {rest : List SaveRequest} {fault : Option Fault}
    {events : List SaveEvent} (hqueue : w.queue = r :: rest)
    (h : SavesTaken ({ w with queue := rest }.persist r fault) actions w' events) :
    ∃ events, SavesTaken w (.turn fault :: actions) w' events := by
  unfold persist at h
  cases hsave : w.store.save r.id r.definition fault with
  | mk result store =>
      simp only [hsave] at h
      cases result with
      | ok u =>
          exists .saved r.id r.definition.blocks.length :: events
          constructor
          case persisted => simpa [hqueue, taken] using h.persisted
          case told => simpa using h.told
          case saves => simpa [hqueue, taken] using Saves.saved hsave h.saves
      | error e =>
          exists .failed r.id e.message :: events
          constructor
          case persisted => simpa [hqueue, taken] using h.persisted
          case told => simpa using h.told
          case saves => simpa [hqueue, taken] using Saves.failed hsave h.saves

/-- An action that takes nothing may change the senders, the cancellation and the stop. -/
theorem SavesTaken.of_quiet {senders : Nat} {cancelled stopped : Bool} {events : List SaveEvent}
    (h : SavesTaken { w with senders, cancelled, stopped } actions w' events)
    (htaken : taken w.queue (a :: actions) = taken w.queue actions) :
    SavesTaken w (a :: actions) w' events where
  persisted := by
    rw [htaken]
    exact h.persisted
  told := h.told
  saves := by
    rw [htaken]
    exact h.saves

theorem SavesTaken.of_step {w₁ : Worker} {events : List SaveEvent} (hstep : w.step a = some w₁)
    (h : SavesTaken w₁ actions w' events) : ∃ events, SavesTaken w (a :: actions) w' events := by
  cases a with
  | send r =>
      simp only [Worker.step, Option.ite_none_right_eq_some, Option.some.injEq] at hstep
      rcases hstep with ⟨-, rfl⟩
      exact ⟨events, h.persisted, h.told, h.saves⟩
  | addSender =>
      simp only [Worker.step, Option.ite_none_right_eq_some, Option.some.injEq] at hstep
      rcases hstep with ⟨-, rfl⟩
      exact ⟨events, h.of_quiet (by simp [taken])⟩
  | dropSender =>
      simp only [Worker.step, Option.ite_none_right_eq_some, Option.some.injEq] at hstep
      rcases hstep with ⟨-, rfl⟩
      exact ⟨events, h.of_quiet (by simp [taken])⟩
  | cancel =>
      cases hstep
      exact ⟨events, h.of_quiet (by simp [taken])⟩
  | turn fault =>
      simp only [Worker.step, Option.ite_none_left_eq_some, Option.some.injEq] at hstep
      rcases hstep with ⟨-, rfl⟩
      cases hqueue : w.queue with
      | cons r rest =>
          rw [turn_of_waiting hqueue] at h
          exact h.of_persist hqueue
      | nil =>
          have htaken : taken w.queue (.turn fault :: actions) = taken w.queue actions := by
            rw [hqueue]
            rfl
          rw [turn_of_empty hqueue] at h
          split at h
          · exact ⟨events, h.of_quiet htaken⟩
          · exact ⟨events, h.of_quiet htaken⟩

theorem exists_savesTaken (actions : List Action) : ∀ {w : Worker},
    w.run actions = some w' -> ∃ events, SavesTaken w actions w' events := by
  induction actions with
  | nil =>
      intro w hrun
      cases hrun
      exact ⟨[], by simp [taken], by simp, .none _⟩
  | cons a actions ih =>
      intro w hrun
      rw [Worker.run, List.foldlM_cons] at hrun
      rcases Option.bind_eq_some_iff.1 hrun with ⟨w₁, hstep, hrest⟩
      rcases ih hrest with ⟨events, h⟩
      exact h.of_step hstep

/-!
# Runs
-/

theorem Lossless.run (more : List Action) : ∀ {actions : List Action} {w : Worker},
    Lossless start actions w -> w.run more = some w' -> Lossless start (actions ++ more) w' := by
  induction more with
  | nil =>
      intro actions w h hrun
      cases hrun
      rw [List.append_nil]
      exact h
  | cons a more ih =>
      intro actions w h hrun
      rw [Worker.run, List.foldlM_cons] at hrun
      obtain ⟨w₁, hstep, hrest⟩ := Option.bind_eq_some_iff.1 hrun
      rw [List.append_cons]
      exact ih (h.step hstep) hrest

theorem lossless_new (store : Store) (bufferSize senders : Nat) :
    Lossless (new store bufferSize senders) [] (new store bufferSize senders) where
  capacity := rfl
  order := rfl
  room := Nat.zero_le _
  told := .nil
  cancelled := Bool.noConfusion
  stopped := Bool.noConfusion
  stored := fun _ => rfl

theorem Lossless.isValidId_of_lastSaved? (h : Lossless start actions w) {id : String}
    {d : Definition} (hd : w.lastSaved? id = some d) : FileName.isValidId id := by
  obtain ⟨⟨r, e⟩, hfound, -⟩ := Option.map_eq_some_iff.1 hd
  have hmem := List.mem_reverse.1 (List.mem_of_find?_eq_some hfound)
  have htells : e.Tells r := (List.forall₂_iff_zip.1 h.told.flip).2 hmem
  have hsaved := List.find?_some hfound
  rw [Bool.and_eq_true, beq_iff_eq] at hsaved
  exact hsaved.1 ▸ htells.isValidId hsaved.2

/-- Once a worker is to end, it persists what waits and stops. -/
theorem drain_of_end (hend : w.cancelled ∨ w.senders = 0) (hrunning : w.stopped = false) :
    w.drain.stopped ∧ w.drain.persisted = w.persisted ++ w.queue := by
  have hturns : ∀ (queue : List SaveRequest) (w : Worker), w.queue = queue ->
      (w.cancelled ∨ w.senders = 0) -> w.stopped = false ->
      let w' := (fun w : Worker => if w.stopped then w else w.turn none)^[queue.length + 1] w
      w'.stopped ∧ w'.persisted = w.persisted ++ queue := by
    intro queue
    induction queue with
    | nil =>
        intro w hqueue hend hrunning
        have hturn : w.turn none = { w with stopped := true } := by
          rw [turn_of_empty hqueue]
          exact if_pos (by simpa using hend)
        simp [hrunning, hturn]
    | cons r rest ih =>
        intro w hqueue hend hrunning
        obtain ⟨e, store, hpersist, -, -⟩ := exists_event { w with queue := rest } r none
        have hturn := (turn_of_waiting hqueue none).trans hpersist
        rw [List.length_cons, Function.iterate_succ_apply, hrunning, if_neg Bool.false_ne_true,
          hturn]
        have hrest := ih { w with
          store, queue := rest, persisted := w.persisted ++ [r], events := w.events ++ [e] }
          rfl hend hrunning
        simpa using hrest
  rw [drain, List.foldl_const, List.length_range]
  exact hturns w.queue w rfl hend hrunning

/-- Whatever is sent, dropped and cancelled between the turns of a worker, no accepted request is
lost, each turn saves the request it takes, and the store holds what was saved last. -/
theorem lossless_run {store : Store} {bufferSize senders : Nat}
    (hrun : (new store bufferSize senders).run actions = some w) :
    w.persisted ++ w.queue = accepted actions ∧ w.queue.length <= max bufferSize 1 ∧
    List.Forall₂ SaveEvent.Tells w.events w.persisted ∧
    w.persisted = (taken [] actions).map Prod.fst ∧
    Saves store (taken [] actions) w.events w.store ∧
    (w.stopped -> w.queue = [] ∧ w.persisted = accepted actions ∧
      (Action.cancel ∈ actions ∨ w.senders = 0)) ∧
    (w.stopped = false -> (w.cancelled ∨ w.senders = 0) ->
      w.drain.stopped ∧ w.drain.persisted = accepted actions) ∧
    ∀ id, w.store.text? id = ((w.lastSaved? id).map Definition.text).or (store.text? id) ∧
      ∀ d, w.lastSaved? id = some d ->
        w.store.load id = (Definition.load? d.text).mapError .load := by
  have h := (lossless_new store bufferSize senders).run actions hrun
  rw [List.nil_append] at h
  obtain ⟨events, hpersisted, htold, hsaves⟩ := exists_savesTaken actions hrun
  have hevents : w.events = events := htold
  refine ⟨h.order, h.room.trans_eq h.capacity, h.told, hpersisted, hevents ▸ hsaves,
    fun hstopped => ?_, fun hrunning hend => ?_, fun id => ⟨h.stored id, fun d hd => ?_⟩⟩
  · obtain ⟨hqueue, hend⟩ := h.stopped hstopped
    refine ⟨hqueue, ?_, hend.imp_left h.cancelled⟩
    rw [← h.order, hqueue, List.append_nil]
  · rw [← h.order]
    exact drain_of_end hend hrunning
  · have htext : w.store.text? id = some d.text := by
      rw [h.stored id, hd]
      rfl
    exact Store.load_of_text? (h.isValidId_of_lastSaved? hd) htext

/-- Two definitions for one workflow, of which the second cannot be saved; the worker is cancelled
while it waits. -/
def chargesTwice : List Action :=
  [.send ⟨"charges", .charges⟩, .turn none, .send ⟨"charges", .nested 1⟩, .cancel,
    .turn (some .create), .turn none]

theorem lossless_run_chargesTwice :
    ∃ w, (new {} 1 1).run chargesTwice = some w ∧ w.stopped ∧
      w.persisted = [⟨"charges", .charges⟩, ⟨"charges", .nested 1⟩] ∧
      w.store.text? "charges" = some Definition.charges.text := by
  have hvalid : FileName.isValidId "charges" = true := FileName.isValidId_iff.2 (by decide)
  obtain ⟨s, hsaved⟩ := Store.exists_save_new hvalid (by decide) (by decide) .charges
  have hfailed : s.save "charges" (.nested 1) (some .create) = (.error (.io .device), s) := by
    rw [Store.save, hvalid]
    rfl
  have hrun : (new {} 1 1).run chargesTwice = some
      { capacity := 1, store := s, senders := 1, cancelled := true, stopped := true
        persisted := [⟨"charges", .charges⟩, ⟨"charges", .nested 1⟩]
        events := [.saved "charges" Definition.charges.blocks.length,
          .failed "charges" (StoreError.io .device).message] } := by
    simp [chargesTwice, run, step, turn, persist, hasRoom, new, hsaved, hfailed]
  obtain ⟨-, -, -, -, -, hend, -, hstored⟩ := lossless_run hrun
  exact ⟨_, hrun, rfl, (hend rfl).2.1, (hstored "charges").1⟩

end Worker
end Workflow
