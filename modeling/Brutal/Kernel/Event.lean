import Brutal.Kernel.Channel
import Brutal.Lib.Removal

/-!
# Events

`kernel/event.c`: tasks bind interrupts, and an interrupt is delivered to the channel of each task
that has bound it and has acknowledged the previous one.

A binding that is not acknowledged should have a message to show for it.  Where the channel is
full the message is dropped and the binding is left unacknowledged all the same, so the property
holds of the runs in which no interrupt meets a full channel, and fails of others.
-/

namespace Brutal.Kernel

open Base Ds Lib

variable {α : Type}

/-- `br_event_eq` -/
def brEventEq (a b : BrEvent) : Except Fault Bool :=
  if a.type ≠ b.type then .ok false
  else
    match a.type with
    | .irq => .ok (a.irq == b.irq)
    | _ => .error .panic

/-- `EventBinding`, with the task by its number. -/
structure EventBinding where
  task : ℕ
  event : BrEvent
  ack : Bool
deriving DecidableEq, Repr

/-- The condition that a binding is searched by. -/
def eventBindingIs (task : ℕ) (event : BrEvent) (binding : EventBinding) : Except Fault Bool :=
  if binding.task = task then brEventEq binding.event event else .ok false

/-- `event_binding_get`, as an index into the bindings. -/
def eventBindingGet (task : ℕ) (event : BrEvent) :
    List EventBinding → Except Fault (Option ℕ)
  | [] => .ok none
  | binding :: rest => do
    let found ← eventBindingIs task event binding
    if found then pure (some 0)
    else do
      let index ← eventBindingGet task event rest
      pure (index.map (· + 1))

/-- The state of the events: `_bindings`, and the channel of each task. -/
structure Events (α : Type) where
  bindings : List EventBinding
  channels : ℕ → Channel α

/-- `event_initialize` -/
def eventInitialize : Events α := ⟨[], fun _ ↦ channelCreate⟩

/-- `event_bind` -/
def eventBind (self : Events α) (task : ℕ) (event : BrEvent) :
    Except Fault (BrResult × Events α) := do
  match ← eventBindingGet task event self.bindings with
  | some _ => pure (.alreadyBinded, self)
  | none => pure (.success, { self with bindings := self.bindings ++ [⟨task, event, true⟩] })

/-- `event_unbind` -/
def eventUnbind (self : Events α) (task : ℕ) (event : BrEvent) :
    Except Fault (BrResult × Events α) := do
  match ← eventBindingGet task event self.bindings with
  | some index => pure (.success, { self with bindings := self.bindings.eraseIdx index })
  | none => pure (.notBinded, self)

/-- The loop of `event_unbind_all`, which passes over the binding behind one that it removes. -/
def eventUnbindAllFrom (task : ℕ) : List EventBinding → List EventBinding
  | [] => []
  | binding :: rest =>
    if binding.task = task then
      match rest with
      | [] => []
      | next :: rest => next :: eventUnbindAllFrom task rest
    else binding :: eventUnbindAllFrom task rest

/-- `event_unbind_all` -/
def eventUnbindAll (self : Events α) (task : ℕ) : Events α :=
  { self with bindings := eventUnbindAllFrom task self.bindings }

/-- The first argument of a message that holds an event, in the order of its bytes. -/
def eventArg (event : BrEvent) : UInt64 :=
  let code : UInt32 := match event.type with
    | .invalid => 0
    | .irq => 1
    | .unknown code => code
  code.toUInt64 ||| (event.irq.toUInt64 <<< 32)

/-- The message of an event. -/
def eventMsg (event : BrEvent) : BrMsg :=
  { (default : BrMsg) with fromAddr := brAddrEvent, args := #v[eventArg event, 0, 0, 0, 0] }

/-- `event_dispatch`, a `channel_send` that does not block and has no domain. -/
def eventDispatch (typeOf : α → BrType) (channel : Channel α) (event : BrEvent) :
    Except Fault (BrResult × Channel α) :=
  channelSendUnlock typeOf channel none (eventMsg event)

/-- What `event_trigger` does to an acknowledged binding of the event.  It is unacknowledged
first, and a full channel leaves it so. -/
def eventTriggerArmed (typeOf : α → BrType) (event : BrEvent) (binding : EventBinding)
    (channels : ℕ → Channel α) : Except Fault (EventBinding × (ℕ → Channel α)) := do
  let binding := { binding with ack := false }
  let (result, channel) ← eventDispatch typeOf (channels binding.task) event
  let channels := Function.update channels binding.task channel
  if result = .channelFull then pure ({ binding with ack := false }, channels)
  else pure (binding, channels)

/-- The body of the loop of `event_trigger`. -/
def eventTriggerBinding (typeOf : α → BrType) (event : BrEvent) (binding : EventBinding)
    (channels : ℕ → Channel α) : Except Fault (EventBinding × (ℕ → Channel α)) := do
  let same ← brEventEq binding.event event
  if same && binding.ack then eventTriggerArmed typeOf event binding channels
  else pure (binding, channels)

/-- The loop of `event_trigger`. -/
def eventTriggerFrom (typeOf : α → BrType) (event : BrEvent) :
    List EventBinding → (ℕ → Channel α) → Except Fault (List EventBinding × (ℕ → Channel α))
  | [], channels => .ok ([], channels)
  | binding :: rest, channels => do
    let (binding, channels) ← eventTriggerBinding typeOf event binding channels
    let (rest, channels) ← eventTriggerFrom typeOf event rest channels
    pure (binding :: rest, channels)

/-- `event_trigger` -/
def eventTrigger (typeOf : α → BrType) (self : Events α) (event : BrEvent) :
    Except Fault (Events α) := do
  let (bindings, channels) ← eventTriggerFrom typeOf event self.bindings self.channels
  pure ⟨bindings, channels⟩

/-- `event_ack` -/
def eventAck (self : Events α) (task : ℕ) (event : BrEvent) :
    Except Fault (BrResult × Events α) := do
  match ← eventBindingGet task event self.bindings with
  | some index =>
    let bindings := self.bindings.modify index fun binding ↦ { binding with ack := true }
    pure (.success, { self with bindings := bindings })
  | none => pure (.notBinded, self)

/-- What changes the bindings and the channels of the tasks. -/
inductive EventCall (α : Type) where
  | bind (task : ℕ) (event : BrEvent)
  | unbind (task : ℕ) (event : BrEvent)
  | unbindAll (task : ℕ)
  | trigger (event : BrEvent)
  | ack (task : ℕ) (event : BrEvent)
  | send (task : ℕ) (domain : Option (Domain α)) (msg : BrMsg)
  | recv (task : ℕ) (domain : Option (Domain α))

def eventNext (typeOf : α → BrType) (s : Events α) : EventCall α → Except Fault (Events α)
  | .bind task event => do
    let (_, s) ← eventBind s task event
    pure s
  | .unbind task event => do
    let (_, s) ← eventUnbind s task event
    pure s
  | .unbindAll task => pure (eventUnbindAll s task)
  | .trigger event => eventTrigger typeOf s event
  | .ack task event => do
    let (_, s) ← eventAck s task event
    pure s
  | .send task domain msg => do
    let (_, channel) ← channelSendUnlock typeOf (s.channels task) domain msg
    pure { s with channels := Function.update s.channels task channel }
  | .recv task domain => do
    let (_, _, _, channel) ← channelRecvUnlock (s.channels task) domain default
    pure { s with channels := Function.update s.channels task channel }

/-- Comparing two events stops the kernel or decides their equality. -/
theorem brEventEq_ok {a b : BrEvent} {same : Bool} (h : brEventEq a b = .ok same) :
    same = decide (a = b) := by
  obtain ⟨atype, airq⟩ := a
  obtain ⟨btype, birq⟩ := b
  unfold brEventEq at h
  split at h
  next htype =>
    cases h
    simp [show atype ≠ btype from htype]
  next htype =>
    have heq : atype = btype := not_not.1 htype
    split at h
    · cases h
      rw [Bool.eq_iff_iff]
      simp [heq]
    · cases h

/-- A binding that was not found is not there. -/
theorem eventBindingGet_none {task : ℕ} {event : BrEvent} {bindings : List EventBinding}
    (h : eventBindingGet task event bindings = .ok none) :
    ∀ binding ∈ bindings, binding.task = task → binding.event ≠ event := by
  induction bindings with
  | nil =>
    intro binding hbinding
    cases hbinding
  | cons head rest ih =>
    simp only [eventBindingGet, bind_eq_ok] at h
    obtain ⟨found, hfound, h⟩ := h
    split at h
    · cases h
    next hnot =>
      simp only [bind_eq_ok, pure_eq_ok, Option.map_eq_none_iff] at h
      obtain ⟨index, hrest, rfl⟩ := h
      intro binding hbinding htask
      rcases List.mem_cons.1 hbinding with rfl | hbinding
      · rw [eventBindingIs, if_pos htask] at hfound
        have hsame := brEventEq_ok hfound
        rw [hsame, decide_eq_true_eq] at hnot
        exact hnot
      · exact ih hrest binding hbinding htask

/-- A task has at most one binding of an event. -/
def UniqueBindings (bindings : List EventBinding) : Prop :=
  (bindings.map fun binding ↦ (binding.task, binding.event)).Nodup

theorem UniqueBindings.sublist {bindings bindings' : List EventBinding}
    (h : UniqueBindings bindings) (hsub : bindings'.Sublist bindings) :
    UniqueBindings bindings' :=
  List.Nodup.sublist (hsub.map _) h

/-- The binding of a task for an event is acknowledged. -/
def Armed (s : Events α) (task : ℕ) (event : BrEvent) : Prop :=
  ⟨task, event, true⟩ ∈ s.bindings

/-- The binding of a task for an event waits to be acknowledged. -/
def Unacked (s : Events α) (task : ℕ) (event : BrEvent) : Prop :=
  ⟨task, event, false⟩ ∈ s.bindings

/-- A binding after its event was triggered. -/
def fired (event : BrEvent) (binding : EventBinding) : EventBinding :=
  if binding.event = event then { binding with ack := false } else binding

/-- The parcel of an event. -/
def eventParcel (event : BrEvent) : Parcel α := { (default : Parcel α) with msg := eventMsg event }

theorem eventDispatch_of_room {typeOf : α → BrType} {channel channel' : Channel α}
    {event : BrEvent} {result : BrResult}
    (h : eventDispatch typeOf channel event = .ok (result, channel'))
    (hroom : ringFull channel.msgs = false) :
    contents channel'.msgs = contents channel.msgs ++ [eventParcel event] := by
  have hpack : parcelPack typeOf (eventMsg event) none = .ok (.success, eventParcel event) := rfl
  rcases channelSendUnlock_cases h with ⟨_, hfull, _⟩ | ⟨rfl, rfl⟩ |
    ⟨_, _, parcel, hparcel, _, hnew⟩
  · rw [hroom] at hfull
    cases hfull
  · rw [eventDispatch, channelSendUnlock, hroom, hpack] at h
    cases h
  · rw [hpack] at hparcel
    cases hparcel
    exact hnew

/-- The two ways in which the loop of `event_trigger` goes past a binding. -/
theorem eventTriggerFrom_cons {typeOf : α → BrType} {event : BrEvent} {head : EventBinding}
    {rest bindings' : List EventBinding} {channels channels' : ℕ → Channel α}
    (h : eventTriggerFrom typeOf event (head :: rest) channels = .ok (bindings', channels')) :
    ∃ between rest', eventTriggerFrom typeOf event rest between = .ok (rest', channels') ∧
      bindings' = fired event head :: rest' ∧
      ((¬ (head.event = event ∧ head.ack = true) ∧ between = channels) ∨
        (head.event = event ∧ ∃ result channel,
          eventDispatch typeOf (channels head.task) event = .ok (result, channel) ∧
          between = Function.update channels head.task channel)) := by
  simp only [eventTriggerFrom, eventTriggerBinding, bind_eq_ok, pure_eq_ok, Prod.exists,
    Prod.mk.injEq] at h
  obtain ⟨binding, between, ⟨same, hsame, hhead⟩, rest', final, hrest, rfl, rfl⟩ := h
  have heq := brEventEq_ok hsame
  refine ⟨between, rest', hrest, ?_⟩
  split at hhead
  next hfire =>
    rw [heq, Bool.and_eq_true, decide_eq_true_eq] at hfire
    simp only [eventTriggerArmed, bind_eq_ok, Prod.exists] at hhead
    obtain ⟨result, channel, hdispatch, hhead⟩ := hhead
    have hbinding : { head with ack := false } = binding ∧
        Function.update channels head.task channel = between := by
      split at hhead <;> cases hhead <;> exact ⟨rfl, rfl⟩
    obtain ⟨rfl, rfl⟩ := hbinding
    rw [fired, if_pos hfire.1]
    exact ⟨rfl, Or.inr ⟨hfire.1, result, channel, hdispatch, rfl⟩⟩
  next hskip =>
    rw [heq, Bool.and_eq_true, decide_eq_true_eq] at hskip
    cases hhead
    refine ⟨?_, Or.inl ⟨hskip, rfl⟩⟩
    obtain ⟨task, event', ack⟩ := head
    unfold fired
    split
    next hevent =>
      have hack : ack = false := Bool.eq_false_iff.2 fun hack ↦ hskip ⟨hevent, hack⟩
      rw [hack]
    next => rfl

theorem eventTriggerFrom_bindings {typeOf : α → BrType} {event : BrEvent}
    {bindings bindings' : List EventBinding} {channels channels' : ℕ → Channel α}
    (h : eventTriggerFrom typeOf event bindings channels = .ok (bindings', channels')) :
    bindings' = bindings.map (fired event) := by
  induction bindings generalizing bindings' channels with
  | nil =>
    cases h
    rfl
  | cons head rest ih =>
    obtain ⟨between, rest', hrest, rfl, _⟩ := eventTriggerFrom_cons h
    rw [ih hrest, List.map_cons]

/-- A task without an acknowledged binding of the event receives nothing. -/
theorem eventTriggerFrom_untouched {typeOf : α → BrType} {event : BrEvent} {task : ℕ}
    {bindings bindings' : List EventBinding} {channels channels' : ℕ → Channel α}
    (h : eventTriggerFrom typeOf event bindings channels = .ok (bindings', channels'))
    (hnone : ∀ binding ∈ bindings, binding.task = task → binding.event ≠ event) :
    channels' task = channels task := by
  induction bindings generalizing bindings' channels with
  | nil =>
    cases h
    rfl
  | cons head rest ih =>
    obtain ⟨between, rest', hrest, _, hhead⟩ := eventTriggerFrom_cons h
    rw [ih hrest fun binding hbinding ↦ hnone binding (List.mem_cons_of_mem _ hbinding)]
    rcases hhead with ⟨_, rfl⟩ | ⟨hevent, _, channel, _, rfl⟩
    · rfl
    · have htask : task ≠ head.task := by
        intro htask
        exact hnone head List.mem_cons_self htask.symm hevent
      rw [Function.update_of_ne htask]

/-- An acknowledged binding whose channel has room is served. -/
theorem eventTriggerFrom_delivered {typeOf : α → BrType} {event : BrEvent} {task : ℕ}
    {bindings bindings' : List EventBinding} {channels channels' : ℕ → Channel α}
    (h : eventTriggerFrom typeOf event bindings channels = .ok (bindings', channels'))
    (hunique : UniqueBindings bindings) (harmed : ⟨task, event, true⟩ ∈ bindings)
    (hroom : ringFull (channels task).msgs = false) :
    contents (channels' task).msgs = contents (channels task).msgs ++ [eventParcel event] := by
  induction bindings generalizing bindings' channels with
  | nil => cases harmed
  | cons head rest ih =>
    obtain ⟨between, rest', hrest, _, hhead⟩ := eventTriggerFrom_cons h
    obtain ⟨hfresh, hunique⟩ := List.nodup_cons.1 hunique
    rcases List.mem_cons.1 harmed with rfl | harmed
    · -- The binding is the first one, and no other one of the task has the event.
      have hnone : ∀ binding ∈ rest, binding.task = task → binding.event ≠ event := by
        intro binding hbinding htask hevent
        apply hfresh
        exact List.mem_map.2 ⟨binding, hbinding, by rw [htask, hevent]⟩
      rw [eventTriggerFrom_untouched hrest hnone]
      rcases hhead with ⟨hskip, _⟩ | ⟨_, result, channel, hdispatch, rfl⟩
      · exact absurd ⟨rfl, rfl⟩ hskip
      · rw [Function.update_self]
        exact eventDispatch_of_room hdispatch hroom
    · have hsame : between task = channels task := by
        rcases hhead with ⟨_, rfl⟩ | ⟨hevent, _, channel, _, rfl⟩
        · rfl
        · have htask : task ≠ head.task := by
            intro htask
            apply hfresh
            exact List.mem_map.2 ⟨_, harmed, by simp [htask, hevent]⟩
          rw [Function.update_of_ne htask]
      rw [ih hrest hunique harmed (by rw [hsame]; exact hroom), hsame]

theorem eventUnbindAllFrom_sublist (task : ℕ) (bindings : List EventBinding) :
    (eventUnbindAllFrom task bindings).Sublist bindings := by
  induction bindings using eventUnbindAllFrom.induct task with
  | case1 => exact List.Sublist.refl _
  | case2 binding htask =>
    rw [eventUnbindAllFrom, if_pos htask]
    exact List.nil_sublist _
  | case3 binding htask next rest ih =>
    rw [eventUnbindAllFrom, if_pos htask]
    exact List.Sublist.cons _ (List.Sublist.cons_cons _ ih)
  | case4 binding rest htask ih =>
    unfold eventUnbindAllFrom
    rw [if_neg htask]
    exact List.Sublist.cons_cons _ ih

/-- What a call can do to the bindings. -/
inductive Rebinds (s : Events α) : EventCall α → List EventBinding → Prop where
  | bind {task : ℕ} {event : BrEvent}
      (hfresh : ∀ binding ∈ s.bindings, binding.task = task → binding.event ≠ event) :
      Rebinds s (.bind task event) (s.bindings ++ [⟨task, event, true⟩])
  | sublist {call : EventCall α} {bindings : List EventBinding}
      (hsub : bindings.Sublist s.bindings) : Rebinds s call bindings
  | trigger {event : BrEvent} : Rebinds s (.trigger event) (s.bindings.map (fired event))
  | ack {task : ℕ} {event : BrEvent} {index : ℕ} :
      Rebinds s (.ack task event)
        (s.bindings.modify index fun binding ↦ { binding with ack := true })

theorem eventNext_rebinds {typeOf : α → BrType} {s t : Events α} {call : EventCall α}
    (h : eventNext typeOf s call = .ok t) : Rebinds s call t.bindings := by
  cases call with
  | bind task event =>
    simp only [eventNext, eventBind, bind_eq_ok, pure_eq_ok, Prod.exists] at h
    obtain ⟨result, t', ⟨found, hfound, h⟩, rfl⟩ := h
    cases found with
    | none =>
      cases h
      exact .bind (eventBindingGet_none hfound)
    | some index =>
      cases h
      exact .sublist (List.Sublist.refl _)
  | unbind task event =>
    simp only [eventNext, eventUnbind, bind_eq_ok, pure_eq_ok, Prod.exists] at h
    obtain ⟨result, t', ⟨found, hfound, h⟩, rfl⟩ := h
    cases found with
    | none =>
      cases h
      exact .sublist (List.Sublist.refl _)
    | some index =>
      cases h
      exact .sublist (List.eraseIdx_sublist _ _)
  | unbindAll task =>
    cases h
    exact .sublist (eventUnbindAllFrom_sublist task s.bindings)
  | trigger event =>
    simp only [eventNext, eventTrigger, bind_eq_ok, pure_eq_ok, Prod.exists] at h
    obtain ⟨bindings, channels, htrigger, rfl⟩ := h
    have hbindings := eventTriggerFrom_bindings htrigger
    simp only [hbindings]
    exact .trigger
  | ack task event =>
    simp only [eventNext, eventAck, bind_eq_ok, pure_eq_ok, Prod.exists] at h
    obtain ⟨result, t', ⟨found, hfound, h⟩, rfl⟩ := h
    cases found with
    | none =>
      cases h
      exact .sublist (List.Sublist.refl _)
    | some index =>
      cases h
      exact .ack
  | send task domain msg =>
    simp only [eventNext, bind_eq_ok, pure_eq_ok, Prod.exists] at h
    obtain ⟨result, channel, _, rfl⟩ := h
    exact .sublist (List.Sublist.refl _)
  | recv task domain =>
    simp only [eventNext, bind_eq_ok, pure_eq_ok, Prod.exists] at h
    obtain ⟨result, msg, domain', channel, _, rfl⟩ := h
    exact .sublist (List.Sublist.refl _)

theorem Rebinds.unique {s : Events α} {call : EventCall α} {bindings : List EventBinding}
    (h : Rebinds s call bindings) (hs : UniqueBindings s.bindings) : UniqueBindings bindings := by
  cases h with
  | bind hfresh =>
    rw [UniqueBindings, List.map_append, List.nodup_append]
    refine ⟨hs, List.nodup_singleton _, ?_⟩
    intro old hold new hnew heq
    obtain ⟨binding, hbinding, rfl⟩ := List.mem_map.1 hold
    rw [List.map_singleton, List.mem_singleton] at hnew
    rw [hnew, Prod.mk.injEq] at heq
    exact hfresh binding hbinding heq.1 heq.2
  | sublist hsub => exact hs.sublist hsub
  | trigger =>
    have hkeys : ∀ event : BrEvent, ∀ binding : EventBinding,
        ((fired event binding).task, (fired event binding).event) =
          (binding.task, binding.event) := by
      intro event binding
      unfold fired
      split <;> rfl
    simp only [UniqueBindings, List.map_map, Function.comp_def, hkeys]
    exact hs
  | @ack task event index =>
    have hkeys : (s.bindings.modify index fun binding ↦ { binding with ack := true }).map
        (fun binding ↦ (binding.task, binding.event)) =
          s.bindings.map fun binding ↦ (binding.task, binding.event) := by
      apply List.ext_getElem?
      intro i
      rw [List.getElem?_map, List.getElem?_modify, List.getElem?_map, Option.map_eq_map,
        Option.map_map]
      congr 1
      funext binding
      simp only [Function.comp_apply]
      split <;> rfl
    rw [UniqueBindings, hkeys]
    exact hs

/-- A binding that waits was waiting before the call, or was acknowledged and the call is the
event. -/
theorem Rebinds.unacked {s : Events α} {call : EventCall α} {bindings : List EventBinding}
    (h : Rebinds s call bindings) {task : ℕ} {event : BrEvent}
    (hunacked : ⟨task, event, false⟩ ∈ bindings) :
    Unacked s task event ∨ (call = .trigger event ∧ Armed s task event) := by
  cases h with
  | bind =>
    rcases List.mem_append.1 hunacked with hold | hnew
    · exact Or.inl hold
    · rw [List.mem_singleton] at hnew
      cases hnew
  | sublist hsub => exact Or.inl (hsub.subset hunacked)
  | @trigger event' =>
    obtain ⟨binding, hbinding, hfired⟩ := List.mem_map.1 hunacked
    obtain ⟨task', event'', ack⟩ := binding
    unfold fired at hfired
    split at hfired
    next hevent =>
      cases hfired
      cases ack with
      | false => exact Or.inl hbinding
      | true => exact Or.inr ⟨by rw [← hevent], hbinding⟩
    next =>
      rw [hfired] at hbinding
      exact Or.inl hbinding
  | @ack task' event' index =>
    obtain ⟨i, hi⟩ := List.mem_iff_getElem?.1 hunacked
    rw [List.getElem?_modify] at hi
    obtain ⟨binding, hbinding, hnew⟩ := Option.map_eq_some_iff.1 hi
    split at hnew
    · cases hnew
    · rw [hnew] at hbinding
      exact Or.inl (List.mem_of_getElem? hbinding)

theorem UniqueBindings.not_armed {s : Events α} (hs : UniqueBindings s.bindings) {task : ℕ}
    {event : BrEvent} (hunacked : Unacked s task event) : ¬ Armed s task event := by
  intro harmed
  have heq := List.inj_on_of_nodup_map hs hunacked harmed rfl
  cases heq

/-! ## Whole runs -/

/-- The binding waits to be acknowledged since a call of `event_trigger` that put the message of
the event into the channel of the task. -/
def DeliveredSince (typeOf : α → BrType) (calls : List (EventCall α)) (s : Events α) (task : ℕ)
    (event : BrEvent) : Prop :=
  ∃ before after u v, calls = before ++ .trigger event :: after ∧
    Run (Succeeds (eventNext typeOf)) eventInitialize before u ∧ Armed u task event ∧
    eventNext typeOf u (.trigger event) = .ok v ∧
    contents (v.channels task).msgs = contents (u.channels task).msgs ++ [eventParcel event] ∧
    Unacked v task event ∧
    Run (fun s call t ↦ eventNext typeOf s call = .ok t ∧ Unacked t task event ∧
      ¬ Armed t task event) v after s

/-- No task that is to receive the event has a full channel. -/
def HasRoom (s : Events α) : EventCall α → Prop
  | .trigger event => ∀ task, Armed s task event → ringFull (s.channels task).msgs = false
  | _ => True

theorem DeliveredSince.extend {typeOf : α → BrType} {calls : List (EventCall α)} {s t : Events α}
    {task : ℕ} {event : BrEvent} (h : DeliveredSince typeOf calls s task event)
    {call : EventCall α} (hstep : eventNext typeOf s call = .ok t)
    (hunacked : Unacked t task event) (hnot : ¬ Armed t task event) :
    DeliveredSince typeOf (calls ++ [call]) t task event := by
  obtain ⟨before, after, u, v, rfl, hbefore, harmed, htrigger, hcontents, hv, hafter⟩ := h
  refine ⟨before, after ++ [call], u, v, ?_, hbefore, harmed, htrigger, hcontents, hv, ?_⟩
  · rw [List.append_assoc, List.cons_append]
  · exact hafter.append (.cons ⟨hstep, hunacked, hnot⟩ (.nil t))

/-- A trigger that finds room delivers to each of its acknowledged bindings. -/
theorem eventTrigger_delivered {typeOf : α → BrType} {s t : Events α} {task : ℕ}
    {event : BrEvent} (h : eventNext typeOf s (.trigger event) = .ok t)
    (hs : UniqueBindings s.bindings) (harmed : Armed s task event)
    (hroom : HasRoom s (.trigger event)) :
    contents (t.channels task).msgs = contents (s.channels task).msgs ++ [eventParcel event] := by
  simp only [eventNext, eventTrigger, bind_eq_ok, pure_eq_ok, Prod.exists] at h
  obtain ⟨bindings, channels, htrigger, rfl⟩ := h
  exact eventTriggerFrom_delivered htrigger hs harmed (hroom task harmed)

/-- In every run in which no event meets a full channel, a binding that waits to be acknowledged
has been sent the event since it was last acknowledged. -/
theorem event_deliveredSince {typeOf : α → BrType} {calls : List (EventCall α)} {s : Events α}
    (hrun : Run (Guarded (Succeeds (eventNext typeOf)) HasRoom) eventInitialize calls s)
    {task : ℕ} {event : BrEvent} (hunacked : Unacked s task event) :
    DeliveredSince typeOf calls s task event := by
  have hhistory : Run (Succeeds (eventNext typeOf)) eventInitialize calls s ∧
      UniqueBindings s.bindings ∧
      ∀ task event, Unacked s task event → DeliveredSince typeOf calls s task event := by
    refine hrun.history (motive := fun calls s ↦
      Run (Succeeds (eventNext typeOf)) eventInitialize calls s ∧ UniqueBindings s.bindings ∧
        ∀ task event, Unacked s task event → DeliveredSince typeOf calls s task event) ?_ ?_
    · refine ⟨.nil _, List.nodup_nil, ?_⟩
      intro task event hunacked
      cases hunacked
    · intro calls s call t ⟨hbefore, hs, hdelivered⟩ ⟨hroom, hstep⟩
      have hrebinds := eventNext_rebinds hstep
      have ht := hrebinds.unique hs
      refine ⟨hbefore.append (.cons hstep (.nil t)), ht, ?_⟩
      intro task event hunacked
      rcases hrebinds.unacked hunacked with hold | ⟨rfl, harmed⟩
      · exact (hdelivered task event hold).extend hstep hunacked (ht.not_armed hunacked)
      · -- The call itself is the trigger, and the channel had room for its message.
        exact ⟨calls, [], s, t, rfl, hbefore, harmed, hstep,
          eventTrigger_delivered hstep hs harmed hroom, hunacked, .nil t⟩
  exact hhistory.2.2 task event hunacked

/-- The keyboard interrupt. -/
def keyboard : BrEvent := ⟨.irq, 1⟩

/-- A task binds the keyboard and a key is pressed. -/
theorem event_deliveredSince_keyboard :
    ∃ s : Events BrType, Run (Guarded (Succeeds (eventNext id)) HasRoom) eventInitialize
        [.bind 0 keyboard, .trigger keyboard] s ∧
      Unacked s 0 keyboard ∧
      DeliveredSince id [.bind 0 keyboard, .trigger keyboard] s 0 keyboard := by
  obtain ⟨s, hs⟩ : ∃ s : Events BrType,
      eventNext id ⟨[⟨0, keyboard, true⟩], fun _ ↦ channelCreate⟩ (.trigger keyboard) = .ok s :=
    ⟨_, rfl⟩
  have hrun : Run (Guarded (Succeeds (eventNext id)) HasRoom) eventInitialize
      [.bind 0 keyboard, .trigger keyboard] s :=
    .cons ⟨trivial, rfl⟩ (.cons ⟨fun _ _ ↦ rfl, hs⟩ (.nil s))
  have hunacked : Unacked s 0 keyboard := by
    cases hs
    exact List.mem_singleton_self _
  exact ⟨s, hrun, hunacked, event_deliveredSince hrun hunacked⟩

/-- The calls that fill the channel of a task that has bound the keyboard. -/
def fillChannel : List (EventCall BrType) :=
  .bind 0 keyboard :: List.replicate ipcChannelSize (.send 0 none default)

/-- Messages without handles are queued as long as there is room for them. -/
theorem foldlM_send (typeOf : α → BrType) (task : ℕ) (msg : BrMsg) (count : ℕ) (s : Events α)
    (hroom : (s.channels task).msgs.used + count ≤ (s.channels task).msgs.capacity) :
    ∃ t : Events α,
      (List.replicate count (.send task none msg)).foldlM (eventNext typeOf) s = .ok t ∧
      t.bindings = s.bindings ∧
      (t.channels task).msgs.capacity = (s.channels task).msgs.capacity ∧
      contents (t.channels task).msgs = contents (s.channels task).msgs ++
        List.replicate count { (default : Parcel α) with msg := msg } := by
  induction count generalizing s with
  | zero => exact ⟨s, rfl, rfl, rfl, (List.append_nil _).symm⟩
  | succ count ih =>
    have hlt : (s.channels task).msgs.used < (s.channels task).msgs.capacity := by omega
    let pushed := ringPushed (s.channels task).msgs { (default : Parcel α) with msg := msg } hlt
    let next : Events α := { s with channels := Function.update s.channels task ⟨pushed⟩ }
    have hstep : eventNext typeOf s (.send task none msg) = .ok next := by
      have hnotFull : ringFull (s.channels task).msgs = false := by
        rw [ringFull, beq_eq_false_iff_ne]
        exact Nat.ne_of_lt hlt
      simp only [eventNext, channelSendUnlock, hnotFull, parcelPack, ringPush,
        dif_neg (Nat.ne_of_lt hlt)]
      rfl
    have hnext : (next.channels task).msgs = pushed := by
      rw [show next.channels task = ⟨pushed⟩ from Function.update_self ..]
    obtain ⟨t, hfold, hbindings, hcapacity, hcontents⟩ := ih next (by
      rw [hnext]
      show (s.channels task).msgs.used + 1 + count ≤ (s.channels task).msgs.capacity
      omega)
    rw [hnext] at hcapacity hcontents
    refine ⟨t, ?_, hbindings, hcapacity, ?_⟩
    · rw [List.replicate_succ, List.foldlM_cons, hstep]
      exact hfold
    · rw [hcontents, contents_pushed, List.append_assoc, List.replicate_succ]
      rfl

theorem trigger_notMem_fillChannel : .trigger keyboard ∉ fillChannel := by
  intro hmem
  rcases List.mem_cons.1 hmem with h | h
  · cases h
  · cases List.eq_of_mem_replicate h

/-- Nothing follows the only occurrence of a call that comes last. -/
theorem eq_nil_of_append_cons {init before after : List (EventCall α)} {call : EventCall α}
    (h : init ++ [call] = before ++ call :: after) (hinit : call ∉ init) : after = [] := by
  rcases List.eq_nil_or_concat after with rfl | ⟨rest, last, rfl⟩
  · rfl
  · have heq := congrArg List.dropLast h
    rw [List.dropLast_concat, List.concat_eq_append, ← List.cons_append, ← List.append_assoc,
      List.dropLast_concat] at heq
    exact absurd (heq ▸ List.mem_append_right _ List.mem_cons_self) hinit

/-- Where a full channel swallows the event, the binding waits for a message that never came. -/
theorem event_deliveredSince_fails :
    ∃ s : Events BrType,
      Run (Succeeds (eventNext id)) eventInitialize (fillChannel ++ [.trigger keyboard]) s ∧
      Unacked s 0 keyboard ∧ eventParcel keyboard ∉ contents (s.channels 0).msgs ∧
      ¬ DeliveredSince id (fillChannel ++ [.trigger keyboard]) s 0 keyboard := by
  let bound : Events BrType := ⟨[⟨0, keyboard, true⟩], fun _ ↦ channelCreate⟩
  have hbind : eventNext id (eventInitialize : Events BrType) (.bind 0 keyboard) = .ok bound := rfl
  obtain ⟨full, hsends, hbindings, hcapacity, hcontents⟩ :=
    foldlM_send id 0 default ipcChannelSize bound (Nat.le_of_eq (Nat.zero_add _))
  have hused : (full.channels 0).msgs.used = (full.channels 0).msgs.capacity := by
    rw [← length_contents, hcontents, hcapacity, List.length_append, List.length_replicate]
    exact Nat.zero_add _
  have hfull : ringFull (full.channels 0).msgs = true := by
    rw [ringFull, hused, beq_self_eq_true]
  have htrigger : eventNext id full (.trigger keyboard) = .ok ⟨[⟨0, keyboard, false⟩],
      Function.update full.channels 0 (full.channels 0)⟩ := by
    have hsame : brEventEq keyboard keyboard = .ok true := rfl
    simp only [eventNext, eventTrigger, hbindings, bound, eventTriggerFrom, eventTriggerBinding,
      hsame, ok_bind, Bool.and_self, if_true, eventTriggerArmed, eventDispatch, channelSendUnlock,
      hfull]
    rfl
  rw [Function.update_eq_self] at htrigger
  have hempty : eventParcel keyboard ∉ contents (full.channels 0).msgs := by
    rw [hcontents]
    intro hmem
    have hparcel := List.eq_of_mem_replicate hmem
    exact absurd (congrArg (·.msg.fromAddr) hparcel) (by decide)
  have hfold : (fillChannel ++ [EventCall.trigger keyboard]).foldlM (eventNext id)
      eventInitialize = .ok ⟨[⟨0, keyboard, false⟩], full.channels⟩ := by
    rw [fillChannel, List.cons_append, List.foldlM_cons, hbind, ok_bind, List.foldlM_append,
      hsends, ok_bind, List.foldlM_cons, htrigger]
    rfl
  refine ⟨_, Run.ofFold hfold, List.mem_singleton_self _, hempty, ?_⟩
  rintro ⟨before, after, u, v, hcalls, _, _, _, hcontents, _, hafter⟩
  rw [eq_nil_of_append_cons hcalls trigger_notMem_fillChannel] at hafter
  cases hafter
  apply hempty
  rw [hcontents]
  exact List.mem_append_right _ (List.mem_singleton_self _)

/-- The loop of `event_unbind_all` runs over the indices, and goes on to the next one also when
the binding behind it has moved into the gap. -/
theorem eventUnbindAllFrom_eq_loop (task : ℕ) (bindings : List EventBinding) :
    eventUnbindAllFrom task bindings =
      (removeLoop (fun binding ↦ decide (binding.task = task)) false 0 [] bindings).2 := by
  rw [removeLoop_steps, List.take_zero, List.drop_zero, List.nil_append, List.nil_append]
  dsimp only
  fun_induction eventUnbindAllFrom task bindings with
  | case1 => rfl
  | case2 binding htask => simp [keptStepping, htask]
  | case3 binding htask next rest ih => simp [keptStepping, htask, ih]
  | case4 binding rest htask ih => rw [keptStepping_cons_of_neg (by simpa using htask), ih]

/-- `event_unbind_all` leaves exactly the bindings of the other tasks when no two neighbours in the
list belong to the task, and only then. -/
theorem eventUnbindAll_exact_iff (self : Events α) (task : ℕ) :
    (eventUnbindAll self task).bindings =
        self.bindings.filter (fun binding ↦ decide (binding.task ≠ task)) ↔
      self.bindings.IsChain fun binding next ↦ ¬ (binding.task = task ∧ next.task = task) := by
  have hloop := eventUnbindAllFrom_eq_loop task self.bindings
  rw [removeLoop_steps, List.take_zero, List.drop_zero, List.nil_append, List.nil_append] at hloop
  have hexact : keptStepping (fun binding ↦ decide (binding.task = task)) self.bindings =
      self.bindings.filter (fun binding ↦ !decide (binding.task = task)) ↔ _ :=
    keptStepping_eq_filter_iff
  rw [eventUnbindAll, hloop]
  simpa using hexact

/-- A task that binds two interrupts keeps the second binding when it dies, and the next interrupt
goes to the channel that `task_destroy` has freed. -/
theorem eventUnbindAll_exact_fails :
    ∃ s : Events BrType, Run (Succeeds (eventNext id)) eventInitialize
        [.bind 0 keyboard, .bind 0 ⟨.irq, 2⟩] s ∧
      (eventUnbindAll s 0).bindings = [⟨0, ⟨.irq, 2⟩, true⟩] ∧
      (eventUnbindAll s 0).bindings ≠
        s.bindings.filter fun binding ↦ decide (binding.task ≠ 0) := by
  obtain ⟨s, hfold, hleft, hwrong⟩ : ∃ s : Events BrType,
      [EventCall.bind 0 keyboard, .bind 0 ⟨.irq, 2⟩].foldlM (eventNext id) eventInitialize = .ok s ∧
      (eventUnbindAll s 0).bindings = [⟨0, ⟨.irq, 2⟩, true⟩] ∧
      (eventUnbindAll s 0).bindings ≠ s.bindings.filter fun binding ↦ decide (binding.task ≠ 0) :=
    ⟨⟨[⟨0, keyboard, true⟩, ⟨0, ⟨.irq, 2⟩, true⟩], fun _ ↦ channelCreate⟩, rfl, rfl, by decide⟩
  exact ⟨s, Run.ofFold hfold, hleft, hwrong⟩

end Brutal.Kernel
