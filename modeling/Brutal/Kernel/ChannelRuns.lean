import Brutal.Kernel.Channel

/-!
# Delivery over a channel

The calls of `channel_send` and `channel_recv` on one channel, with the blocking that
`kernel/sched.c` adds to them.  A call that cannot go on leaves its blocker with its task; every
later pass of `sched_updated_blocked`, on whatever processor, tries the operation again and may end
the wait with another result.

A state of the system is the channel, the calls made so far and, for the statement of the results
only, the parcels that entered and left the channel with the call that moved each of them.
-/

namespace Brutal.Kernel

open Base Ds Lib

variable {α : Type*}

/-- What a call on the channel does. -/
inductive ChannelCall where
  | send
  | recv
deriving DecidableEq, Repr

/-- Where the execution of a call stands. -/
inductive CallPhase where
  /-- The operation was not tried yet. -/
  | entered
  /-- `blocker.function` returned false in `sched_block`. -/
  | polled
  /-- `task->blocked` is set. -/
  | blocked
  /-- `sched_updated_blocked` cleared `task->blocked` and set `blocker.result`. -/
  | woken (result : BrResult)
  | returned (result : BrResult)
deriving DecidableEq, Repr

/-- A call with its `ChannelOp` and its `Blocker`. -/
structure Call where
  task : ℕ
  kind : ChannelCall
  block : Bool
  deadline : UInt64
  msg : BrMsg
  result : BrResult
  phase : CallPhase
deriving DecidableEq, Repr

/-- `channel_send_unlock` or `channel_recv_unlock` on behalf of a call. -/
def callUnlock (typeOf : α → BrType) (channel : Channel α) (domain : Option (Domain α))
    (call : Call) : Except Fault (Call × Channel α) :=
  match call.kind with
  | .send => do
    let (result, channel) ← channelSendUnlock typeOf channel domain call.msg
    pure ({ call with result := result }, channel)
  | .recv => do
    let (result, msg, _, channel) ← channelRecvUnlock channel domain call.msg
    pure ({ call with result := result, msg := msg }, channel)

/-- The result on which the operation is tried again. -/
def waitResult : ChannelCall → BrResult
  | .send => .channelFull
  | .recv => .channelEmpty

/-- `channel_wait_send` and `channel_wait_recv`.  Without a domain to work in, another processor
holds the lock of the channel. -/
def channelWait (typeOf : α → BrType) (channel : Channel α) (call : Call) :
    Option (Option (Domain α)) → Except Fault (Bool × Call × Channel α)
  | none => .ok (false, call, channel)
  | some domain => do
    let (call, channel) ← callUnlock typeOf channel domain call
    pure (call.result != waitResult call.kind, call, channel)

/-- The part of `sched_updated_blocked` that decides about one blocked task. -/
def updateBlocked (tick : UInt64) (stopped reached : Bool) (call : Call) : Call :=
  if reached then { call with phase := .woken .success }
  else if call.deadline != -1 && call.deadline < tick then { call with phase := .woken .timeout }
  else if stopped then { call with phase := .woken .interrupted }
  else call

/-- What `channel_send_blocking` and `channel_recv_blocking` make of the result of
`sched_block`. -/
def blockingResult (result : BrResult) (call : Call) : BrResult :=
  if result ≠ .success then result else call.result

/-- A channel in use.  No step reads the two histories. -/
structure Ipc (α : Type*) where
  channel : Channel α
  tick : UInt64
  stopped : ℕ → Bool
  calls : List Call
  sent : List (ℕ × Parcel α)
  received : List (ℕ × Parcel α)

def ipcCreate : Ipc α where
  channel := channelCreate
  tick := 0
  stopped := fun _ ↦ false
  calls := []
  sent := []
  received := []

/-- The parcels that stand behind those of before. -/
def enqueued (before after : Channel α) : List (Parcel α) :=
  (contents after.msgs).drop (contents before.msgs).length

/-- The parcels in front that are no longer there. -/
def dequeued (before after : Channel α) : List (Parcel α) :=
  (contents before.msgs).take ((contents before.msgs).length - (contents after.msgs).length)

/-- The call with this number went on to be `call`, and the channel to be `channel`. -/
def Ipc.moved (s : Ipc α) (i : ℕ) (call : Call) (channel : Channel α) : Ipc α :=
  { s with
    channel := channel
    calls := s.calls.set i call
    sent := s.sent ++ (enqueued s.channel channel).map fun parcel ↦ (i, parcel)
    received := s.received ++ (dequeued s.channel channel).map fun parcel ↦ (i, parcel) }

/-- What happens next.  Where an operation is tried, the domain of its task at that moment. -/
inductive IpcEvent (α : Type*) where
  | enter (task : ℕ) (kind : ChannelCall) (block : Bool) (deadline : UInt64) (msg : BrMsg)
  | nonBlocking (i : ℕ) (domain : Option (Domain α))
  | poll (i : ℕ) (domain : Option (Option (Domain α)))
  | block (i : ℕ)
  | pass (i : ℕ) (domain : Option (Option (Domain α)))
  | resume (i : ℕ)
  | stop (task : ℕ)
  | tick

/-- One step of a task or of the scheduler. -/
inductive IpcStep (typeOf : α → BrType) : Ipc α → IpcEvent α → Ipc α → Prop where
  /-- A task is in at most one call. -/
  | enter {s : Ipc α} {task : ℕ} {kind : ChannelCall} {block : Bool} {deadline : UInt64}
      {msg : BrMsg}
      (hfree : ∀ call ∈ s.calls, call.task = task → ∃ result, call.phase = .returned result) :
      IpcStep typeOf s (.enter task kind block deadline msg)
        { s with
          calls := s.calls ++ [⟨task, kind, block, deadline, msg, .success, .entered⟩] }
  /-- `channel_send_non_blocking` and `channel_recv_non_blocking` -/
  | nonBlocking {s : Ipc α} {i : ℕ} {call call' : Call} {channel : Channel α}
      {domain : Option (Domain α)} (hcall : s.calls[i]? = some call)
      (hphase : call.phase = .entered) (hblock : call.block = false)
      (hunlock : callUnlock typeOf s.channel domain call = .ok (call', channel)) :
      IpcStep typeOf s (.nonBlocking i domain)
        (s.moved i { call' with phase := .returned call'.result } channel)
  /-- The first call of `blocker.function`, in `sched_block` -/
  | poll {s : Ipc α} {i : ℕ} {call call' : Call} {channel : Channel α} {reached : Bool}
      {domain : Option (Option (Domain α))} (hcall : s.calls[i]? = some call)
      (hphase : call.phase = .entered) (hblock : call.block = true)
      (hwait : channelWait typeOf s.channel call domain = .ok (reached, call', channel)) :
      IpcStep typeOf s (.poll i domain)
        (s.moved i
          { call' with
            phase := if reached then .returned (blockingResult .success call') else .polled }
          channel)
  | block {s : Ipc α} {i : ℕ} {call : Call} (hcall : s.calls[i]? = some call)
      (hphase : call.phase = .polled) :
      IpcStep typeOf s (.block i) (s.moved i { call with phase := .blocked } s.channel)
  /-- A pass of `sched_updated_blocked` over the task of the call -/
  | pass {s : Ipc α} {i : ℕ} {call call' : Call} {channel : Channel α} {reached : Bool}
      {domain : Option (Option (Domain α))} (hcall : s.calls[i]? = some call)
      (hphase : call.phase = .blocked)
      (hwait : channelWait typeOf s.channel call domain = .ok (reached, call', channel)) :
      IpcStep typeOf s (.pass i domain)
        (s.moved i (updateBlocked s.tick (s.stopped call.task) reached call') channel)
  /-- The task runs again and returns from `sched_block`. -/
  | resume {s : Ipc α} {i : ℕ} {call : Call} {result : BrResult}
      (hcall : s.calls[i]? = some call) (hphase : call.phase = .woken result) :
      IpcStep typeOf s (.resume i)
        (s.moved i { call with phase := .returned (blockingResult result call) } s.channel)
  | stop {s : Ipc α} {task : ℕ} :
      IpcStep typeOf s (.stop task) { s with stopped := Function.update s.stopped task true }
  | tick {s : Ipc α} : IpcStep typeOf s .tick { s with tick := s.tick + 1 }

/-- The call returned `BR_SUCCESS`, or was woken and is about to. -/
def Call.Committed (call : Call) : Prop :=
  call.phase = .returned .success ∨
    (call.phase = .woken .success ∧ call.result = .success)

/-- The parcels that a call moved. -/
def entries (history : List (ℕ × Parcel α)) (i : ℕ) : List (Parcel α) :=
  (history.filter fun entry ↦ entry.1 = i).map Prod.snd

/-- A call has moved exactly one parcel, of its own message and in its own direction, when it is
committed, and none otherwise. -/
structure Accounted (sent received : List (Parcel α)) (call : Call) : Prop where
  send : call.kind = .send → received = [] ∧
    (call.Committed → ∃ parcel, sent = [parcel] ∧ parcel.msg = call.msg) ∧
    (¬ call.Committed → sent = [])
  recv : call.kind = .recv → sent = [] ∧
    (call.Committed → ∃ parcel, received = [parcel] ∧ SameMessage parcel.msg call.msg) ∧
    (¬ call.Committed → received = [])

/-- What holds of the channel and its history in every reachable state. -/
structure Delivers (s : Ipc α) : Prop where
  fifo : s.sent.map Prod.snd = s.received.map Prod.snd ++ contents s.channel.msgs
  flagged : ∀ parcel ∈ contents s.channel.msgs, parcel.Flagged
  accounted : ∀ i call, s.calls[i]? = some call →
    Accounted (entries s.sent i) (entries s.received i) call
  later : ∀ i, s.calls.length ≤ i → entries s.sent i = [] ∧ entries s.received i = []

/-- The operation of a call moved one parcel. -/
inductive Transfer (before after : Channel α) (call : Call) : Prop where
  | send (parcel : Parcel α) (hkind : call.kind = .send) (hmsg : parcel.msg = call.msg)
      (hflagged : parcel.Flagged)
      (happend : contents after.msgs = contents before.msgs ++ [parcel])
  | recv (parcel : Parcel α) (hkind : call.kind = .recv) (hmsg : SameMessage parcel.msg call.msg)
      (hcons : contents before.msgs = parcel :: contents after.msgs)

/-- An operation that returns `BR_SUCCESS` moved one parcel, and any other left the channel. -/
theorem callUnlock_cases {typeOf : α → BrType} {channel channel' : Channel α}
    {domain : Option (Domain α)} {call call' : Call}
    (hflagged : ∀ parcel ∈ contents channel.msgs, parcel.Flagged)
    (h : callUnlock typeOf channel domain call = .ok (call', channel')) :
    call'.kind = call.kind ∧ call'.phase = call.phase ∧
      ((call'.result ≠ .success ∧ channel' = channel ∧ call'.msg = call.msg) ∨
        (call'.result = .success ∧ Transfer channel channel' call')) := by
  unfold callUnlock at h
  split at h
  next hkind =>
    simp only [bind_eq_ok, pure_eq_ok, Prod.exists, Prod.mk.injEq] at h
    obtain ⟨result, channel'', hsend, rfl, rfl⟩ := h
    refine ⟨rfl, rfl, ?_⟩
    rcases channelSendUnlock_cases hsend with
      ⟨rfl, _, rfl⟩ | ⟨rfl, rfl⟩ | ⟨rfl, _, parcel, hpack, _, happend⟩
    · exact Or.inl ⟨by rintro ⟨⟩, rfl, rfl⟩
    · exact Or.inl ⟨by rintro ⟨⟩, rfl, rfl⟩
    · obtain ⟨_, hmsg, hparcel⟩ := parcelPack_spec hpack
      exact Or.inr ⟨rfl, .send parcel hkind hmsg hparcel happend⟩
  next hkind =>
    simp only [bind_eq_ok, pure_eq_ok, Prod.exists, Prod.mk.injEq] at h
    obtain ⟨result, msg, domain', channel'', hrecv, rfl, rfl⟩ := h
    refine ⟨rfl, rfl, ?_⟩
    rcases channelRecvUnlock_cases hrecv with ⟨rfl, rfl, _, rfl⟩ | ⟨parcel, hunpack, _, hcons⟩
    · exact Or.inl ⟨by rintro ⟨⟩, rfl, rfl⟩
    · have hparcel := hflagged parcel (hcons ▸ List.mem_cons_self)
      obtain ⟨rfl, hsame⟩ := parcelUnpack_spec hparcel hunpack
      exact Or.inr ⟨rfl, .recv parcel hkind hsame hcons⟩

theorem waitResult_ne_success (kind : ChannelCall) : BrResult.success ≠ waitResult kind := by
  cases kind <;> decide

/-- A blocker that is reached has moved a parcel or failed for good, and one that is not reached
has moved nothing. -/
theorem channelWait_cases {typeOf : α → BrType} {channel channel' : Channel α}
    {domain : Option (Option (Domain α))} {call call' : Call} {reached : Bool}
    (hflagged : ∀ parcel ∈ contents channel.msgs, parcel.Flagged)
    (h : channelWait typeOf channel call domain = .ok (reached, call', channel')) :
    call'.kind = call.kind ∧ call'.phase = call.phase ∧
      ((¬ (reached = true ∧ call'.result = .success) ∧ channel' = channel ∧
          call'.msg = call.msg) ∨
        (reached = true ∧ call'.result = .success ∧ Transfer channel channel' call')) := by
  cases domain with
  | none =>
    cases h
    exact ⟨rfl, rfl, Or.inl ⟨fun hreached ↦ Bool.false_ne_true hreached.1, rfl, rfl⟩⟩
  | some domain =>
    simp only [channelWait, bind_eq_ok, pure_eq_ok, Prod.exists, Prod.mk.injEq] at h
    obtain ⟨call'', channel'', hunlock, rfl, rfl, rfl⟩ := h
    obtain ⟨hkind, hphase, hfailed | hmoved⟩ := callUnlock_cases hflagged hunlock
    · exact ⟨hkind, hphase, Or.inl ⟨fun hreached ↦ hfailed.1 hreached.2, hfailed.2⟩⟩
    · refine ⟨hkind, hphase, Or.inr ⟨?_, hmoved⟩⟩
      rw [hmoved.1, bne_iff_ne]
      exact waitResult_ne_success _

/-! ## One step -/

theorem entries_append (first second : List (ℕ × Parcel α)) (i : ℕ) :
    entries (first ++ second) i = entries first i ++ entries second i := by
  rw [entries, List.filter_append, List.map_append]
  rfl

theorem entries_map_self (parcels : List (Parcel α)) (i : ℕ) :
    entries (parcels.map fun parcel ↦ (i, parcel)) i = parcels := by
  simp [entries, List.filter_map, Function.comp_def]

theorem entries_map_ne (parcels : List (Parcel α)) {i j : ℕ} (hne : i ≠ j) :
    entries (parcels.map fun parcel ↦ (i, parcel)) j = [] := by
  simp [entries, List.filter_map, Function.comp_def, hne]

@[simp]
theorem enqueued_self (channel : Channel α) : enqueued channel channel = [] :=
  List.drop_length

@[simp]
theorem dequeued_self (channel : Channel α) : dequeued channel channel = [] := by
  rw [dequeued, Nat.sub_self, List.take_zero]

/-- Where one call moves, the others and the histories of the others stay. -/
theorem Delivers.moved {s : Ipc α} (hs : Delivers s) {i : ℕ} {call : Call} {channel : Channel α}
    (hi : i < s.calls.length)
    (hqueue : contents s.channel.msgs ++ enqueued s.channel channel =
      dequeued s.channel channel ++ contents channel.msgs)
    (hflagged : ∀ parcel ∈ enqueued s.channel channel, parcel.Flagged)
    (hcall : Accounted (entries s.sent i ++ enqueued s.channel channel)
      (entries s.received i ++ dequeued s.channel channel) call) :
    Delivers (s.moved i call channel) := by
  refine ⟨?_, ?_, ?_, ?_⟩
  · simp only [Ipc.moved, List.map_append, List.map_map, Function.comp_def, List.map_id']
    rw [hs.fifo, List.append_assoc, hqueue, List.append_assoc]
  · intro parcel hparcel
    have hmem : parcel ∈ contents s.channel.msgs ++ enqueued s.channel channel := by
      rw [hqueue]
      exact List.mem_append_right _ hparcel
    rcases List.mem_append.1 hmem with hold | hnew
    · exact hs.flagged parcel hold
    · exact hflagged parcel hnew
  · intro j other hother
    simp only [Ipc.moved, entries_append] at hother ⊢
    by_cases hij : i = j
    · subst hij
      rw [List.getElem?_set_self hi] at hother
      cases hother
      rw [entries_map_self, entries_map_self]
      exact hcall
    · rw [List.getElem?_set_ne hij] at hother
      rw [entries_map_ne _ hij, entries_map_ne _ hij, List.append_nil, List.append_nil]
      exact hs.accounted j other hother
  · intro j hj
    simp only [Ipc.moved, List.length_set, entries_append] at hj ⊢
    have hij : i ≠ j := by omega
    rw [entries_map_ne _ hij, entries_map_ne _ hij, List.append_nil, List.append_nil]
    exact hs.later j hj

/-- A call that goes on without the channel keeps what is recorded for it. -/
theorem Delivers.idle {s : Ipc α} (hs : Delivers s) {i : ℕ} {call call' : Call}
    (hcall : s.calls[i]? = some call) (hkind : call'.kind = call.kind)
    (hmsg : call'.msg = call.msg) (hcommitted : call'.Committed ↔ call.Committed) :
    Delivers (s.moved i call' s.channel) := by
  have haccounted := hs.accounted i call hcall
  have hi := (List.getElem?_eq_some_iff.1 hcall).1
  apply hs.moved hi
  · simp
  · simp
  · simp only [enqueued_self, dequeued_self, List.append_nil]
    constructor
    · intro hsend
      rw [hmsg, hcommitted]
      exact haccounted.send (hkind ▸ hsend)
    · intro hrecv
      rw [hmsg, hcommitted]
      exact haccounted.recv (hkind ▸ hrecv)

/-- A call that moves a parcel becomes committed. -/
theorem Delivers.transfer {s : Ipc α} (hs : Delivers s) {i : ℕ} {call call' call'' : Call}
    {channel : Channel α} (hcall : s.calls[i]? = some call) (hopen : ¬ call.Committed)
    (hkind : call'.kind = call.kind) (htransfer : Transfer s.channel channel call')
    (hkind' : call''.kind = call'.kind) (hmsg : call''.msg = call'.msg)
    (hcommitted : call''.Committed) : Delivers (s.moved i call'' channel) := by
  have haccounted := hs.accounted i call hcall
  have hi := (List.getElem?_eq_some_iff.1 hcall).1
  cases htransfer with
  | send parcel hsend hparcel hflagged happend =>
    have henqueued : enqueued s.channel channel = [parcel] := by
      rw [enqueued, happend, List.drop_left]
    have hdequeued : dequeued s.channel channel = [] := by
      rw [dequeued, happend, List.length_append, Nat.sub_eq_zero_of_le (by omega),
        List.take_zero]
    obtain ⟨hreceived, _, hsent⟩ := haccounted.send (by rw [← hkind, hsend])
    apply hs.moved hi
    · rw [henqueued, hdequeued, happend, List.nil_append]
    · intro other hother
      rw [henqueued, List.mem_singleton] at hother
      rw [hother]
      exact hflagged
    · rw [henqueued, hdequeued, hsent hopen, hreceived, List.append_nil, List.nil_append]
      constructor
      · intro _
        exact ⟨rfl, fun _ ↦ ⟨parcel, rfl, by rw [hmsg, hparcel]⟩,
          fun hnot ↦ absurd hcommitted hnot⟩
      · intro hrecv
        rw [hkind', hsend] at hrecv
        cases hrecv
  | recv parcel hrecv hparcel hcons =>
    have henqueued : enqueued s.channel channel = [] := by
      rw [enqueued, hcons, List.length_cons]
      exact List.drop_eq_nil_of_le (by omega)
    have hdequeued : dequeued s.channel channel = [parcel] := by
      rw [dequeued, hcons, List.length_cons, Nat.add_sub_cancel_left]
      rfl
    obtain ⟨hsent, _, hreceived⟩ := haccounted.recv (by rw [← hkind, hrecv])
    apply hs.moved hi
    · rw [henqueued, hdequeued, hcons, List.append_nil, List.singleton_append]
    · rw [henqueued]
      intro other hother
      cases hother
    · rw [henqueued, hdequeued, hreceived hopen, hsent, List.append_nil, List.nil_append]
      constructor
      · intro hsend
        rw [hkind', hrecv] at hsend
        cases hsend
      · intro _
        exact ⟨rfl, fun _ ↦ ⟨parcel, rfl, by rwa [hmsg]⟩, fun hnot ↦ absurd hcommitted hnot⟩

theorem not_committed_of_phase {call : Call} {phase : CallPhase} (hphase : call.phase = phase)
    (hreturned : phase ≠ .returned .success) (hwoken : phase ≠ .woken .success) :
    ¬ call.Committed := by
  rintro (h | ⟨h, _⟩)
  · exact hreturned (hphase ▸ h)
  · exact hwoken (hphase ▸ h)

/-- A try of the operation leads to a committed call exactly when it moved a parcel. -/
theorem Delivers.wait {s : Ipc α} (hs : Delivers s) {typeOf : α → BrType} {i : ℕ}
    {call call' call'' : Call} {channel : Channel α} {reached : Bool}
    {domain : Option (Option (Domain α))} (hcall : s.calls[i]? = some call)
    (hopen : ¬ call.Committed)
    (hwait : channelWait typeOf s.channel call domain = .ok (reached, call', channel))
    (hkind : call''.kind = call'.kind) (hmsg : call''.msg = call'.msg)
    (hcommitted : call''.Committed ↔ reached = true ∧ call'.result = .success) :
    Delivers (s.moved i call'' channel) := by
  obtain ⟨hkind', _, ⟨hidle, rfl, hmsg'⟩ | ⟨hreached, hresult, htransfer⟩⟩ :=
    channelWait_cases hs.flagged hwait
  · apply hs.idle hcall (hkind.trans hkind') (hmsg.trans hmsg')
    rw [hcommitted]
    exact iff_of_false hidle hopen
  · exact hs.transfer hcall hopen hkind' htransfer hkind hmsg (hcommitted.2 ⟨hreached, hresult⟩)

theorem committed_updateBlocked {tick : UInt64} {stopped reached : Bool} {call : Call}
    (hphase : call.phase = .blocked) :
    (updateBlocked tick stopped reached call).Committed ↔
      reached = true ∧ call.result = .success := by
  cases reached with
  | true => simp [updateBlocked, Call.Committed]
  | false =>
    simp only [updateBlocked, Bool.false_eq_true, false_and, iff_false, if_false]
    split
    · exact not_committed_of_phase rfl nofun nofun
    · split
      · exact not_committed_of_phase rfl nofun nofun
      · exact not_committed_of_phase hphase nofun nofun

theorem updateBlocked_op (tick : UInt64) (stopped reached : Bool) (call : Call) :
    (updateBlocked tick stopped reached call).kind = call.kind ∧
      (updateBlocked tick stopped reached call).msg = call.msg := by
  unfold updateBlocked
  split
  · exact ⟨rfl, rfl⟩
  · split
    · exact ⟨rfl, rfl⟩
    · split <;> exact ⟨rfl, rfl⟩

theorem Delivers.enter {s : Ipc α} (hs : Delivers s) {call : Call} (hopen : ¬ call.Committed) :
    Delivers { s with calls := s.calls ++ [call] } := by
  refine ⟨hs.fifo, hs.flagged, ?_, ?_⟩
  · intro i other hother
    rcases Nat.lt_trichotomy i s.calls.length with hlt | rfl | hgt
    · rw [List.getElem?_append_left hlt] at hother
      exact hs.accounted i other hother
    · rw [List.getElem?_concat_length] at hother
      cases hother
      obtain ⟨hsent, hreceived⟩ := hs.later s.calls.length (Nat.le_refl _)
      constructor
      · exact fun _ ↦ ⟨hreceived, fun hcommitted ↦ absurd hcommitted hopen, fun _ ↦ hsent⟩
      · exact fun _ ↦ ⟨hsent, fun hcommitted ↦ absurd hcommitted hopen, fun _ ↦ hreceived⟩
    · rw [List.getElem?_eq_none (by simp only [List.length_append, List.length_singleton]; omega)]
        at hother
      cases hother
  · intro i hi
    simp only [List.length_append, List.length_singleton] at hi
    exact hs.later i (by omega)

/-- Every step keeps the channel and its history in agreement. -/
theorem IpcStep.delivers {typeOf : α → BrType} {s t : Ipc α} {event : IpcEvent α}
    (hs : Delivers s) (hstep : IpcStep typeOf s event t) : Delivers t := by
  cases hstep with
  | enter => exact hs.enter (not_committed_of_phase rfl nofun nofun)
  | @nonBlocking i call call' channel domain hcall hphase hblock hunlock =>
    have hopen := not_committed_of_phase hphase nofun nofun
    obtain ⟨hkind, _, ⟨hfailed, rfl, hmsg⟩ | ⟨hresult, htransfer⟩⟩ :=
      callUnlock_cases hs.flagged hunlock
    · refine hs.idle hcall ?_ ?_ (iff_of_false ?_ hopen)
      · exact hkind
      · exact hmsg
      · exact not_committed_of_phase rfl (fun h ↦ hfailed (CallPhase.returned.inj h)) nofun
    · apply hs.transfer hcall hopen hkind htransfer
      · rfl
      · rfl
      · exact Or.inl (congrArg CallPhase.returned hresult)
  | @poll i call call' channel reached domain hcall hphase hblock hwait =>
    apply hs.wait hcall (not_committed_of_phase hphase nofun nofun) hwait
    · rfl
    · rfl
    · cases reached <;> simp [Call.Committed, blockingResult]
  | @block i call hcall hphase =>
    apply hs.idle hcall
    · rfl
    · rfl
    · exact iff_of_false (not_committed_of_phase rfl nofun nofun)
        (not_committed_of_phase hphase nofun nofun)
  | @pass i call call' channel reached domain hcall hphase hwait =>
    obtain ⟨hkind, hmsg⟩ := updateBlocked_op s.tick (s.stopped call.task) reached call'
    apply hs.wait hcall (not_committed_of_phase hphase nofun nofun) hwait hkind hmsg
    apply committed_updateBlocked
    rw [(channelWait_cases hs.flagged hwait).2.1, hphase]
  | @resume i call result hcall hphase =>
    apply hs.idle hcall
    · rfl
    · rfl
    · by_cases hresult : result = .success <;>
        simp [Call.Committed, hphase, hresult, blockingResult]
  | stop => exact ⟨hs.fifo, hs.flagged, hs.accounted, hs.later⟩
  | tick => exact ⟨hs.fifo, hs.flagged, hs.accounted, hs.later⟩

theorem delivers_create : Delivers (ipcCreate : Ipc α) := by
  refine ⟨rfl, ?_, ?_, ?_⟩
  · intro parcel hparcel
    cases hparcel
  · intro i call hcall
    cases hcall
  · intro i _
    exact ⟨rfl, rfl⟩

/-- No call is between being woken and returning. -/
def Ipc.Settled (s : Ipc α) : Prop :=
  ∀ call ∈ s.calls, ∀ result, call.phase ≠ .woken result

/-- The parcel is in the history of the call that is recorded with it. -/
theorem mem_entries {history : List (ℕ × Parcel α)} {entry : ℕ × Parcel α}
    (h : entry ∈ history) : entry.2 ∈ entries history entry.1 := by
  apply List.mem_map_of_mem
  exact List.mem_filter.2 ⟨h, by simp⟩

/-- The call of an entry of a history is committed. -/
theorem Delivers.committed {s : Ipc α} (hs : Delivers s) {entry : ℕ × Parcel α}
    (h : entry ∈ s.sent ∨ entry ∈ s.received) :
    ∃ call, s.calls[entry.1]? = some call ∧ call.Committed ∧
      (entry ∈ s.sent → call.kind = .send ∧ entry.2.msg = call.msg) ∧
      (entry ∈ s.received → call.kind = .recv ∧ SameMessage entry.2.msg call.msg) := by
  have hmem : entry.2 ∈ entries s.sent entry.1 ∨ entry.2 ∈ entries s.received entry.1 :=
    h.imp mem_entries mem_entries
  cases hcall : s.calls[entry.1]? with
  | none =>
    obtain ⟨hsent, hreceived⟩ := hs.later entry.1 (List.getElem?_eq_none_iff.1 hcall)
    rw [hsent, hreceived] at hmem
    cases hmem <;> contradiction
  | some call =>
    refine ⟨call, rfl, ?_⟩
    have haccounted := hs.accounted entry.1 call hcall
    cases hkind : call.kind with
    | send =>
      obtain ⟨hreceived, hyes, hno⟩ := haccounted.send hkind
      have hcommitted : call.Committed := by
        by_contra hopen
        rw [hreceived, hno hopen] at hmem
        cases hmem <;> contradiction
      obtain ⟨parcel, hsent, hmsg⟩ := hyes hcommitted
      refine ⟨hcommitted, fun hentry ↦ ⟨rfl, ?_⟩, fun hentry ↦ ?_⟩
      · have hparcel := mem_entries hentry
        rw [hsent, List.mem_singleton] at hparcel
        rw [hparcel, hmsg]
      · have hparcel := mem_entries hentry
        rw [hreceived] at hparcel
        cases hparcel
    | recv =>
      obtain ⟨hsent, hyes, hno⟩ := haccounted.recv hkind
      have hcommitted : call.Committed := by
        by_contra hopen
        rw [hsent, hno hopen] at hmem
        cases hmem <;> contradiction
      obtain ⟨parcel, hreceived, hmsg⟩ := hyes hcommitted
      refine ⟨hcommitted, fun hentry ↦ ?_, fun hentry ↦ ⟨rfl, ?_⟩⟩
      · have hparcel := mem_entries hentry
        rw [hsent] at hparcel
        cases hparcel
      · have hparcel := mem_entries hentry
        rw [hreceived, List.mem_singleton] at hparcel
        rw [hparcel]
        exact hmsg

theorem Call.Committed.phase_ne {call : Call} (hcommitted : call.Committed) :
    call.phase ≠ .entered ∧ call.phase ≠ .polled ∧ call.phase ≠ .blocked := by
  rcases hcommitted with h | ⟨h, _⟩ <;> rw [h] <;> exact ⟨nofun, nofun, nofun⟩

/-- A step of another call, or none at all, leaves a call where it is. -/
theorem getElem?_moved_of_ne {s : Ipc α} {i j : ℕ} {call other : Call} {channel : Channel α}
    (hne : i ≠ j) (hother : s.calls[j]? = some other) :
    (s.moved i call channel).calls[j]? = some other := by
  rw [← hother]
  exact List.getElem?_set_ne hne

/-- A committed call only returns `BR_SUCCESS`. -/
theorem IpcStep.committed {typeOf : α → BrType} {s t : Ipc α} {event : IpcEvent α}
    (hstep : IpcStep typeOf s event t) {j : ℕ}
    (hs : ∃ call, s.calls[j]? = some call ∧ call.Committed) :
    ∃ call, t.calls[j]? = some call ∧ call.Committed := by
  obtain ⟨other, hother, hcommitted⟩ := hs
  obtain ⟨hentered, hpolled, hblocked⟩ := hcommitted.phase_ne
  have hne : ∀ i call, s.calls[i]? = some call → call.phase ≠ other.phase → i ≠ j := by
    intro i call hcall hphase heq
    rw [heq, hother] at hcall
    cases hcall
    exact hphase rfl
  cases hstep with
  | enter =>
    have hj := (List.getElem?_eq_some_iff.1 hother).1
    exact ⟨other, by rw [List.getElem?_append_left hj, hother], hcommitted⟩
  | @nonBlocking i call _ _ _ hcall hphase _ _ =>
    exact ⟨other, getElem?_moved_of_ne (hne i call hcall (by rw [hphase]; exact hentered.symm))
      hother, hcommitted⟩
  | @poll i call _ _ _ _ hcall hphase _ _ =>
    exact ⟨other, getElem?_moved_of_ne (hne i call hcall (by rw [hphase]; exact hentered.symm))
      hother, hcommitted⟩
  | @block i call hcall hphase =>
    exact ⟨other, getElem?_moved_of_ne (hne i call hcall (by rw [hphase]; exact hpolled.symm))
      hother, hcommitted⟩
  | @pass i call _ _ _ _ hcall hphase _ =>
    exact ⟨other, getElem?_moved_of_ne (hne i call hcall (by rw [hphase]; exact hblocked.symm))
      hother, hcommitted⟩
  | @resume i call result hcall hphase =>
    by_cases hij : i = j
    · subst hij
      rw [hother] at hcall
      cases hcall
      refine ⟨_, List.getElem?_set_self (List.getElem?_eq_some_iff.1 hother).1, Or.inl ?_⟩
      rcases hcommitted with h | ⟨h, hresult⟩
      · rw [h] at hphase
        cases hphase
      · rw [h] at hphase
        cases hphase
        exact congrArg CallPhase.returned hresult
    · exact ⟨other, getElem?_moved_of_ne hij hother, hcommitted⟩
  | stop => exact ⟨other, hother, hcommitted⟩
  | tick => exact ⟨other, hother, hcommitted⟩

/-- Whatever else happens, a committed call stays committed. -/
theorem committed_of_run {typeOf : α → BrType} {s t : Ipc α} {events : List (IpcEvent α)}
    (hrun : Run (IpcStep typeOf) s events t) {j : ℕ}
    (hs : ∃ call, s.calls[j]? = some call ∧ call.Committed) :
    ∃ call, t.calls[j]? = some call ∧ call.Committed :=
  hrun.invariant (fun _ _ _ hs hstep ↦ hstep.committed hs) hs

/-- What the histories say about the calls of a state. -/
structure ExactlyOnce (s : Ipc α) : Prop where
  /-- What was received is what was sent first, in order. -/
  fifo : s.received.map Prod.snd <+: s.sent.map Prod.snd
  /-- What was sent and not received is in the channel. -/
  waiting : s.sent.map Prod.snd = s.received.map Prod.snd ++ contents s.channel.msgs
  /-- A call that returned anything but `BR_SUCCESS` has moved nothing. -/
  failed : ∀ i call result, s.calls[i]? = some call → call.phase = .returned result →
    result ≠ .success → entries s.sent i = [] ∧ entries s.received i = []
  /-- A call has moved one parcel with its own message if it is committed, and otherwise none. -/
  accounted : ∀ i call, s.calls[i]? = some call →
    Accounted (entries s.sent i) (entries s.received i) call
  /-- Every parcel that was moved was moved by a call that is committed. -/
  committed : ∀ entry, entry ∈ s.sent ∨ entry ∈ s.received →
    ∃ call, s.calls[entry.1]? = some call ∧ call.Committed ∧
      (entry ∈ s.sent → call.kind = .send ∧ entry.2.msg = call.msg) ∧
      (entry ∈ s.received → call.kind = .recv ∧ SameMessage entry.2.msg call.msg)
  /-- The committed calls are those that returned `BR_SUCCESS` as soon as no call is on its way
  from being woken to its return. -/
  returned : s.Settled → ∀ call ∈ s.calls, call.Committed ↔ call.phase = .returned .success

theorem Delivers.failed {s : Ipc α} (hs : Delivers s) {i : ℕ} {call : Call} {result : BrResult}
    (hcall : s.calls[i]? = some call) (hphase : call.phase = .returned result)
    (hresult : result ≠ .success) : entries s.sent i = [] ∧ entries s.received i = [] := by
  have hopen : ¬ call.Committed :=
    not_committed_of_phase hphase (fun h ↦ hresult (CallPhase.returned.inj h)) nofun
  have haccounted := hs.accounted i call hcall
  cases hkind : call.kind with
  | send =>
    obtain ⟨hreceived, _, hsent⟩ := haccounted.send hkind
    exact ⟨hsent hopen, hreceived⟩
  | recv =>
    obtain ⟨hsent, _, hreceived⟩ := haccounted.recv hkind
    exact ⟨hsent, hreceived hopen⟩

/-- Over every interleaving of calls on a channel, messages are delivered exactly once and in the
order in which they were enqueued, and a call that fails moves nothing. -/
theorem channel_exactlyOnce {typeOf : α → BrType} {events : List (IpcEvent α)} {s : Ipc α}
    (hrun : Run (IpcStep typeOf) ipcCreate events s) : ExactlyOnce s := by
  have hs := hrun.invariant (fun _ _ _ hs hstep ↦ hstep.delivers hs) delivers_create
  refine ⟨?_, hs.fifo, ?_, hs.accounted, fun _ hentry ↦ hs.committed hentry, ?_⟩
  · rw [hs.fifo]
    exact List.prefix_append _ _
  · intro i call result hcall hphase hresult
    exact hs.failed hcall hphase hresult
  · intro hsettled call hcall
    constructor
    · rintro (hreturned | ⟨hwoken, _⟩)
      · exact hreturned
      · exact absurd hwoken (hsettled call hcall .success)
    · exact Or.inl

/-- A receive that blocks on an empty channel is woken by a send. -/
theorem channel_exactlyOnce_blocked :
    ∃ s : Ipc BrType, Run (IpcStep id) ipcCreate
        [.enter 0 .recv true (-1) default, .poll 0 (some none), .block 0,
          .enter 1 .send false 0 default, .nonBlocking 1 none, .pass 0 (some none), .resume 0] s ∧
      s.received.length = 1 ∧ ExactlyOnce s := by
  have hrun : ∃ s : Ipc BrType, Run (IpcStep id) ipcCreate
      [.enter 0 .recv true (-1) default, .poll 0 (some none), .block 0,
        .enter 1 .send false 0 default, .nonBlocking 1 none, .pass 0 (some none), .resume 0] s ∧
      s.received.length = 1 := by
    refine ⟨_, .cons (.enter ?_) (.cons (.poll rfl rfl rfl rfl) (.cons (.block rfl rfl)
      (.cons (.enter ?_) (.cons (.nonBlocking rfl rfl rfl rfl) (.cons (.pass rfl rfl rfl)
        (.cons (.resume rfl rfl) (.nil _))))))), ?_⟩
    · intro call hcall
      cases hcall
    · intro call hcall htask
      simp [Ipc.moved, ipcCreate] at hcall
      rw [hcall] at htask
      cases htask
    · decide +kernel
  obtain ⟨s, hrun, hreceived⟩ := hrun
  exact ⟨s, hrun, hreceived, channel_exactlyOnce hrun⟩

end Brutal.Kernel
