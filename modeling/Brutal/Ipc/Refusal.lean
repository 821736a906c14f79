import Brutal.Ipc.Component

/-!
# Requests that the kernel refuses

`ipc_component_request` of one component, with what `br_ipc` answers to it.  The kernel refuses a
message whose receiver does not exist or has a full channel, and messages with handles that the
sender does not have; the call goes on as if the message was on its way.

Beside the list of pendings the model keeps which requests the kernel accepted, and which of them
got the response that they waited for.
-/

namespace Brutal.Ipc

open Base Kernel Lib

/-- What `ipc_component_request` does for the fiber that calls it. -/
inductive Requested where
  | returns (result : BrResult)
  | blocks
deriving DecidableEq, Repr

/-- The counter and the pendings of an `IpcComponent`, with the numbers of the requests that were
accepted and of those whose fibers took their responses. -/
structure Requester where
  seq : UInt32
  sent : ℕ
  pendings : List IpcPending
  accepted : List ℕ
  consumed : List ℕ
deriving DecidableEq, Repr

variable (x : Side)

/-- `ipc_component_request`, where `result` is what `br_ipc` answers, up to the wait for the
response. -/
def requestWith (self : Requester) (to' : UInt64) (expects : Bool) (result : BrResult) :
    Requested × Requester :=
  let request : RequestId := ⟨x, self.sent⟩
  let accepted := if result = .success then self.accepted ++ [self.sent] else self.accepted
  let sentSelf := { self with seq := self.seq + 1, sent := self.sent + 1, accepted }
  if expects then
    let pending : IpcPending := ⟨false, to', self.seq.toUInt64, default, request⟩
    (.blocks, { sentSelf with pendings := self.pendings ++ [pending] })
  else (.returns .success, sentSelf)

/-- `ipc_component_pump` with a message; what it starts for other messages leaves the pendings as
they are. -/
def pumpWith (self : Requester) (msg : BrMsg) : Requester :=
  match dispatchToPending msg self.pendings with
  | some (_, pendings) => { self with pendings }
  | none => self

/-- `ipc_component_request` once its response is there. -/
def resumeWith (self : Requester) (pending : IpcPending) : Except Fault Requester :=
  if pending ∈ self.pendings ∧ pending.ok = true then
    .ok
      { self with
        pendings := self.pendings.erase pending
        consumed := self.consumed ++ [pending.request.count] }
  else .error .panic

inductive RequesterAction where
  | request (to' : UInt64) (expects : Bool) (result : BrResult)
  | pump (msg : BrMsg)
  | resume (pending : IpcPending)

def requesterNext (self : Requester) : RequesterAction → Except Fault Requester
  | .request to' expects result => .ok (requestWith x self to' expects result).2
  | .pump msg => .ok (pumpWith self msg)
  | .resume pending => resumeWith self pending

/-- A component that has not sent anything yet. -/
def requesterInit : Requester := ⟨0, 0, [], [], []⟩

/-- The component of the model with two components makes its requests in the same way, whatever the
channel does. -/
theorem ipcComponentRequest_requestWith (s : Components) (port : UInt64) (req : BrMsg)
    (expects : Bool) (result : BrResult) (accepted consumed : List ℕ) :
    let self := s x
    let next := ipcComponentRequest s x port req expects x
    let requester := (requestWith x ⟨self.seq, self.sent, self.pendings, accepted, consumed⟩
      (s x.peer).id expects result).2
    next.seq = requester.seq ∧ next.sent = requester.sent ∧ next.pendings = requester.pendings := by
  cases expects <;> simp [ipcComponentRequest, requestWith, requestMsg]

/-- A refused message is reported to the caller, who does not wait, and nothing is pending for
it. -/
def Reports (self : Requester) (to' : UInt64) (expects : Bool) (result : BrResult) : Prop :=
  result ≠ .success → (requestWith x self to' expects result).1 = .returns result ∧
    (requestWith x self to' expects result).2.pendings = self.pendings

/-- Every pending belongs to a message that was accepted and whose response was not taken yet. -/
def Owned (self : Requester) : Prop :=
  ∀ pending ∈ self.pendings, pending.request.count ∈ self.accepted ∧
    pending.request.count ∉ self.consumed

/-- The action reports a refusal, and leaves pendings of accepted messages only. -/
def Kept (self : Requester) (action : RequesterAction) (next : Requester) : Prop :=
  (∀ to' expects result, action = .request to' expects result →
    Reports x self to' expects result) ∧ Owned next

/-- The kernel accepts the message, if one is sent. -/
def Accepts : RequesterAction → Prop
  | .request _ _ result => result = .success
  | .pump _ => True
  | .resume _ => True

instance : DecidablePred Accepts := fun action ↦
  match action with
  | .request _ _ result => inferInstanceAs (Decidable (result = .success))
  | .pump _ => .isTrue trivial
  | .resume _ => .isTrue trivial

/-- A refusal is never reported. -/
theorem reports_iff (self : Requester) (to' : UInt64) (expects : Bool) (result : BrResult) :
    Reports x self to' expects result ↔ result = .success := by
  constructor
  · intro h
    by_contra hresult
    obtain ⟨hreturns, -⟩ := h hresult
    cases expects with
    | true => cases hreturns
    | false =>
      cases hreturns
      exact hresult rfl
  · intro hresult hnot
    exact absurd hresult hnot

/-- The numbers of the pendings are different, none was taken, and all are of accepted messages. -/
structure Pendings (state : Requester) : Prop where
  nodup : (state.pendings.map fun pending ↦ pending.request.count).Nodup
  pending_lt : ∀ pending ∈ state.pendings, pending.request.count < state.sent
  consumed_lt : ∀ count ∈ state.consumed, count < state.sent
  owned : Owned state

theorem requesterInit_pendings : Pendings requesterInit :=
  ⟨List.nodup_nil, fun _ hmem ↦ absurd hmem List.not_mem_nil,
    fun _ hmem ↦ absurd hmem List.not_mem_nil, fun _ hmem ↦ absurd hmem List.not_mem_nil⟩

/-- A dispatch changes the response of a pending only. -/
theorem dispatchToPending_counts {msg : BrMsg} {pendings rest : List IpcPending}
    {found : IpcPending} (h : dispatchToPending msg pendings = some (found, rest)) :
    rest.map (fun pending ↦ pending.request.count) =
      pendings.map fun pending ↦ pending.request.count := by
  induction pendings generalizing rest with
  | nil => cases h
  | cons pending tail ih =>
    unfold dispatchToPending at h
    split at h
    next =>
      cases h
      rfl
    next =>
      obtain ⟨⟨found', rest'⟩, htail, heq⟩ := Option.map_eq_some_iff.mp h
      cases heq
      rw [List.map_cons, List.map_cons, ih htail]

variable {x} {self next : Requester}

/-- Pendings with the same numbers are as good. -/
theorem Pendings.of_counts (h : Pendings self) {pendings : List IpcPending}
    (hcounts : pendings.map (fun pending ↦ pending.request.count) =
      self.pendings.map fun pending ↦ pending.request.count) :
    Pendings { self with pendings } := by
  have hold : ∀ pending ∈ pendings, ∃ old ∈ self.pendings,
      old.request.count = pending.request.count := by
    intro pending hmem
    have hcount := List.mem_map_of_mem (f := fun pending : IpcPending ↦ pending.request.count) hmem
    rw [hcounts] at hcount
    exact List.mem_map.mp hcount
  refine ⟨by rw [hcounts]; exact h.nodup, fun pending hmem ↦ ?_, h.consumed_lt,
    fun pending hmem ↦ ?_⟩
  · obtain ⟨old, holdMem, heq⟩ := hold pending hmem
    rw [← heq]
    exact h.pending_lt old holdMem
  · obtain ⟨old, holdMem, heq⟩ := hold pending hmem
    rw [← heq]
    exact h.owned old holdMem

theorem Pendings.request (h : Pendings self) (to' : UInt64) (expects : Bool) :
    Pendings (requestWith x self to' expects .success).2 := by
  have hfresh : self.sent ∉ self.consumed := fun hmem ↦
    Nat.lt_irrefl _ (h.consumed_lt _ hmem)
  have hold : ∀ pending ∈ self.pendings, pending.request.count ∈ self.accepted ++ [self.sent] ∧
      pending.request.count ∉ self.consumed := fun pending hmem ↦
    ⟨List.mem_append_left _ (h.owned pending hmem).1, (h.owned pending hmem).2⟩
  have hconsumed : ∀ count ∈ self.consumed, count < self.sent + 1 := fun count hmem ↦
    Nat.lt_succ_of_lt (h.consumed_lt count hmem)
  have hlt : ∀ pending ∈ self.pendings, pending.request.count < self.sent + 1 :=
    fun pending hmem ↦ Nat.lt_succ_of_lt (h.pending_lt pending hmem)
  cases expects with
  | false => exact ⟨h.nodup, hlt, hconsumed, hold⟩
  | true =>
    refine ⟨?_, ?_, hconsumed, ?_⟩
    · rw [requestWith, if_pos rfl]
      dsimp only
      rw [List.map_append, List.map_singleton, List.nodup_append]
      refine ⟨h.nodup, List.nodup_singleton _, ?_⟩
      intro count hcount other hother
      obtain ⟨pending, hmem, rfl⟩ := List.mem_map.mp hcount
      rw [List.mem_singleton.mp hother]
      exact Nat.ne_of_lt (h.pending_lt pending hmem)
    · rw [requestWith, if_pos rfl]
      dsimp only
      rw [List.forall_mem_append, List.forall_mem_singleton]
      exact ⟨hlt, Nat.lt_succ_self _⟩
    · rw [Owned, requestWith, if_pos rfl]
      dsimp only
      rw [List.forall_mem_append, List.forall_mem_singleton]
      exact ⟨hold, List.mem_append_right _ (List.mem_singleton_self _), hfresh⟩

theorem Pendings.pump (h : Pendings self) (msg : BrMsg) : Pendings (pumpWith self msg) := by
  rw [pumpWith]
  split
  next found pendings hdispatch => exact h.of_counts (dispatchToPending_counts hdispatch)
  next => exact h

theorem Pendings.resume (h : Pendings self) {pending : IpcPending}
    (hcall : resumeWith self pending = .ok next) : Pendings next := by
  rw [resumeWith] at hcall
  split at hcall
  next hpending =>
    cases hcall
    have hsub : (self.pendings.erase pending).Sublist self.pendings := List.erase_sublist
    refine ⟨h.nodup.sublist (hsub.map _),
      fun other hmem ↦ h.pending_lt other (hsub.subset hmem), ?_,
      fun other hmem ↦ ⟨(h.owned other (hsub.subset hmem)).1, ?_⟩⟩
    · rw [List.forall_mem_append, List.forall_mem_singleton]
      exact ⟨h.consumed_lt, h.pending_lt pending hpending.1⟩
    · rw [List.mem_append, List.mem_singleton]
      rintro (hconsumed | heq)
      · exact (h.owned other (hsub.subset hmem)).2 hconsumed
      · -- No other pending has the number of the one that is taken out.
        have hperm := (List.perm_cons_erase hpending.1).map
          fun pending : IpcPending ↦ pending.request.count
        have hnodup := hperm.nodup_iff.mp h.nodup
        rw [List.map_cons, List.nodup_cons] at hnodup
        exact hnodup.1 (heq ▸ List.mem_map_of_mem hmem)
  next => cases hcall

theorem Pendings.step {action : RequesterAction} (h : Pendings self) (haccepts : Accepts action)
    (hstep : requesterNext x self action = .ok next) : Pendings next := by
  cases action with
  | request to' expects result =>
    cases hstep
    rw [show result = .success from haccepts]
    exact h.request to' expects
  | pump msg =>
    cases hstep
    exact h.pump msg
  | resume pending => exact h.resume hstep

/-- While messages are accepted, pendings of accepted messages stay the only ones. -/
theorem Pendings.kept {action : RequesterAction} (h : Pendings self) (haccepts : Accepts action)
    (hstep : requesterNext x self action = .ok next) : Kept x self action next := by
  refine ⟨fun to' expects result haction ↦ ?_, (h.step haccepts hstep).owned⟩
  subst haction
  exact (reports_iff x self to' expects result).mpr haccepts

theorem Kept.accepts {action : RequesterAction} (h : Kept x self action next) :
    Accepts action := by
  cases action with
  | request to' expects result => exact (reports_iff x self to' expects result).mp (h.1 _ _ _ rfl)
  | pump msg => exact trivial
  | resume pending => exact trivial

theorem run_kept {self : Requester} {actions : List RequesterAction} {next : Requester}
    (hrun : Run (Succeeds (requesterNext x)) self actions next) (hself : Pendings self)
    (haccepts : ∀ action ∈ actions, Accepts action) :
    Run (fun s action t ↦ requesterNext x s action = .ok t ∧ Kept x s action t) self actions
      next := by
  induction hrun with
  | nil s => exact .nil s
  | cons head tail ih =>
    rw [List.forall_mem_cons] at haccepts
    exact .cons ⟨head, hself.kept haccepts.1 head⟩
      (ih (hself.step haccepts.1 head) haccepts.2)

theorem accepts_of_run {self : Requester} {actions : List RequesterAction} {next : Requester}
    (hrun : Run (fun s action t ↦ requesterNext x s action = .ok t ∧ Kept x s action t) self
      actions next) : ∀ action ∈ actions, Accepts action := by
  induction hrun with
  | nil s => exact fun _ hmem ↦ absurd hmem List.not_mem_nil
  | cons head tail ih => exact List.forall_mem_cons.mpr ⟨head.2.accepts, ih⟩

variable (x)

/-- A request reports what the kernel answers exactly when it accepts the message, and the pendings
are those of accepted messages, along a whole run, exactly when it accepts every message. -/
theorem ipcComponentRequest_refused_iff :
    (∀ self to' expects result, Reports x self to' expects result ↔ result = .success) ∧
      ∀ actions next, Run (Succeeds (requesterNext x)) requesterInit actions next →
        (Run (fun s action t ↦ requesterNext x s action = .ok t ∧ Kept x s action t) requesterInit
          actions next ↔ ∀ action ∈ actions, Accepts action) :=
  ⟨reports_iff x, fun _ _ hrun ↦
    ⟨accepts_of_run, run_kept hrun requesterInit_pendings⟩⟩

/-- A request that is accepted, answered and resumed. -/
theorem ipcComponentRequest_accepted_once :
    let pending : IpcPending := ⟨false, 2, 0, default, ⟨.left, 0⟩⟩
    let answer : BrMsg := { (default : BrMsg) with fromAddr := ⟨2, 0⟩ }
    let actions : List RequesterAction := [.request 2 true .success, .pump answer,
      .resume { pending with resp := answer, ok := true }]
    Run (fun s action t ↦ requesterNext .left s action = .ok t ∧ Kept .left s action t)
      requesterInit actions ⟨1, 1, [], [0], [0]⟩ :=
  ((ipcComponentRequest_refused_iff .left).2 _ _ (Run.ofFold (by decide))).mpr (by decide)

/-- A request to an address that nobody has: the caller blocks on a pending that no message will
ever answer. -/
theorem ipcComponentRequest_refused_fails :
    ¬ Reports .left requesterInit 7 true .badAddress ∧
      (requestWith .left requesterInit 7 true .badAddress).1 = .blocks ∧
      ¬ Owned (requestWith .left requesterInit 7 true .badAddress).2 := by
  refine ⟨?_, rfl, ?_⟩
  · rw [reports_iff]
    decide
  · intro howned
    have h := (howned ⟨false, 7, 0, default, ⟨.left, 0⟩⟩ (by decide)).1
    revert h
    decide

end Brutal.Ipc
