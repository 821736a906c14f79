import Brutal.Kernel.Channel
import Brutal.Lib.Run
import Mathlib.Logic.Function.Basic

/-!
# Requests and responses between two components

`libs/ipc/component.c` for two components that send requests to each other's objects.  Messages go
through the channels of the two tasks, which the kernel keeps in order and which refuse a message
when they are full; `ipc_component_request` does not look at the answer of `br_ipc`.

A message is told apart by its number and its sender only.  What it really is, a request or the
answer to a message, is kept beside it in the model, together with what every call of
`ipc_component_pump` made of the message that it received.  Messages about events, for
`dispatch_to_binding`, do not come from components.
-/

namespace Brutal.Ipc

open Base Kernel Lib

variable {s t : Components} {inbox : List IpcMsg} {message : IpcMsg} {msg : BrMsg}
  {here there : IpcComponent} {pendings : List IpcPending} {x : Side}

/-- The two components. -/
inductive Side where
  | left
  | right
deriving DecidableEq, Repr

def Side.peer : Side → Side
  | .left => .right
  | .right => .left

/-- A call of `ipc_component_request`: the component that made it and how many it made before. -/
structure RequestId where
  requester : Side
  count : ℕ
deriving DecidableEq, Repr

/-- Where a message comes from: `ipc_component_request`, or `ipc_component_respond` for another
message. -/
inductive Origin where
  | request (id : RequestId)
  | response (answered : Origin)
deriving DecidableEq, Repr

structure IpcMsg where
  msg : BrMsg
  origin : Origin
deriving DecidableEq, Repr

/-- `IpcPending`, with the request that it waits for. -/
structure IpcPending where
  ok : Bool
  fromId : UInt64
  seq : UInt64
  resp : BrMsg
  request : RequestId
deriving DecidableEq, Repr

/-- `IpcObject`, whose providers are given by their protocols. -/
structure IpcObject where
  port : UInt64
  providers : List UInt64
deriving DecidableEq, Repr

/-- What `ipc_component_pump` made of a message. -/
inductive Outcome where
  | pending (request : RequestId)
  | object
  | unhandled
deriving DecidableEq, Repr

structure Pumped where
  message : IpcMsg
  outcome : Outcome
deriving DecidableEq, Repr

/-- `IpcComponent` with the counter of `ipc_component_request`, the identifier and the channel of
its task, the requests that its handlers have not answered yet, and what was pumped. -/
structure IpcComponent where
  id : UInt64
  seq : UInt32
  sent : ℕ
  pendings : List IpcPending
  objects : List IpcObject
  inbox : List IpcMsg
  handling : List IpcMsg
  pumped : List Pumped
deriving DecidableEq, Repr

abbrev Components := Side → IpcComponent

/-- `br_ipc` with `BR_IPC_SEND`, for the channel of the receiver. -/
def brIpcSend (inbox : List IpcMsg) (message : IpcMsg) : List IpcMsg :=
  if inbox.length = ipcChannelSize then inbox else inbox ++ [message]

/-- The message of a request, as the kernel passes it on. -/
def requestMsg (self peer : IpcComponent) (port : UInt64) (req : BrMsg) : BrMsg :=
  { req with
    seq := self.seq.toUInt64
    fromAddr := { req.fromAddr with id := self.id }
    toAddr := ⟨peer.id, port⟩ }

/-- `ipc_component_request` up to the wait for the response, if there is to be one. -/
def ipcComponentRequest (s : Components) (x : Side) (port : UInt64) (req : BrMsg)
    (expects : Bool) : Components :=
  let self := s x
  let peer := s x.peer
  let request : RequestId := ⟨x, self.sent⟩
  let msg := requestMsg self peer port req
  let pending : IpcPending := ⟨false, peer.id, msg.seq, default, request⟩
  let s := Function.update s x.peer
    { peer with inbox := brIpcSend peer.inbox ⟨msg, .request request⟩ }
  Function.update s x
    { self with
      seq := self.seq + 1
      sent := self.sent + 1
      pendings := if expects then self.pendings ++ [pending] else self.pendings }

/-- `ipc_component_request` once its response is there. -/
def ipcComponentResume (s : Components) (x : Side) (pending : IpcPending) :
    Except Fault Components :=
  if pending ∈ (s x).pendings ∧ pending.ok = true then
    .ok (Function.update s x { s x with pendings := (s x).pendings.erase pending })
  else .error .panic

/-- The message of a response, as the kernel passes it on. -/
def responseMsg (self : IpcComponent) (req resp : BrMsg) : BrMsg :=
  { resp with
    seq := req.seq
    prot := req.prot
    fromAddr := { resp.fromAddr with id := self.id }
    toAddr := req.fromAddr }

/-- `ipc_component_respond`, by the handler of a message. -/
def ipcComponentRespond (s : Components) (x : Side) (req : IpcMsg) (resp : BrMsg) :
    Except Fault Components :=
  if req ∈ (s x).handling then
    let msg := responseMsg (s x) req.msg resp
    let t := Function.update s x { s x with handling := (s x).handling.erase req }
    .ok (Function.update t x.peer
      { s x.peer with inbox := brIpcSend (s x.peer).inbox ⟨msg, .response req.origin⟩ })
  else .error .panic

/-- The test in `dispatch_to_pending`. -/
def awaits (msg : BrMsg) (pending : IpcPending) : Bool :=
  pending.seq == msg.seq && pending.fromId == msg.fromAddr.id

/-- `dispatch_to_pending`, with the pending that it finds. -/
def dispatchToPending (msg : BrMsg) : List IpcPending → Option (IpcPending × List IpcPending)
  | [] => none
  | pending :: rest =>
    if awaits msg pending then some (pending, { pending with resp := msg, ok := true } :: rest)
    else (dispatchToPending msg rest).map fun (found, rest) ↦ (found, pending :: rest)

/-- `ipc_object_dispatch` -/
def ipcObjectDispatch (self : IpcObject) (msg : BrMsg) : Bool :=
  self.port == msg.toAddr.port && self.providers.any fun proto ↦ proto == msg.prot

/-- `dispatch_to_object` -/
def dispatchToObject (self : IpcComponent) (msg : BrMsg) : Bool :=
  self.objects.any fun object ↦ ipcObjectDispatch object msg

/-- `ipc_component_pump` after it has received a message. -/
def ipcComponentDispatch (self : IpcComponent) (message : IpcMsg) : IpcComponent :=
  match dispatchToPending message.msg self.pendings with
  | some (pending, pendings) =>
    { self with pendings, pumped := self.pumped ++ [⟨message, .pending pending.request⟩] }
  | none =>
    if dispatchToObject self message.msg then
      { self with
        handling := self.handling ++ [message]
        pumped := self.pumped ++ [⟨message, .object⟩] }
    else { self with pumped := self.pumped ++ [⟨message, .unhandled⟩] }

/-- `ipc_component_pump` -/
def ipcComponentPump (s : Components) (x : Side) : Components :=
  match (s x).inbox with
  | [] => s
  | message :: inbox => Function.update s x (ipcComponentDispatch { s x with inbox } message)

inductive IpcAction where
  /-- A request to an object of the peer, with or without a response to wait for. -/
  | request (x : Side) (port : UInt64) (req : BrMsg) (expects : Bool)
  | respond (x : Side) (req : IpcMsg) (resp : BrMsg)
  | pump (x : Side)
  | resume (x : Side) (pending : IpcPending)

def ipcNext (s : Components) : IpcAction → Except Fault Components
  | .request x port req expects => .ok (ipcComponentRequest s x port req expects)
  | .respond x req resp => ipcComponentRespond s x req resp
  | .pump x => .ok (ipcComponentPump s x)
  | .resume x pending => ipcComponentResume s x pending

/-- Requests go to objects of the peer that provide their protocol. -/
def Addressed (s : Components) : IpcAction → Prop
  | .request x port req _ => ∃ object ∈ (s x.peer).objects, object.port = port ∧
      req.prot ∈ object.providers
  | _ => True

/-- Two components that have not sent anything yet. -/
structure Initial (s : Components) : Prop where
  ids : (s .left).id ≠ (s .right).id
  empty : ∀ x, (s x).seq = 0 ∧ (s x).sent = 0 ∧ (s x).pendings = [] ∧ (s x).inbox = [] ∧
    (s x).handling = [] ∧ (s x).pumped = []

/-- A message was taken for what it is: only the response to a request completes it, and a request
goes to an object. -/
def Correlated (pumped : Pumped) : Prop :=
  (∀ request, pumped.outcome = .pending request →
    pumped.message.origin = .response (.request request)) ∧
  (∀ request, pumped.message.origin = .request request → pumped.outcome = .object)

/-- An object of the component would take the response to the message. -/
def takesResponse (self : IpcComponent) (msg : BrMsg) : Bool :=
  dispatchToObject self { msg with toAddr := msg.fromAddr }

/-- The messages that are in the channel of the component or may lead to one there: those that its
peer handles or will handle, and those that it handles itself if the peer will take the response
for a request. -/
def toward (s : Components) (x : Side) : List IpcMsg :=
  (s x).inbox ++ (s x.peer).handling ++
    (s x.peer).inbox.filter (fun message ↦ dispatchToObject (s x.peer) message.msg) ++
    (s x).handling.filter (fun message ↦ takesResponse (s x.peer) message.msg)

/-- The number of a request is not that of a pending request of either component and, when the
request is to become a pending one, not that of a message that is or leads to one for the
requester. -/
def Unused (s : Components) : IpcAction → Prop
  | .request x _ _ expects =>
    (∀ y, ∀ pending ∈ (s y).pendings, pending.seq ≠ (s x).seq.toUInt64) ∧
      (expects = true → ∀ message ∈ toward s x, message.msg.seq ≠ (s x).seq.toUInt64)
  | _ => True

/-- What one component and its peer keep: a number that a pending request waits for is, on its way
to the component and back, the number of that request and of its response. -/
structure Correlates (here there : IpcComponent) : Prop where
  sender : ∀ m ∈ here.inbox, m.msg.fromAddr.id = there.id
  addressed : ∀ m ∈ here.inbox, ∀ request, m.origin = .request request →
    dispatchToObject here m.msg = true
  waiting : ∀ p ∈ here.pendings, p.fromId = there.id
  arriving : ∀ p ∈ here.pendings, ∀ m ∈ here.inbox, m.msg.seq = p.seq →
    m.origin = .response (.request p.request)
  leaving : ∀ p ∈ here.pendings, ∀ m ∈ there.inbox, dispatchToObject there m.msg = true →
    m.msg.seq = p.seq → m.origin = .request p.request
  handled : ∀ p ∈ here.pendings, ∀ m ∈ there.handling, m.msg.seq = p.seq →
    m.origin = .request p.request
  handling : ∀ p ∈ here.pendings, ∀ m ∈ here.handling, m.msg.seq = p.seq →
    takesResponse there m.msg = false
  correlated : ∀ e ∈ here.pumped, Correlated e

def Correlating (s : Components) : Prop :=
  ∀ x, Correlates (s x) (s x.peer)

@[simp] theorem Side.peer_peer (x : Side) : x.peer.peer = x := by
  cases x <;> rfl

@[simp] theorem Side.peer_ne (x : Side) : x.peer ≠ x := by
  cases x <;> decide

theorem Side.eq_or_peer (x y : Side) : y = x ∨ y = x.peer := by
  cases x <;> cases y <;> decide

theorem correlating_of_pair (x : Side) (hself : Correlates (s x) (s x.peer))
    (hpeer : Correlates (s x.peer) (s x)) : Correlating s := by
  intro y
  cases Side.eq_or_peer x y with
  | inl h => rwa [h]
  | inr h => rwa [h, Side.peer_peer]

theorem mem_brIpcSend {message m : IpcMsg} (h : m ∈ brIpcSend inbox message) :
    m ∈ inbox ∨ m = message := by
  unfold brIpcSend at h
  split at h
  next => exact .inl h
  next => simpa using h

theorem initial_correlating (h : Initial s) : Correlating s := by
  intro x
  obtain ⟨-, -, hpendings, hinbox, -, hpumped⟩ := h.empty x
  apply Correlates.mk <;> simp [hpendings, hinbox, hpumped]

/-! ## Each step keeps it -/

theorem dispatchToObject_of_addressed {self : IpcComponent}
    (h : ∃ object ∈ self.objects, object.port = msg.toAddr.port ∧ msg.prot ∈ object.providers) :
    dispatchToObject self msg = true := by
  obtain ⟨object, hmem, hport, hprot⟩ := h
  simp only [dispatchToObject, List.any_eq_true]
  exact ⟨object, hmem, by simpa [ipcObjectDispatch, hport] using hprot⟩

/-- A message enters the channel of the component. -/
theorem Correlates.receive (message : IpcMsg) (h : Correlates here there)
    (hsender : message.msg.fromAddr.id = there.id)
    (haddressed : ∀ request, message.origin = .request request →
      dispatchToObject here message.msg = true)
    (harriving : ∀ p ∈ here.pendings, message.msg.seq = p.seq →
      message.origin = .response (.request p.request)) :
    Correlates { here with inbox := brIpcSend here.inbox message } there where
  sender := by
    intro m hm
    cases mem_brIpcSend hm with
    | inl hold => exact h.sender m hold
    | inr hnew => rwa [hnew]
  addressed := by
    intro m hm request horigin
    cases mem_brIpcSend hm with
    | inl hold => exact h.addressed m hold request horigin
    | inr hnew =>
      rw [hnew] at horigin ⊢
      exact haddressed request horigin
  waiting := h.waiting
  arriving := by
    intro p hp m hm hseq
    cases mem_brIpcSend hm with
    | inl hold => exact h.arriving p hp m hold hseq
    | inr hnew =>
      rw [hnew] at hseq ⊢
      exact harriving p hp hseq
  leaving := h.leaving
  handled := h.handled
  handling := h.handling
  correlated := h.correlated

/-- A message enters the channel of the peer. -/
theorem Correlates.send (h : Correlates here there)
    (hleaving : ∀ p ∈ here.pendings, dispatchToObject there message.msg = true →
      message.msg.seq = p.seq → message.origin = .request p.request) :
    Correlates here { there with inbox := brIpcSend there.inbox message } where
  sender := h.sender
  addressed := h.addressed
  waiting := h.waiting
  arriving := h.arriving
  leaving := by
    intro p hp m hm hobject hseq
    cases mem_brIpcSend hm with
    | inl hold => exact h.leaving p hp m hold hobject hseq
    | inr hnew =>
      rw [hnew] at hobject hseq ⊢
      exact hleaving p hp hobject hseq
  handled := h.handled
  handling := h.handling
  correlated := h.correlated

/-- A request whose number nothing uses becomes a pending one. -/
theorem Correlates.wait (pending : IpcPending) (h : Correlates here there)
    (hfrom : pending.fromId = there.id) (hinbox : ∀ m ∈ here.inbox, m.msg.seq ≠ pending.seq)
    (hpeer : ∀ m ∈ there.inbox, dispatchToObject there m.msg = true → m.msg.seq ≠ pending.seq)
    (hhandled : ∀ m ∈ there.handling, m.msg.seq ≠ pending.seq)
    (hhandling : ∀ m ∈ here.handling, takesResponse there m.msg = true → m.msg.seq ≠ pending.seq) :
    Correlates { here with pendings := here.pendings ++ [pending] } there where
  sender := h.sender
  addressed := h.addressed
  waiting := by grind [h.waiting]
  arriving := by grind [h.arriving]
  leaving := by grind [h.leaving]
  handled := by grind [h.handled]
  handling := by grind [h.handling]
  correlated := h.correlated

theorem dispatchToObject_congr {c d : IpcComponent} (h : c.objects = d.objects) (msg : BrMsg) :
    dispatchToObject c msg = dispatchToObject d msg := by
  simp only [dispatchToObject, h]

theorem dispatchToObject_responseMsg (self other : IpcComponent) (req resp : BrMsg) :
    dispatchToObject self (responseMsg other req resp) = takesResponse self req := rfl

/-- Two pending requests that differ in their response only. -/
def SameRequest (p q : IpcPending) : Prop :=
  p.seq = q.seq ∧ p.fromId = q.fromId ∧ p.request = q.request

/-- A component with fewer messages and fewer pending requests. -/
theorem Correlates.shrink {inbox handling : List IpcMsg} (h : Correlates here there)
    (hpendings : ∀ p ∈ pendings, ∃ q ∈ here.pendings, SameRequest p q) (hinbox : inbox ⊆ here.inbox)
    (hhandling : handling ⊆ here.handling) :
    Correlates { here with pendings, inbox, handling } there where
  sender := fun m hm ↦ h.sender m (hinbox hm)
  addressed := fun m hm ↦ h.addressed m (hinbox hm)
  waiting := by
    intro p hp
    obtain ⟨q, hq, -, hfrom, -⟩ := hpendings p hp
    rw [hfrom]
    exact h.waiting q hq
  arriving := by
    intro p hp m hm hseq
    obtain ⟨q, hq, hseq', -, hrequest⟩ := hpendings p hp
    rw [hrequest]
    exact h.arriving q hq m (hinbox hm) (hseq.trans hseq')
  leaving := by
    intro p hp m hm hobject hseq
    obtain ⟨q, hq, hseq', -, hrequest⟩ := hpendings p hp
    rw [hrequest]
    exact h.leaving q hq m hm hobject (hseq.trans hseq')
  handled := by
    intro p hp m hm hseq
    obtain ⟨q, hq, hseq', -, hrequest⟩ := hpendings p hp
    rw [hrequest]
    exact h.handled q hq m hm (hseq.trans hseq')
  handling := by
    intro p hp m hm hseq
    obtain ⟨q, hq, hseq', -, -⟩ := hpendings p hp
    exact h.handling q hq m (hhandling hm) (hseq.trans hseq')
  correlated := h.correlated

/-- A peer whose messages were there before, or that handles a message that was in its channel. -/
theorem Correlates.of_peer {here there other : IpcComponent} (h : Correlates here there)
    (hid : other.id = there.id) (hobjects : other.objects = there.objects)
    (hinbox : other.inbox ⊆ there.inbox)
    (hhandling : ∀ m ∈ other.handling, m ∈ there.handling ∨
      m ∈ there.inbox ∧ dispatchToObject there m.msg = true) :
    Correlates here other where
  sender := by
    rw [hid]
    exact h.sender
  addressed := h.addressed
  waiting := by
    rw [hid]
    exact h.waiting
  arriving := h.arriving
  leaving := by
    intro p hp m hm hobject hseq
    rw [dispatchToObject_congr hobjects] at hobject
    exact h.leaving p hp m (hinbox hm) hobject hseq
  handled := by
    intro p hp m hm hseq
    cases hhandling m hm with
    | inl hold => exact h.handled p hp m hold hseq
    | inr hnew => exact h.leaving p hp m hnew.1 hnew.2 hseq
  handling := by
    intro p hp m hm hseq
    rw [takesResponse, dispatchToObject_congr hobjects]
    exact h.handling p hp m hm hseq
  correlated := h.correlated

/-- Neither side looks at the counter. -/
theorem Correlates.count (h : Correlates here there) (seq : UInt32) (sent : ℕ) :
    Correlates { here with seq, sent } there :=
  ⟨h.sender, h.addressed, h.waiting, h.arriving, h.leaving, h.handled, h.handling, h.correlated⟩

theorem ipcComponentRequest_correlating {port : UInt64} {req : BrMsg} {expects : Bool}
    (h : Correlating s) (haddressed : Addressed s (.request x port req expects))
    (hunused : Unused s (.request x port req expects)) :
    Correlating (ipcComponentRequest s x port req expects) := by
  have hself := h x
  have hpeer := h x.peer
  rw [Side.peer_peer] at hpeer
  have hdispatch : dispatchToObject (s x.peer) (requestMsg (s x) (s x.peer) port req) = true :=
    dispatchToObject_of_addressed haddressed
  apply correlating_of_pair x
  · simp only [ipcComponentRequest, Function.update_self, ne_eq, Side.peer_ne, not_false_eq_true,
      Function.update_of_ne]
    cases expects with
    | false =>
      apply Correlates.send (hself.count _ _)
      intro p hp _ hseq
      exact absurd hseq.symm (hunused.1 x p hp)
    | true =>
      have htoward := hunused.2 rfl
      simp only [toward, List.mem_append, List.mem_filter] at htoward
      have hwait : Correlates _ (s x.peer) := (hself.count ((s x).seq + 1) ((s x).sent + 1)).wait
        ⟨false, (s x.peer).id, (s x).seq.toUInt64, default, ⟨x, (s x).sent⟩⟩ rfl
        (fun m hm ↦ htoward m (by simp [hm])) (fun m hm hobject ↦ htoward m (by simp [hm, hobject]))
        (fun m hm ↦ htoward m (by simp [hm])) (fun m hm htakes ↦ htoward m (by simp_all))
      apply Correlates.send hwait
      intro p hp _ hseq
      cases List.mem_append.mp hp with
      | inl hold => exact absurd hseq.symm (hunused.1 x p hold)
      | inr hnew =>
        rw [List.mem_singleton.mp hnew]
  · simp only [ipcComponentRequest, Function.update_self, ne_eq, Side.peer_ne, not_false_eq_true,
      Function.update_of_ne]
    have hreceive : Correlates _ (s x) := hpeer.receive
      ⟨requestMsg (s x) (s x.peer) port req, .request ⟨x, (s x).sent⟩⟩ rfl
      (fun _ _ ↦ hdispatch) (fun p hp hseq ↦ absurd hseq.symm (hunused.1 x.peer p hp))
    exact hreceive.of_peer rfl rfl (List.Subset.refl _) (fun m hm ↦ .inl hm)

theorem ipcComponentRespond_correlating {req : IpcMsg} {resp : BrMsg} (h : Correlating s)
    (hrespond : ipcComponentRespond s x req resp = .ok t) : Correlating t := by
  have hself := h x
  have hpeer := h x.peer
  rw [Side.peer_peer] at hpeer
  unfold ipcComponentRespond at hrespond
  split at hrespond
  next hmem =>
    cases hrespond
    have herase : (s x).handling.erase req ⊆ (s x).handling := List.erase_subset
    apply correlating_of_pair x
    · simp only [Function.update_self, ne_eq, (Side.peer_ne x).symm, not_false_eq_true,
        Function.update_of_ne]
      have hshrink := hself.shrink (fun p hp ↦ ⟨p, hp, rfl, rfl, rfl⟩) (List.Subset.refl _) herase
      apply Correlates.send hshrink
      intro p hp hobject hseq
      rw [dispatchToObject_responseMsg, hself.handling p hp req hmem hseq] at hobject
      cases hobject
    · simp only [Function.update_self, ne_eq, (Side.peer_ne x).symm, not_false_eq_true,
        Function.update_of_ne]
      have hreceive := hpeer.receive ⟨responseMsg (s x) req.msg resp, .response req.origin⟩ rfl
        (fun _ horigin ↦ by cases horigin)
        (fun p hp hseq ↦ congrArg Origin.response (hpeer.handled p hp req hmem hseq))
      exact hreceive.of_peer rfl rfl (List.Subset.refl _) (fun m hm ↦ .inl (herase hm))
  next => cases hrespond

theorem ipcComponentResume_correlating {pending : IpcPending} (h : Correlating s)
    (hresume : ipcComponentResume s x pending = .ok t) : Correlating t := by
  have hself := h x
  have hpeer := h x.peer
  rw [Side.peer_peer] at hpeer
  unfold ipcComponentResume at hresume
  split at hresume
  next hmem =>
    cases hresume
    apply correlating_of_pair x
    · simp only [Function.update_self, ne_eq, Side.peer_ne, not_false_eq_true,
        Function.update_of_ne]
      exact hself.shrink (fun p hp ↦ ⟨p, List.mem_of_mem_erase hp, rfl, rfl, rfl⟩)
        (List.Subset.refl _) (List.Subset.refl _)
    · simp only [Function.update_self, ne_eq, Side.peer_ne, not_false_eq_true,
        Function.update_of_ne]
      exact hpeer.of_peer rfl rfl (List.Subset.refl _) (fun m hm ↦ .inl hm)
  next => cases hresume

theorem dispatchToPending_some {pendings rest : List IpcPending} {found : IpcPending}
    (h : dispatchToPending msg pendings = some (found, rest)) :
    found ∈ pendings ∧ awaits msg found = true ∧ ∀ p ∈ rest, ∃ q ∈ pendings, SameRequest p q := by
  induction pendings generalizing rest with
  | nil => cases h
  | cons pending tail ih =>
    unfold dispatchToPending at h
    split at h
    next hawaits =>
      cases h
      refine ⟨List.mem_cons_self, hawaits, ?_⟩
      intro p hp
      cases List.mem_cons.mp hp with
      | inl hhead => exact ⟨found, List.mem_cons_self, by rw [hhead]; exact ⟨rfl, rfl, rfl⟩⟩
      | inr htail => exact ⟨p, List.mem_cons_of_mem _ htail, rfl, rfl, rfl⟩
    next =>
      obtain ⟨⟨found', rest'⟩, htail, heq⟩ := Option.map_eq_some_iff.mp h
      cases heq
      obtain ⟨hmem, hawaits, hrest⟩ := ih htail
      refine ⟨List.mem_cons_of_mem _ hmem, hawaits, ?_⟩
      intro p hp
      cases List.mem_cons.mp hp with
      | inl hhead => exact ⟨pending, List.mem_cons_self, by rw [hhead]; exact ⟨rfl, rfl, rfl⟩⟩
      | inr hp =>
        obtain ⟨q, hq, hsame⟩ := hrest p hp
        exact ⟨q, List.mem_cons_of_mem _ hq, hsame⟩

theorem dispatchToPending_none (h : dispatchToPending msg pendings = none) :
    ∀ p ∈ pendings, awaits msg p = false := by
  induction pendings with
  | nil => simp
  | cons pending tail ih =>
    unfold dispatchToPending at h
    split at h
    next => cases h
    next hawaits =>
      have htail := ih (Option.map_eq_none_iff.mp h)
      simpa [hawaits] using htail

/-- A component records what it made of a message. -/
theorem Correlates.record (e : Pumped) (h : Correlates here there) (he : Correlated e) :
    Correlates { here with pumped := here.pumped ++ [e] } there where
  sender := h.sender
  addressed := h.addressed
  waiting := h.waiting
  arriving := h.arriving
  leaving := h.leaving
  handled := h.handled
  handling := h.handling
  correlated := by
    intro e' he'
    cases List.mem_append.mp he' with
    | inl hold => exact h.correlated e' hold
    | inr hnew => rwa [List.mem_singleton.mp hnew]

/-- A message that no pending request waits for goes to a handler. -/
theorem Correlates.handle (message : IpcMsg) (h : Correlates here there)
    (hseq : ∀ p ∈ here.pendings, message.msg.seq ≠ p.seq) :
    Correlates { here with handling := here.handling ++ [message] } there where
  sender := h.sender
  addressed := h.addressed
  waiting := h.waiting
  arriving := h.arriving
  leaving := h.leaving
  handled := h.handled
  handling := by
    intro p hp m hm hsame
    cases List.mem_append.mp hm with
    | inl hold => exact h.handling p hp m hold hsame
    | inr hnew =>
      rw [List.mem_singleton.mp hnew] at hsame
      exact absurd hsame (hseq p hp)
  correlated := h.correlated

/-- A message in the channel that no pending request takes has the number of none of them. -/
theorem Correlates.seq_ne_of_none (h : Correlates here there) (hmem : message ∈ here.inbox)
    (hnone : dispatchToPending message.msg here.pendings = none) :
    ∀ p ∈ here.pendings, message.msg.seq ≠ p.seq := by
  intro p hp hseq
  have hawaits := dispatchToPending_none hnone p hp
  rw [awaits, h.waiting p hp, h.sender message hmem, hseq] at hawaits
  simp at hawaits

theorem ipcComponentDispatch_correlates (h : Correlates here there)
    (hinbox : here.inbox = message :: inbox) :
    Correlates (ipcComponentDispatch { here with inbox } message) there := by
  have hmem : message ∈ here.inbox := by rw [hinbox]; exact List.mem_cons_self
  have htail : inbox ⊆ here.inbox := by rw [hinbox]; exact List.subset_cons_self _ _
  have hshrink : Correlates { here with inbox } there :=
    h.shrink (fun p hp ↦ ⟨p, hp, rfl, rfl, rfl⟩) htail (List.Subset.refl _)
  unfold ipcComponentDispatch
  split
  next pending pendings hsome =>
    obtain ⟨hpending, hawaits, hpendings⟩ := dispatchToPending_some hsome
    have hseq : message.msg.seq = pending.seq := by
      simp only [awaits, Bool.and_eq_true, beq_iff_eq] at hawaits
      exact hawaits.1.symm
    have horigin := h.arriving pending hpending message hmem hseq
    apply Correlates.record ⟨message, .pending pending.request⟩
      (h.shrink hpendings htail (List.Subset.refl _))
    constructor
    · intro request houtcome
      cases houtcome
      exact horigin
    · intro request hrequest
      cases horigin.symm.trans hrequest
  next hnone =>
    split
    next hobject =>
      have hseq := h.seq_ne_of_none hmem hnone
      apply Correlates.record ⟨message, .object⟩ (hshrink.handle message hseq)
      constructor
      · intro request houtcome
        cases houtcome
      · intro _ _
        rfl
    next hobject =>
      apply Correlates.record ⟨message, .unhandled⟩ hshrink
      constructor
      · intro request houtcome
        cases houtcome
      · intro request hrequest
        exact absurd (h.addressed message hmem request hrequest) hobject

/-- What the peer sees of a dispatch. -/
theorem ipcComponentDispatch_peer (h : Correlates there here)
    (hinbox : here.inbox = message :: inbox) :
    Correlates there (ipcComponentDispatch { here with inbox } message) := by
  have hmem : message ∈ here.inbox := by rw [hinbox]; exact List.mem_cons_self
  have htail : inbox ⊆ here.inbox := by rw [hinbox]; exact List.subset_cons_self _ _
  unfold ipcComponentDispatch
  split
  next => exact h.of_peer rfl rfl htail (fun m hm ↦ .inl hm)
  next =>
    split
    next hobject =>
      have hhandling : ∀ m ∈ here.handling ++ [message], m ∈ here.handling ∨
          m ∈ here.inbox ∧ dispatchToObject here m.msg = true := by
        intro m hm
        cases List.mem_append.mp hm with
        | inl hold => exact .inl hold
        | inr hnew =>
          rw [List.mem_singleton.mp hnew]
          exact .inr ⟨hmem, hobject⟩
      exact h.of_peer rfl rfl htail hhandling
    next => exact h.of_peer rfl rfl htail (fun m hm ↦ .inl hm)

theorem ipcComponentPump_correlating (h : Correlating s) (x : Side) :
    Correlating (ipcComponentPump s x) := by
  have hpeer := h x.peer
  rw [Side.peer_peer] at hpeer
  unfold ipcComponentPump
  split
  next => exact h
  next message inbox hinbox =>
    apply correlating_of_pair x
    · simp only [Function.update_self, ne_eq, Side.peer_ne, not_false_eq_true,
        Function.update_of_ne]
      exact ipcComponentDispatch_correlates (h x) hinbox
    · simp only [Function.update_self, ne_eq, Side.peer_ne, not_false_eq_true,
        Function.update_of_ne]
      exact ipcComponentDispatch_peer hpeer hinbox

theorem ipcNext_correlating {action : IpcAction} (h : Correlating s)
    (haddressed : Addressed s action) (hunused : Unused s action)
    (hnext : ipcNext s action = .ok t) : Correlating t := by
  cases action with
  | request x port req expects =>
    cases hnext
    exact ipcComponentRequest_correlating h haddressed hunused
  | respond x req resp => exact ipcComponentRespond_correlating h hnext
  | pump x =>
    cases hnext
    exact ipcComponentPump_correlating h x
  | resume x pending => exact ipcComponentResume_correlating h hnext

/-- Requests to objects of the other component, with numbers that are free when they are sent:
responses complete the requests that they answer, and requests reach an object. -/
theorem requests_correlated {s t : Components} {actions : List IpcAction} (hs : Initial s)
    (hrun : Run (Guarded (Guarded (Succeeds ipcNext) Addressed) Unused) s actions t) :
    ∀ x, ∀ e ∈ (t x).pumped, Correlated e := by
  have hinv : Correlating t := by
    apply Run.invariant _ hrun (initial_correlating hs)
    intro s action t h hstep
    exact ipcNext_correlating h hstep.2.1 hstep.1 hstep.2.2
  intro x e he
  exact (hinv x).correlated e he

/-- Two components with one object each, for the same protocol. -/
def twoComponents : Components
  | .left => ⟨1, 0, 0, [], [⟨0, [7]⟩], [], [], []⟩
  | .right => ⟨2, 0, 0, [], [⟨0, [7]⟩], [], [], []⟩

def plainMsg : BrMsg := { (default : BrMsg) with prot := 7 }

theorem twoComponents_initial : Initial twoComponents where
  ids := by decide
  empty := by
    intro x
    cases x <;> decide

/-- A request, its handler, its response and the end of the wait for it. -/
theorem requests_correlated_exchange :
    ∃ t, Run (Guarded (Guarded (Succeeds ipcNext) Addressed) Unused) twoComponents
      [.request .left 0 plainMsg true, .pump .right,
        .respond .right ⟨requestMsg (twoComponents .left) (twoComponents .right) 0 plainMsg,
          .request ⟨.left, 0⟩⟩ plainMsg, .pump .left] t ∧
      (t .left).pumped.map (·.outcome) = [.pending ⟨.left, 0⟩] ∧
      ∀ x, ∀ e ∈ (t x).pumped, Correlated e := by
  have hunused : Unused twoComponents (.request .left 0 plainMsg true) := by
    constructor
    · intro y
      cases y <;> decide
    · decide
  have hrun : Run (Guarded (Guarded (Succeeds ipcNext) Addressed) Unused) twoComponents
      [.request .left 0 plainMsg true, .pump .right,
        .respond .right ⟨requestMsg (twoComponents .left) (twoComponents .right) 0 plainMsg,
          .request ⟨.left, 0⟩⟩ plainMsg, .pump .left] _ :=
    .cons ⟨hunused, by simp [Addressed, twoComponents, plainMsg, Side.peer], rfl⟩ <|
      .cons ⟨trivial, trivial, rfl⟩ <| .cons ⟨trivial, trivial, rfl⟩ <|
      .cons ⟨trivial, trivial, rfl⟩ <| .nil _
  exact ⟨_, hrun, by decide, requests_correlated twoComponents_initial hrun⟩

/-- Two first requests that cross: the request of the peer is taken for the response. -/
theorem requests_correlated_crossing :
    ¬ ∀ (s t : Components) (actions : List IpcAction), Initial s →
      Run (Guarded (Succeeds ipcNext) Addressed) s actions t →
      ∀ x, ∀ e ∈ (t x).pumped, Correlated e := by
  intro hall
  have hrun : Run (Guarded (Succeeds ipcNext) Addressed) twoComponents
      [.request .left 0 plainMsg true, .request .right 0 plainMsg true, .pump .left] _ :=
    .cons ⟨by simp [Addressed, twoComponents, plainMsg, Side.peer], rfl⟩ <|
      .cons ⟨by simp [Addressed, twoComponents, plainMsg, Side.peer, ipcComponentRequest], rfl⟩ <|
      .cons ⟨trivial, rfl⟩ <| .nil _
  have hall := hall _ _ _ twoComponents_initial hrun .left
    ⟨⟨requestMsg (twoComponents .right) (twoComponents .left) 0 plainMsg,
      .request ⟨.right, 0⟩⟩, .pending ⟨.left, 0⟩⟩ (by decide)
  cases hall.2 _ rfl

end Brutal.Ipc
