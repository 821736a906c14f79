import Brutal.Base.Abi
import Brutal.Ds.Ring
import Brutal.Kernel.Domain

/-!
# Channels

`kernel/parcel.c` and `kernel/channel.c`.  A message that names objects by handles of the sender
travels as a parcel, which holds the objects themselves; unpacking it gives the receiver handles
of its own.  The channel is a ring of parcels.
-/

namespace Brutal.Kernel

open Base Ds Lib

variable {α : Type*}

/-- `Parcel`, at the type of the objects that it holds references to. -/
structure Parcel (α : Type*) where
  msg : BrMsg
  objs : Vector (Option α) brMsgArgCount
deriving DecidableEq, Repr, Inhabited

/-- The argument of the message is flagged as a handle. -/
def isHandle (msg : BrMsg) (i : ℕ) : Bool := msg.flags &&& brMsgHnd i != 0

/-- The loop of `parcel_pack`.  On a bad handle the objects found so far are still in the parcel,
for `parcel_deinit` to drop. -/
def parcelPackObjs (typeOf : α → BrType) (domain : Domain α) (msg : BrMsg) :
    List (Fin brMsgArgCount) → Vector (Option α) brMsgArgCount →
      Except Fault (BrResult × Vector (Option α) brMsgArgCount)
  | [], objs => .ok (.success, objs)
  | i :: rest, objs =>
    if isHandle msg i then do
      match ← domainLookup typeOf domain (getElem msg.args i i.isLt) .any with
      | some object => parcelPackObjs typeOf domain msg rest (objs.set i (some object) i.isLt)
      | none => .ok (.badHandle, objs)
    else parcelPackObjs typeOf domain msg rest objs

/-- `parcel_pack` -/
def parcelPack (typeOf : α → BrType) (msg : BrMsg) (domain : Option (Domain α)) :
    Except Fault (BrResult × Parcel α) :=
  let parcel : Parcel α := { (default : Parcel α) with msg := msg }
  match domain with
  | none => .ok (.success, parcel)
  | some domain => do
    let (result, objs) ← parcelPackObjs typeOf domain msg (List.finRange _) parcel.objs
    pure (result, { parcel with objs := objs })

/-- The loop of `parcel_unpack`. -/
def parcelUnpackObjs (objs : Vector (Option α) brMsgArgCount) :
    List (Fin brMsgArgCount) → BrMsg → Domain α → Except Fault (BrMsg × Domain α)
  | [], msg, domain => .ok (msg, domain)
  | i :: rest, msg, domain =>
    match getElem objs i i.isLt with
    | some object => do
      let (handle, domain) ← domainAdd domain object
      parcelUnpackObjs objs rest { msg with args := msg.args.set i handle i.isLt } domain
    | none => parcelUnpackObjs objs rest msg domain

/-- `parcel_unpack`, with the domain that it leaves. -/
def parcelUnpack (self : Parcel α) (domain : Option (Domain α)) :
    Except Fault (BrResult × BrMsg × Option (Domain α)) :=
  match domain with
  | none => .ok (.success, self.msg, none)
  | some domain => do
    let (msg, domain) ← parcelUnpackObjs self.objs (List.finRange _) self.msg domain
    pure (.success, msg, some domain)

/-- `IPC_CHANNEL_SIZE` -/
def ipcChannelSize : ℕ := 256

/-- `Channel`, without the lock. -/
structure Channel (α : Type*) where
  msgs : Ds.Ring (Parcel α)
deriving DecidableEq

/-- `channel_create` -/
def channelCreate : Channel α := ⟨ringInit ipcChannelSize (by decide)⟩

/-- `channel_send_unlock` -/
def channelSendUnlock (typeOf : α → BrType) (self : Channel α) (domain : Option (Domain α))
    (msg : BrMsg) : Except Fault (BrResult × Channel α) :=
  if ringFull self.msgs then .ok (.channelFull, self)
  else do
    let (result, parcel) ← parcelPack typeOf msg domain
    if result ≠ .success then pure (result, self)
    else pure (.success, ⟨(ringPush self.msgs parcel).2⟩)

/-- `channel_recv_unlock`, which leaves the message as it was when there is none to receive. -/
def channelRecvUnlock (self : Channel α) (domain : Option (Domain α)) (msg : BrMsg) :
    Except Fault (BrResult × BrMsg × Option (Domain α) × Channel α) :=
  match ringPop self.msgs with
  | (none, _) => .ok (.channelEmpty, msg, domain, self)
  | (some parcel, msgs) => do
    let (result, msg, domain) ← parcelUnpack parcel domain
    pure (result, msg, domain, ⟨msgs⟩)

/-- The received message is the sent one, up to the arguments that are handles. -/
structure SameMessage (sent received : BrMsg) : Prop where
  flags : received.flags = sent.flags
  fromAddr : received.fromAddr = sent.fromAddr
  toAddr : received.toAddr = sent.toAddr
  prot : received.prot = sent.prot
  type : received.type = sent.type
  seq : received.seq = sent.seq
  args : ∀ i : Fin brMsgArgCount, isHandle sent i = false →
    getElem received.args i i.isLt = getElem sent.args i i.isLt

theorem SameMessage.refl (msg : BrMsg) : SameMessage msg msg :=
  ⟨rfl, rfl, rfl, rfl, rfl, rfl, fun _ _ ↦ rfl⟩

/-- Only arguments that are flagged as handles are replaced by objects. -/
def Parcel.Flagged (parcel : Parcel α) : Prop :=
  ∀ i : Fin brMsgArgCount, (getElem parcel.objs i i.isLt).isSome = true →
    isHandle parcel.msg i = true

theorem parcelPackObjs_flagged {typeOf : α → BrType} {domain : Domain α} {msg : BrMsg}
    {indices : List (Fin brMsgArgCount)} {objs objs' : Vector (Option α) brMsgArgCount}
    {result : BrResult} (h : parcelPackObjs typeOf domain msg indices objs = .ok (result, objs'))
    (hobjs : Parcel.Flagged ⟨msg, objs⟩) :
    (result = .success ∨ result = .badHandle) ∧ Parcel.Flagged ⟨msg, objs'⟩ := by
  induction indices generalizing objs with
  | nil =>
    cases h
    exact ⟨Or.inl rfl, hobjs⟩
  | cons i rest ih =>
    rw [parcelPackObjs] at h
    split at h
    next hhandle =>
      rw [bind_eq_ok] at h
      obtain ⟨found, _, h⟩ := h
      cases found with
      | none =>
        cases h
        exact ⟨Or.inr rfl, hobjs⟩
      | some object =>
        apply ih h
        intro j hj
        by_cases hij : i = j
        · rwa [← hij]
        · have hval : (i : ℕ) ≠ j := fun heq ↦ hij (Fin.ext heq)
          apply hobjs j
          simpa [Vector.getElem_set, hval] using hj
    next => exact ih h hobjs

theorem parcelPack_spec {typeOf : α → BrType} {msg : BrMsg} {domain : Option (Domain α)}
    {result : BrResult} {parcel : Parcel α}
    (h : parcelPack typeOf msg domain = .ok (result, parcel)) :
    (result = .success ∨ result = .badHandle) ∧ parcel.msg = msg ∧ parcel.Flagged := by
  have hempty : Parcel.Flagged { (default : Parcel α) with msg := msg } := by
    intro i hi
    simp [default, instInhabitedParcel.default] at hi
  cases domain with
  | none =>
    cases h
    exact ⟨Or.inl rfl, rfl, hempty⟩
  | some domain =>
    simp only [parcelPack, bind_eq_ok, pure_eq_ok, Prod.exists, Prod.mk.injEq] at h
    obtain ⟨result', objs, hpack, rfl, rfl⟩ := h
    obtain ⟨hresult, hflagged⟩ := parcelPackObjs_flagged hpack hempty
    exact ⟨hresult, rfl, hflagged⟩

theorem parcelUnpackObjs_same {parcel : Parcel α} (hflagged : parcel.Flagged)
    {indices : List (Fin brMsgArgCount)} {msg msg' : BrMsg} {domain domain' : Domain α}
    (h : parcelUnpackObjs parcel.objs indices msg domain = .ok (msg', domain'))
    (hmsg : SameMessage parcel.msg msg) : SameMessage parcel.msg msg' := by
  induction indices generalizing msg domain with
  | nil =>
    cases h
    exact hmsg
  | cons i rest ih =>
    rw [parcelUnpackObjs] at h
    split at h
    next object hobject =>
      simp only [bind_eq_ok, Prod.exists] at h
      obtain ⟨handle, added, _, h⟩ := h
      apply ih h
      refine { hmsg with args := fun j hj ↦ ?_ }
      have hhandle := hflagged i (by rw [hobject]; rfl)
      have hne : (i : ℕ) ≠ j := by
        intro heq
        rw [heq, hj] at hhandle
        cases hhandle
      simpa [Vector.getElem_set, hne] using hmsg.args j hj
    next => exact ih h hmsg

theorem parcelUnpack_spec {parcel : Parcel α} (hflagged : parcel.Flagged)
    {domain domain' : Option (Domain α)} {result : BrResult} {msg : BrMsg}
    (h : parcelUnpack parcel domain = .ok (result, msg, domain')) :
    result = .success ∧ SameMessage parcel.msg msg := by
  cases domain with
  | none =>
    cases h
    exact ⟨rfl, SameMessage.refl _⟩
  | some domain =>
    simp only [parcelUnpack, bind_eq_ok, pure_eq_ok, Prod.exists, Prod.mk.injEq] at h
    obtain ⟨msg', domain', hunpack, rfl, rfl, rfl⟩ := h
    exact ⟨rfl, parcelUnpackObjs_same hflagged hunpack (SameMessage.refl _)⟩

/-- The three ways in which `channel_send_unlock` returns. -/
theorem channelSendUnlock_cases {typeOf : α → BrType} {self self' : Channel α}
    {domain : Option (Domain α)} {msg : BrMsg} {result : BrResult}
    (h : channelSendUnlock typeOf self domain msg = .ok (result, self')) :
    (result = .channelFull ∧ ringFull self.msgs = true ∧ self' = self) ∨
      (result = .badHandle ∧ self' = self) ∨
      (result = .success ∧ ringFull self.msgs = false ∧ ∃ parcel,
        parcelPack typeOf msg domain = .ok (.success, parcel) ∧
        self'.msgs.capacity = self.msgs.capacity ∧
        contents self'.msgs = contents self.msgs ++ [parcel]) := by
  unfold channelSendUnlock at h
  split at h
  next hfull =>
    cases h
    exact Or.inl ⟨rfl, hfull, rfl⟩
  next hroom =>
    simp only [bind_eq_ok, Prod.exists] at h
    obtain ⟨result', parcel, hpack, h⟩ := h
    rcases (parcelPack_spec hpack).1 with rfl | rfl
    · cases h
      right; right
      rcases ringPush_cases self.msgs parcel with ⟨hfull, _⟩ | ⟨msgs, hpush, hcapacity, happend⟩
      · exact absurd (by rw [ringFull, hfull, beq_self_eq_true]) hroom
      · rw [hpush]
        exact ⟨rfl, Bool.not_eq_true _ ▸ hroom, parcel, hpack, hcapacity, happend⟩
    · cases h
      exact Or.inr (Or.inl ⟨rfl, rfl⟩)

/-- The two ways in which `channel_recv_unlock` returns. -/
theorem channelRecvUnlock_cases {self self' : Channel α} {domain domain' : Option (Domain α)}
    {msg msg' : BrMsg} {result : BrResult}
    (h : channelRecvUnlock self domain msg = .ok (result, msg', domain', self')) :
    (result = .channelEmpty ∧ msg' = msg ∧ domain' = domain ∧ self' = self) ∨
      ∃ parcel, parcelUnpack parcel domain = .ok (result, msg', domain') ∧
        self'.msgs.capacity = self.msgs.capacity ∧
        contents self.msgs = parcel :: contents self'.msgs := by
  unfold channelRecvUnlock at h
  rcases ringPop_cases self.msgs with ⟨_, hpop⟩ | ⟨parcel, msgs, hpop, hcapacity, hcons⟩
  · rw [hpop] at h
    cases h
    exact Or.inl ⟨rfl, rfl, rfl, rfl⟩
  · rw [hpop] at h
    simp only [bind_eq_ok, pure_eq_ok, Prod.exists, Prod.mk.injEq] at h
    obtain ⟨result', msg'', domain'', hunpack, rfl, rfl, rfl, rfl⟩ := h
    exact Or.inr ⟨parcel, hunpack, hcapacity, hcons⟩

end Brutal.Kernel
