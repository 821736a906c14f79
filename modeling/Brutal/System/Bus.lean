import Brutal.Base.Abi
import Brutal.Lib.Run
import Mathlib.Data.List.Nodup
import Mathlib.Data.Finset.Card

/-!
# Activation of services

`srvs/system/bus.c` and `srvs/system/unit.c`.  A unit lists the protocols that it consumes and is
started when it is complete: every capability that arrives is put into the first slot of its
protocol, and the unit counts how often that happened.  Every call of `bal_task_exec` is kept beside
the unit for which it was made.

The counter and the lengths of vectors are natural numbers.  A unit never counts more capabilities
than the bus holds, whose number is an `int` itself.
-/

namespace Brutal.System

open Base Lib

variable {protos : List UInt32} {cap : IpcCap} {consume caps : List IpcCap} {manifest : Manifest}
  {unit : ServiceUnit}

/-- `IpcCap` -/
structure IpcCap where
  addr : BrAddr
  proto : UInt32
deriving DecidableEq, Repr, Inhabited

/-- `BalMem` -/
structure BalMem where
  off : UInt64
  len : UInt64
  buf : UInt64
  handle : UInt64
deriving DecidableEq, Repr

inductive UnitState where
  | pending
  | ready
  | running
deriving DecidableEq, Repr

/-- The arguments of a call of `bal_task_exec`, with the name given to `bal_task_init`. -/
structure TaskExec where
  name : String
  payload : BalMem
  rights : UInt64
  caps : List IpcCap
deriving DecidableEq, Repr

/-- `Unit`, with the calls of `bal_task_exec` made for it. -/
structure ServiceUnit where
  state : UnitState
  name : String
  ready : ℕ
  payload : BalMem
  consume : List IpcCap
  rights : UInt64
  starts : List TaskExec
deriving DecidableEq, Repr

/-- What the manifest of a module says about its unit. -/
structure Manifest where
  name : String
  payload : BalMem
  rights : UInt64
  consume : List UInt32
deriving DecidableEq, Repr

/-- `unit_init` -/
def unitInit (name : String) (payload : BalMem) : ServiceUnit where
  state := .pending
  name := name
  ready := 0
  payload := payload
  consume := []
  rights := 0
  starts := []

/-- `unit_consume` -/
def unitConsume (unit : ServiceUnit) (proto : UInt32) : ServiceUnit :=
  { unit with consume := unit.consume ++ [⟨⟨0, 0⟩, proto⟩] }

/-- `unit_init_from_module`, once the manifest is read. -/
def unitInitFromModule (manifest : Manifest) : ServiceUnit :=
  let unit := unitInit manifest.name manifest.payload
  let unit := manifest.consume.foldl unitConsume unit
  { unit with rights := unit.rights ||| manifest.rights }

/-- The slots after the loop of `unit_provide`, if one of them takes the capability. -/
def provideSlot (newCap : IpcCap) : List IpcCap → Option (List IpcCap)
  | [] => none
  | cap :: rest =>
    if cap.proto = newCap.proto then some (newCap :: rest)
    else (provideSlot newCap rest).map (cap :: ·)

/-- `unit_provide` -/
def unitProvide (unit : ServiceUnit) (newCap : IpcCap) : ServiceUnit :=
  match provideSlot newCap unit.consume with
  | none => unit
  | some consume =>
    { unit with
      consume := consume
      ready := unit.ready + 1
      state := if unit.ready + 1 = consume.length then .ready else unit.state }

/-- `unit_start` -/
def unitStart (unit : ServiceUnit) : ServiceUnit :=
  if unit.state = .ready then
    { unit with
      starts := unit.starts ++ [⟨unit.name, unit.payload, unit.rights, unit.consume⟩]
      state := .running }
  else unit

/-- `Bus` -/
structure Bus where
  units : List ServiceUnit
  caps : List IpcCap
deriving DecidableEq, Repr

/-- `bus_init` -/
def busInit : Bus := ⟨[], []⟩

/-- The body of the loops of `bus_expose` and `bus_activate`. -/
def offer (unit : ServiceUnit) (cap : IpcCap) : ServiceUnit :=
  let unit := unitProvide unit cap
  if unit.state = .ready then unitStart unit else unit

/-- `bus_expose` -/
def busExpose (bus : Bus) (cap : IpcCap) : Bus where
  units := bus.units.map (offer · cap)
  caps := bus.caps ++ [cap]

/-- `bus_activate` -/
def busActivate (bus : Bus) (unit : ServiceUnit) : Bus where
  units := bus.units ++ [bus.caps.foldl offer unit]
  caps := bus.caps

inductive Action where
  | activate (manifest : Manifest)
  | expose (cap : IpcCap)
deriving DecidableEq, Repr

def busNext (bus : Bus) : Action → Bus
  | .activate manifest => busActivate bus (unitInitFromModule manifest)
  | .expose cap => busExpose bus cap

/-- One call of the bus. -/
def BusStep (bus : Bus) (action : Action) (bus' : Bus) : Prop :=
  busNext bus action = bus'

/-- The capabilities exposed by a sequence of calls. -/
def exposures (actions : List Action) : List IpcCap :=
  actions.filterMap fun
    | .activate _ => none
    | .expose cap => some cap

/-- The units activated by a sequence of calls. -/
def activations (actions : List Action) : List Manifest :=
  actions.filterMap fun
    | .activate manifest => some manifest
    | .expose _ => none

/-- The slots of a unit before any capability arrives. -/
def slots (protos : List UInt32) : List IpcCap :=
  protos.map fun proto ↦ ⟨⟨0, 0⟩, proto⟩

/-- The unit after the bus has offered it the capabilities. -/
def offered (manifest : Manifest) (caps : List IpcCap) : ServiceUnit :=
  caps.foldl offer (unitInitFromModule manifest)

theorem offered_snoc (manifest : Manifest) (caps : List IpcCap) (cap : IpcCap) :
    offered manifest (caps ++ [cap]) = offer (offered manifest caps) cap := by
  rw [offered, List.foldl_append]
  rfl

/-- The bus holds the exposed capabilities, and its units have been offered all of them, whenever
they were activated. -/
def Offered (actions : List Action) (bus : Bus) : Prop :=
  bus.caps = exposures actions ∧
    bus.units = (activations actions).map (offered · (exposures actions))

theorem Offered.next {actions : List Action} {bus : Bus} (h : Offered actions bus)
    (action : Action) : Offered (actions ++ [action]) (busNext bus action) := by
  have hcaps : bus.caps = exposures actions := h.1
  have hunits : bus.units = (activations actions).map (offered · (exposures actions)) := h.2
  cases action with
  | activate manifest =>
    constructor
    · simpa [busNext, busActivate, exposures] using hcaps
    · simp [busNext, busActivate, hunits, hcaps, exposures, activations, offered]
  | expose cap =>
    constructor
    · simpa [busNext, busExpose, exposures] using hcaps
    · simp [busNext, busExpose, hunits, exposures, activations, offered_snoc]

/-- The protocols of the capabilities that a unit counts, in the order of their arrival. -/
def wanted (protos : List UInt32) (caps : List IpcCap) : List UInt32 :=
  (caps.map (·.proto)).filter (· ∈ protos)

theorem wanted_snoc_of_mem (h : cap.proto ∈ protos) (caps : List IpcCap) :
    wanted protos (caps ++ [cap]) = wanted protos caps ++ [cap.proto] := by
  simp [wanted, h]

theorem wanted_snoc_of_notMem (h : cap.proto ∉ protos) (caps : List IpcCap) :
    wanted protos (caps ++ [cap]) = wanted protos caps := by
  simp [wanted, h]

/-- Slots keep their protocols, and what is put into them was offered. -/
structure Filled (protos : List UInt32) (caps consume : List IpcCap) : Prop where
  protos_eq : consume.map (·.proto) = protos
  exposed : protos.Nodup → ∀ slot ∈ consume, slot.proto ∈ caps.map (·.proto) → slot ∈ caps

theorem provideSlot_eq_none (h : provideSlot cap consume = none) :
    cap.proto ∉ consume.map (·.proto) := by
  induction consume with
  | nil => exact List.not_mem_nil
  | cons slot rest ih =>
    rw [provideSlot] at h
    split at h
    · cases h
    · next hslot =>
      have hrest : provideSlot cap rest = none := Option.map_eq_none_iff.mp h
      have hproto : cap.proto ≠ slot.proto := fun heq ↦ hslot heq.symm
      simpa [hproto] using ih hrest

/-- The slot that takes a capability is the first one of its protocol; the others stay. -/
theorem provideSlot_eq_some {consume consume' : List IpcCap}
    (h : provideSlot cap consume = some consume') :
    ∃ before slot after, consume = before ++ slot :: after ∧ slot.proto = cap.proto ∧
      consume' = before ++ cap :: after := by
  induction consume generalizing consume' with
  | nil => cases h
  | cons slot rest ih =>
    rw [provideSlot] at h
    split at h
    · next hslot =>
      cases h
      exact ⟨[], slot, rest, rfl, hslot, rfl⟩
    · obtain ⟨rest', hrest, rfl⟩ := Option.map_eq_some_iff.mp h
      obtain ⟨before, first, after, rfl, hproto, rfl⟩ := ih hrest
      exact ⟨slot :: before, first, after, rfl, hproto, rfl⟩

theorem Filled.skip (h : Filled protos caps consume) (hcap : cap.proto ∉ protos) :
    Filled protos (caps ++ [cap]) consume := by
  refine ⟨h.protos_eq, fun hnodup slot hslot hmem ↦ ?_⟩
  have hne : slot.proto ≠ cap.proto := by
    intro heq
    apply hcap
    rw [← h.protos_eq, ← heq]
    exact List.mem_map_of_mem hslot
  have hbefore : slot.proto ∈ caps.map (·.proto) := by simpa [hne] using hmem
  exact List.mem_append_left _ (h.exposed hnodup slot hslot hbefore)

theorem Filled.provide {caps consume consume' : List IpcCap} (h : Filled protos caps consume)
    (hprovide : provideSlot cap consume = some consume') :
    cap.proto ∈ protos ∧ Filled protos (caps ++ [cap]) consume' := by
  obtain ⟨before, first, after, rfl, hproto, rfl⟩ := provideSlot_eq_some hprovide
  have hprotos : (before ++ cap :: after).map (·.proto) = protos := by
    rw [← h.protos_eq]
    simp [hproto]
  refine ⟨?_, hprotos, fun hnodup slot hslot hmem ↦ ?_⟩
  · rw [← hprotos]
    simp
  · by_cases heq : slot = cap
    · rw [heq]
      simp
    · -- The other slots hold other protocols, because no protocol is consumed twice.
      have hother : slot ∈ before ++ after := by
        simp only [List.mem_append, List.mem_cons] at hslot ⊢
        tauto
      have hne : slot.proto ≠ cap.proto := by
        rw [← hprotos, List.map_append, List.map_cons, List.nodup_middle, List.nodup_cons,
          ← List.map_append] at hnodup
        intro hsame
        apply hnodup.1
        rw [← hsame]
        exact List.mem_map_of_mem hother
      have hslot' : slot ∈ before ++ first :: after := by
        simp only [List.mem_append, List.mem_cons] at hother ⊢
        tauto
      have hbefore : slot.proto ∈ caps.map (·.proto) := by simpa [hne] using hmem
      exact List.mem_append_left _ (h.exposed hnodup slot hslot' hbefore)

/-! ## When a unit is started -/

/-- A unit that was offered the capabilities has counted those that it wants.  It is started when
it counts as many as it has slots, with what is in its slots at that moment. -/
structure Served (manifest : Manifest) (caps : List IpcCap) (unit : ServiceUnit) : Prop where
  name : unit.name = manifest.name
  payload : unit.payload = manifest.payload
  rights : unit.rights = manifest.rights
  filled : Filled manifest.consume caps unit.consume
  ready : unit.ready = (wanted manifest.consume caps).length
  waiting : unit.ready < manifest.consume.length ∨ manifest.consume = [] →
    unit.state = .pending ∧ unit.starts = []
  started : manifest.consume ≠ [] → manifest.consume.length ≤ unit.ready →
    unit.state = .running ∧ ∃ before consume, before <+: caps ∧
      (wanted manifest.consume before).length = manifest.consume.length ∧
      Filled manifest.consume before consume ∧
      unit.starts = [⟨manifest.name, manifest.payload, manifest.rights, consume⟩]

theorem foldl_unitConsume (protos : List UInt32) (unit : ServiceUnit) :
    protos.foldl unitConsume unit = { unit with consume := unit.consume ++ slots protos } := by
  induction protos generalizing unit with
  | nil => simp [slots]
  | cons proto rest ih =>
    rw [List.foldl_cons, ih]
    simp [unitConsume, slots]

theorem Served.init (manifest : Manifest) : Served manifest [] (unitInitFromModule manifest) := by
  have hunit : unitInitFromModule manifest =
      ⟨.pending, manifest.name, 0, manifest.payload, slots manifest.consume, manifest.rights,
        []⟩ := by
    simp [unitInitFromModule, unitInit, foldl_unitConsume]
  rw [hunit]
  refine ⟨rfl, rfl, rfl, ⟨?_, ?_⟩, rfl, fun _ ↦ ⟨rfl, rfl⟩, ?_⟩
  · simp [slots, Function.comp_def]
  · intro _ slot _ hmem
    cases hmem
  · intro hne hle
    exact absurd (List.length_eq_zero_iff.mp (Nat.le_zero.mp hle)) hne

/-- A capability that the unit does not consume changes nothing. -/
theorem Served.skip (h : Served manifest caps unit) (hcap : cap.proto ∉ manifest.consume) :
    Served manifest (caps ++ [cap]) unit := by
  have hready : unit.ready = (wanted manifest.consume (caps ++ [cap])).length := by
    rw [wanted_snoc_of_notMem hcap]
    exact h.ready
  refine ⟨h.name, h.payload, h.rights, h.filled.skip hcap, hready, h.waiting, ?_⟩
  intro hne hle
  obtain ⟨hstate, before, consume, hbefore, hrest⟩ := h.started hne hle
  exact ⟨hstate, before, consume, hbefore.trans (List.prefix_append _ _), hrest⟩

theorem offer_eq (unit : ServiceUnit) (cap : IpcCap) :
    offer unit cap = unitStart (unitProvide unit cap) := by
  by_cases hstate : (unitProvide unit cap).state = .ready
  · exact if_pos hstate
  · rw [offer, if_neg hstate, unitStart, if_neg hstate]

theorem unitProvide_of_provideSlot (h : provideSlot cap unit.consume = some consume) :
    unitProvide unit cap =
      { unit with
        consume := consume
        ready := unit.ready + 1
        state := if unit.ready + 1 = consume.length then .ready else unit.state } := by
  rw [unitProvide, h]

theorem Served.state_ne_ready (h : Served manifest caps unit) : unit.state ≠ .ready := by
  intro hready
  by_cases hwait : unit.ready < manifest.consume.length ∨ manifest.consume = []
  · have hstate := (h.waiting hwait).1
    rw [hready] at hstate
    cases hstate
  · push Not at hwait
    have hstate := (h.started hwait.2 hwait.1).1
    rw [hready] at hstate
    cases hstate

/-- A capability that the unit consumes is counted, and the last one starts it. -/
theorem Served.provide (h : Served manifest caps unit)
    (hprovide : provideSlot cap unit.consume = some consume) :
    Served manifest (caps ++ [cap]) (offer unit cap) := by
  have hmem : cap.proto ∈ manifest.consume := (h.filled.provide hprovide).1
  have hfilled := (h.filled.provide hprovide).2
  have hne : manifest.consume ≠ [] := List.ne_nil_of_mem hmem
  have hlength : consume.length = manifest.consume.length := by
    rw [← hfilled.protos_eq, List.length_map]
  have hcount : unit.ready + 1 = (wanted manifest.consume (caps ++ [cap])).length := by
    rw [wanted_snoc_of_mem hmem, List.length_append, h.ready]
    rfl
  rw [offer_eq, unitProvide_of_provideSlot hprovide, hlength]
  by_cases hlast : unit.ready + 1 = manifest.consume.length
  · -- The unit is complete: it is started with what its slots hold now.
    have hstarts : unit.starts = [] := (h.waiting (Or.inl (by omega))).2
    rw [if_pos hlast, unitStart, if_pos rfl]
    refine ⟨h.name, h.payload, h.rights, hfilled, hcount, ?_, ?_⟩
    · rintro (hlt | hnil)
      · exact absurd hlast hlt.ne
      · exact absurd hnil hne
    · intro _ _
      refine ⟨rfl, caps ++ [cap], consume, List.prefix_refl _, ?_, hfilled, ?_⟩
      · rw [← hcount, hlast]
      · simp [hstarts, h.name, h.payload, h.rights]
  · have hstart : unitStart { unit with consume := consume, ready := unit.ready + 1 } =
        { unit with consume := consume, ready := unit.ready + 1 } := if_neg h.state_ne_ready
    rw [if_neg hlast, hstart]
    refine ⟨h.name, h.payload, h.rights, hfilled, hcount, ?_, ?_⟩
    · rintro (hlt | hnil)
      · have hbefore : unit.ready + 1 < manifest.consume.length := hlt
        exact h.waiting (Or.inl (by omega))
      · exact absurd hnil hne
    · intro _ hle
      have hbefore : manifest.consume.length ≤ unit.ready + 1 := hle
      obtain ⟨hstate, before, slots, hprefix, hrest⟩ := h.started hne (by omega)
      exact ⟨hstate, before, slots, hprefix.trans (List.prefix_append _ _), hrest⟩

theorem Served.offer (h : Served manifest caps unit) (cap : IpcCap) :
    Served manifest (caps ++ [cap]) (offer unit cap) := by
  cases hprovide : provideSlot cap unit.consume with
  | none =>
    have hcap : cap.proto ∉ manifest.consume := by
      rw [← h.filled.protos_eq]
      exact provideSlot_eq_none hprovide
    have hunit : System.offer unit cap = unit := by
      simp [System.offer, unitProvide, hprovide, h.state_ne_ready]
    rw [hunit]
    exact h.skip hcap
  | some consume => exact h.provide hprovide

/-- Every unit is served, whatever it was offered. -/
theorem offered_served (manifest : Manifest) (caps : List IpcCap) :
    Served manifest caps (offered manifest caps) := by
  induction caps using List.reverseRecOn with
  | nil => exact Served.init manifest
  | append_singleton caps cap ih =>
    rw [offered_snoc]
    exact ih.offer cap

/-- Every consumed protocol was exposed. -/
def Complete (protos : List UInt32) (caps : List IpcCap) : Prop :=
  ∀ proto ∈ protos, proto ∈ caps.map (·.proto)

instance (protos : List UInt32) (caps : List IpcCap) : Decidable (Complete protos caps) :=
  List.decidableBAll (fun proto : UInt32 ↦ proto ∈ caps.map IpcCap.proto) protos

/-- The unit was started at most once, and just when all that it consumes was exposed; it was
started as its manifest says, with capabilities exposed for its slots. -/
structure ActivatedInTime (caps : List IpcCap) (manifest : Manifest) (unit : ServiceUnit) :
    Prop where
  once : unit.starts.length ≤ 1
  started : unit.starts ≠ [] ↔ Complete manifest.consume caps
  exposed : ∀ start ∈ unit.starts, start.name = manifest.name ∧
    start.payload = manifest.payload ∧ start.rights = manifest.rights ∧
    start.caps.map (·.proto) = manifest.consume ∧ ∀ cap ∈ start.caps, cap ∈ caps

/-- A unit that is complete has slots, for distinct protocols, and when it has counted as many
capabilities as it has slots, they were of distinct protocols. -/
def Countable (protos : List UInt32) (caps : List IpcCap) : Prop :=
  (Complete protos caps → protos ≠ [] ∧ protos.Nodup) ∧
    (protos.length ≤ (wanted protos caps).length →
      ((wanted protos caps).take protos.length).Nodup)

instance (protos : List UInt32) (caps : List IpcCap) : Decidable (Countable protos caps) :=
  inferInstanceAs (Decidable (_ ∧ _))

theorem wanted_subset (protos : List UInt32) (caps : List IpcCap) :
    wanted protos caps ⊆ protos := by
  intro proto hproto
  simpa using (List.mem_filter.mp hproto).2

theorem mem_wanted {proto : UInt32} :
    proto ∈ wanted protos caps ↔ proto ∈ caps.map (·.proto) ∧ proto ∈ protos := by
  rw [wanted, List.mem_filter, decide_eq_true_iff]

/-- Distinct protocols of the unit, as many as it has slots, are all that it consumes. -/
theorem subset_of_nodup {protos found : List UInt32} (hnodup : found.Nodup)
    (hsub : found ⊆ protos) (hlength : found.length = protos.length) :
    protos ⊆ found ∧ protos.Nodup := by
  have hperm : found.Subperm protos := List.subperm_of_subset hnodup hsub
  have heq : found.Perm protos := hperm.perm_of_length_le hlength.ge
  exact ⟨heq.symm.subset, heq.nodup_iff.mp hnodup⟩

/-- A unit that counts the right capabilities has counted enough of them exactly when all were
exposed. -/
theorem Countable.complete_iff (h : Countable protos caps) :
    Complete protos caps ↔ protos ≠ [] ∧ protos.length ≤ (wanted protos caps).length := by
  constructor
  · intro hcomplete
    obtain ⟨hne, hnodup⟩ := h.1 hcomplete
    have hsub : protos ⊆ wanted protos caps :=
      fun proto hproto ↦ mem_wanted.mpr ⟨hcomplete proto hproto, hproto⟩
    exact ⟨hne, (List.subperm_of_subset hnodup hsub).length_le⟩
  · rintro ⟨_, hlength⟩ proto hproto
    have hsub : (wanted protos caps).take protos.length ⊆ protos :=
      List.Subset.trans (List.take_subset _ _) (wanted_subset protos caps)
    have hfound := (subset_of_nodup (h.2 hlength) hsub (List.length_take_of_le hlength)).1 hproto
    exact (mem_wanted.mp (List.take_subset _ _ hfound)).1

theorem wanted_mono {before caps : List IpcCap} (h : before <+: caps) :
    wanted protos before <+: wanted protos caps :=
  (h.map _).filter _

/-- A unit is activated in time as long as it counts the right capabilities. -/
theorem Served.activatedInTime (h : Served manifest caps unit)
    (hcount : Countable manifest.consume caps) : ActivatedInTime caps manifest unit := by
  by_cases hcomplete : Complete manifest.consume caps
  · obtain ⟨hne, hlength⟩ := hcount.complete_iff.mp hcomplete
    obtain ⟨_, before, consume, hprefix, hbefore, hfilled, hstarts⟩ :=
      h.started hne (h.ready ▸ hlength)
    have hnodup : manifest.consume.Nodup := (hcount.1 hcomplete).2
    have hwanted : wanted manifest.consume before =
        (wanted manifest.consume caps).take manifest.consume.length := by
      rw [← hbefore]
      exact List.prefix_iff_eq_take.mp (wanted_mono hprefix)
    have hfound : manifest.consume ⊆ wanted manifest.consume before :=
      (subset_of_nodup (hwanted ▸ hcount.2 hlength) (wanted_subset _ _) hbefore).1
    refine ⟨by simp [hstarts], by simp [hstarts, hcomplete], ?_⟩
    intro start hstart
    rw [hstarts, List.mem_singleton] at hstart
    subst hstart
    refine ⟨rfl, rfl, rfl, hfilled.protos_eq, fun cap hcap ↦ hprefix.subset ?_⟩
    apply hfilled.exposed hnodup cap hcap
    have hproto : cap.proto ∈ manifest.consume := by
      rw [← hfilled.protos_eq]
      exact List.mem_map_of_mem hcap
    exact (mem_wanted.mp (hfound hproto)).1
  · have hwait : unit.ready < manifest.consume.length ∨ manifest.consume = [] := by
      rw [hcount.complete_iff] at hcomplete
      rw [h.ready]
      by_contra hnot
      push Not at hnot
      exact hcomplete ⟨hnot.2, hnot.1⟩
    have hstarts : unit.starts = [] := (h.waiting hwait).2
    refine ⟨by simp [hstarts], by simp [hstarts, hcomplete], ?_⟩
    intro start hstart
    rw [hstarts] at hstart
    cases hstart

/-- After the call, every unit counts the right capabilities. -/
def CountsDistinct (bus : Bus) : Action → Prop
  | .activate manifest => Countable manifest.consume bus.caps
  | .expose cap => ∀ unit ∈ bus.units, Countable (unit.consume.map (·.proto)) (bus.caps ++ [cap])

instance (bus : Bus) (action : Action) : Decidable (CountsDistinct bus action) :=
  match action with
  | .activate manifest => inferInstanceAs (Decidable (Countable manifest.consume bus.caps))
  | .expose cap => inferInstanceAs (Decidable
      (∀ unit ∈ bus.units, Countable (unit.consume.map (·.proto)) (bus.caps ++ [cap])))

theorem Offered.countsDistinct {actions : List Action} {bus : Bus} (h : Offered actions bus)
    {action : Action} (hguard : CountsDistinct bus action)
    (hcount : ∀ manifest ∈ activations actions, Countable manifest.consume (exposures actions)) :
    ∀ manifest ∈ activations (actions ++ [action]),
      Countable manifest.consume (exposures (actions ++ [action])) := by
  intro manifest hmanifest
  cases action with
  | activate new =>
    have hexposures : exposures (actions ++ [.activate new]) = exposures actions := by
      simp [exposures]
    have hmem : manifest ∈ activations actions ∨ manifest = new := by
      simpa [activations] using hmanifest
    rw [hexposures]
    rcases hmem with hold | rfl
    · exact hcount manifest hold
    · rw [← h.1]
      exact hguard
  | expose cap =>
    have hexposures : exposures (actions ++ [.expose cap]) = bus.caps ++ [cap] := by
      simp [exposures, h.1]
    have hold : manifest ∈ activations actions := by simpa [activations] using hmanifest
    have hunit : offered manifest (exposures actions) ∈ bus.units := by
      rw [h.2]
      exact List.mem_map_of_mem hold
    have hprotos := (offered_served manifest (exposures actions)).filled.protos_eq
    rw [hexposures, ← hprotos]
    exact hguard _ hunit

end Brutal.System
