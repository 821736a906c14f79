import Brutal.Kernel.SyscallRuns
import Mathlib.Data.List.ReduceOption

/-!
# Transfer of capabilities

`kernel/parcel.c` on the whole kernel, where `parcel_pack` and `parcel_unpack` take and drop the
references one argument at a time.  A parcel that is packed from one domain and unpacked into
another one carries the objects that the flagged handles name, and nothing else.
-/

namespace Brutal.Kernel

open Base Ds Lib

variable {s t u : KernelState} {first second added : ℕ → ℤ} {o domain : ℕ} {self self' : Domain ℕ}
  {objects : List ℕ} {objs : Vector (Option ℕ) brMsgArgCount} {i : Fin brMsgArgCount}
  {handle : UInt64} {msg msg' : BrMsg} {indices : List (Fin brMsgArgCount)}
  {parcel parcel' : Parcel ℕ} {result : BrResult}

/-- `parcel_deinit` -/
def KernelState.parcelDeinit (s : KernelState) (self : Parcel ℕ) : Except Fault KernelState :=
  objectDerefAll s (parcelObjects self)

/-- The loop of `parcel_pack`, on a parcel that starts out empty. -/
def KernelState.parcelPackFrom (domain : ℕ) (msg : BrMsg) :
    List (Fin brMsgArgCount) → Parcel ℕ → KernelState →
      Except Fault (BrResult × Parcel ℕ × KernelState)
  | [], self, s => .ok (.success, self, s)
  | i :: rest, self, s =>
    if isHandle msg i then do
      let (found, s) ← s.domainLookup domain (getElem msg.args i i.isLt) .any
      match found with
      | none => do
        let s ← s.parcelDeinit self
        pure (.badHandle, self, s)
      | some object =>
        KernelState.parcelPackFrom domain msg rest
          { self with objs := self.objs.set i (some object) i.isLt } s
    else KernelState.parcelPackFrom domain msg rest self s

/-- `parcel_pack` -/
def KernelState.parcelPack (s : KernelState) (msg : BrMsg) (domain : Option ℕ) :
    Except Fault (BrResult × Parcel ℕ × KernelState) :=
  let self : Parcel ℕ := { (default : Parcel ℕ) with msg := msg }
  match domain with
  | none => .ok (.success, self, s)
  | some domain => KernelState.parcelPackFrom domain msg (List.finRange _) self s

/-- The loop of `parcel_unpack`. -/
def KernelState.parcelUnpackFrom (objs : Vector (Option ℕ) brMsgArgCount) (domain : ℕ) :
    List (Fin brMsgArgCount) → BrMsg → KernelState → Except Fault (BrMsg × KernelState)
  | [], msg, s => .ok (msg, s)
  | i :: rest, msg, s =>
    match getElem objs i i.isLt with
    | some object => do
      let (handle, s) ← s.domainAdd domain object
      KernelState.parcelUnpackFrom objs domain rest
        { msg with args := msg.args.set i handle i.isLt } s
    | none => KernelState.parcelUnpackFrom objs domain rest msg s

/-- `parcel_unpack` -/
def KernelState.parcelUnpack (s : KernelState) (self : Parcel ℕ) (domain : Option ℕ) :
    Except Fault (BrResult × BrMsg × KernelState) :=
  match domain with
  | none => do
    let s ← s.parcelDeinit self
    pure (.success, self.msg, s)
  | some domain => do
    let (msg, s) ← KernelState.parcelUnpackFrom self.objs domain (List.finRange _) self.msg s
    let s ← s.parcelDeinit self
    pure (.success, msg, s)

/-- From `s` to `t` only reference counts have changed, by `added`. -/
structure Recounted (s t : KernelState) (added : ℕ → ℤ) : Prop where
  payload : ∀ o, (t.objects.lookup o).map Object.payload = (s.objects.lookup o).map Object.payload
  count : ∀ o, (refCount t o : ℤ) = refCount s o + added o

theorem Recounted.refl (s : KernelState) : Recounted s s 0 :=
  ⟨fun _ ↦ rfl, fun _ ↦ (add_zero _).symm⟩

theorem Recounted.trans (hfirst : Recounted s t first) (hsecond : Recounted t u second) :
    Recounted s u (first + second) where
  payload o := (hsecond.payload o).trans (hfirst.payload o)
  count o := by
    rw [hsecond.count, hfirst.count, Pi.add_apply, add_assoc]

theorem Recounted.of_eq (h : Recounted s t first) (heq : first = second) :
    Recounted s t second := heq ▸ h

/-- The payload of an object that is there is still there. -/
theorem Recounted.lookup (h : Recounted s t added) {object : Object}
    (hobject : s.objects.lookup o = some object) :
    ∃ refs, t.objects.lookup o = some ⟨refs, object.payload⟩ := by
  have hpayload := h.payload o
  rw [hobject, Option.map_some, Option.map_eq_some_iff] at hpayload
  obtain ⟨⟨refs, payload⟩, hlookup, rfl⟩ := hpayload
  exact ⟨refs, hlookup⟩

theorem Recounted.getDomain_eq (h : Recounted s t added) (hself : getDomain s o = .ok self) :
    getDomain t o = .ok self := by
  obtain ⟨refs, hlookup⟩ := getDomain_eq_ok.1 hself
  exact getDomain_eq_ok.2 (h.lookup hlookup)

/-- The counter of one object is replaced. -/
theorem Recounted.insert (refs : ℕ) {object : Object} (hobject : s.objects.lookup o = some object) :
    Recounted s { s with objects := s.objects.insert o { object with refs } }
      (Pi.single o ((refs : ℤ) - object.refs)) where
  payload x := by
    by_cases hx : x = o
    · rw [hx, AList.lookup_insert, hobject]
      rfl
    · rw [AList.lookup_insert_ne hx]
  count x := by
    by_cases hx : x = o
    · have hnew :
        refCount { s with objects := s.objects.insert o { object with refs } } o = refs := by
        rw [refCount_of_lookup (AList.lookup_insert s.objects)]
      rw [hx, Pi.single_eq_same, hnew, refCount_of_lookup hobject]
      omega
    · rw [Pi.single_eq_of_ne hx, refCount, refCount, AList.lookup_insert_ne hx, add_zero]

theorem objectRef_recounted (h : objectRef s o = .ok t) : Recounted s t (Pi.single o 1) := by
  simp only [objectRef, bind_eq_ok, getObject_eq_ok, ite_error_eq_ok, pure_eq_ok] at h
  obtain ⟨object, hobject, _, rfl⟩ := h
  have hadded : ((object.refs + 1 : ℕ) : ℤ) - object.refs = 1 := by omega
  apply (Recounted.insert _ hobject).of_eq
  rw [hadded]

/-- Dropping a reference that is not the last one destroys nothing. -/
theorem objectDeref_recounted (h : 2 ≤ refCount s o) :
    ∃ t, objectDeref s o = .ok t ∧ Recounted s t (-Pi.single o 1) := by
  cases hobject : s.objects.lookup o with
  | none =>
    have hnone : refCount s o = 0 := by
      rw [refCount, hobject]
    omega
  | some object =>
    rw [refCount_of_lookup hobject] at h
    refine ⟨_, ?_, (Recounted.insert (object.refs - 1) hobject).of_eq ?_⟩
    · rw [objectDeref, derefWithin, getObject_eq_ok.2 hobject]
      exact if_neg (by omega)
    · have hadded : ((object.refs - 1 : ℕ) : ℤ) - object.refs = -1 := by omega
      rw [hadded, Pi.single_neg]

/-- Dropping references each of which leaves another one. -/
theorem objectDerefAll_recounted (h : ∀ o ∈ objects, objects.count o + 1 ≤ refCount s o) :
    ∃ t, objectDerefAll s objects = .ok t ∧ Recounted s t (-tally objects) := by
  induction objects generalizing s with
  | nil => exact ⟨s, rfl, (Recounted.refl s).of_eq (by rw [tally_nil, neg_zero])⟩
  | cons o rest ih =>
    have ho := h o List.mem_cons_self
    rw [List.count_cons_self] at ho
    obtain ⟨t, hderef, hone⟩ := objectDeref_recounted (show 2 ≤ refCount s o by omega)
    have hrest : ∀ x ∈ rest, rest.count x + 1 ≤ refCount t x := by
      intro x hx
      have hbefore := h x (List.mem_cons_of_mem o hx)
      have hcount := hone.count x
      by_cases hxo : x = o
      · rw [hxo, List.count_cons_self] at hbefore
        rw [hxo, Pi.neg_apply, Pi.single_eq_same] at hcount
        rw [hxo]
        omega
      · rw [List.count_cons_of_ne (Ne.symm hxo)] at hbefore
        rw [Pi.neg_apply, Pi.single_eq_of_ne hxo] at hcount
        omega
    obtain ⟨u, hderefs, hall⟩ := ih hrest
    refine ⟨u, ?_, (hone.trans hall).of_eq ?_⟩
    · rw [objectDerefAll, List.foldlM_cons, hderef]
      exact hderefs
    · rw [tally_cons, neg_add]

/-- References that were taken of live objects can be dropped again. -/
theorem Recounted.derefAll (h : Recounted s t (tally objects))
    (halive : ∀ o ∈ objects, 1 ≤ refCount s o) :
    ∃ u, objectDerefAll t objects = .ok u ∧ Recounted s u 0 := by
  have hshared : ∀ o ∈ objects, objects.count o + 1 ≤ refCount t o := by
    intro o ho
    have hcount := h.count o
    have hone := halive o ho
    unfold tally at hcount
    omega
  obtain ⟨u, hderef, hdropped⟩ := objectDerefAll_recounted hshared
  exact ⟨u, hderef, (h.trans hdropped).of_eq (add_neg_cancel _)⟩

/-- An object with a counter was there when only counters have changed since. -/
theorem Recounted.alive (hs : Wf s) (h : Recounted s t added) (href : objectRef t o = .ok u) :
    1 ≤ refCount s o := by
  simp only [objectRef, bind_eq_ok, getObject_eq_ok] at href
  obtain ⟨object, hobject, _⟩ := href
  have hpayload := h.payload o
  rw [hobject, Option.map_some, eq_comm, Option.map_eq_some_iff] at hpayload
  obtain ⟨object', hobject', _⟩ := hpayload
  exact hs.refCount_pos hobject'

theorem mem_iff_tally : o ∈ objects ↔ 0 < tally objects o := by
  rw [← List.count_pos_iff, tally, Int.natCast_pos]

theorem tally_set {objs : List (Option ℕ)} {i o : ℕ} (hnone : objs[i]? = some none) :
    tally (objs.set i (some o)).reduceOption = Pi.single o 1 + tally objs.reduceOption := by
  obtain ⟨hlt, hget⟩ := List.getElem?_eq_some_iff.1 hnone
  have hsplit : objs = objs.take i ++ none :: objs.drop (i + 1) := by
    rw [← hget, List.getElem_cons_drop, List.take_append_drop]
  have hset : objs.set i (some o) = objs.take i ++ some o :: objs.drop (i + 1) := by
    rw [List.set_eq_take_append_cons_drop, if_pos hlt]
  have hbefore : objs.reduceOption =
      (objs.take i).reduceOption ++ (objs.drop (i + 1)).reduceOption := by
    conv_lhs => rw [hsplit]
    rw [List.reduceOption_append, List.reduceOption_cons_of_none]
  rw [hset, List.reduceOption_append, List.reduceOption_cons_of_some, hbefore, tally_append,
    tally_cons, tally_append]
  abel

/-- An object that is put into an empty place of a parcel. -/
theorem parcelObjects_set {self : Parcel ℕ} (hnone : getElem self.objs i i.isLt = none) :
    tally (parcelObjects { self with objs := self.objs.set i (some o) i.isLt }) =
      Pi.single o 1 + tally (parcelObjects self) := by
  have hget : self.objs.toList[(i : ℕ)]? = some none := by
    rw [← hnone]
    simp
  rw [parcelObjects, parcelObjects, Vector.toList_set]
  exact tally_set hget

/-- A lookup during packing. -/
theorem domainLookup_recounted {found : Option ℕ} (hs : Wf s)
    (hself : getDomain s domain = .ok self) (hcounts : Recounted s t added)
    (h : t.domainLookup domain handle .any = .ok (found, u)) :
    found = stored self handle ∧ (found = none → u = t) ∧
      ∀ o, found = some o → 1 ≤ refCount s o ∧ Recounted t u (Pi.single o 1) := by
  simp only [KernelState.domainLookup, hcounts.getDomain_eq hself, bind_eq_ok,
    Except.ok.injEq, exists_eq_left'] at h
  obtain ⟨result, hlookup, h⟩ := h
  obtain ⟨refs, hpayload⟩ := getDomain_eq_ok.1 hself
  have hstored := domainLookup_any (hs.payload hpayload) hlookup
  cases result with
  | none =>
    cases h
    exact ⟨hstored, fun _ ↦ rfl, by rintro _ ⟨⟩⟩
  | some o =>
    simp only [bind_eq_ok, pure_eq_ok, Prod.mk.injEq] at h
    obtain ⟨u', href, rfl, rfl⟩ := h
    refine ⟨hstored, by rintro ⟨⟩, fun x hx ↦ ?_⟩
    cases hx
    exact ⟨hcounts.alive hs href, objectRef_recounted href⟩

/-- What `parcel_pack` has done when it returns: it failed and took nothing, or it found the
object of every flagged argument and took a reference to each. -/
inductive Packed (s : KernelState) (domain : Domain ℕ) (msg : BrMsg)
    (indices : List (Fin brMsgArgCount)) (self : Parcel ℕ) :
    BrResult → Parcel ℕ → KernelState → Prop where
  | failed {parcel : Parcel ℕ} {t : KernelState} (i : Fin brMsgArgCount)
      (hflagged : isHandle msg i = true) (hbad : stored domain (getElem msg.args i i.isLt) = none)
      (hcounts : Recounted s t 0) : Packed s domain msg indices self .badHandle parcel t
  | packed {parcel : Parcel ℕ} {t : KernelState}
      (hcounts : Recounted s t (tally (parcelObjects parcel)))
      (halive : ∀ o ∈ parcelObjects parcel, 1 ≤ refCount s o)
      (hmsg : parcel.msg = self.msg)
      (hfound : ∀ i ∈ indices, isHandle msg i = true →
        getElem parcel.objs i i.isLt = stored domain (getElem msg.args i i.isLt) ∧
          (stored domain (getElem msg.args i i.isLt)).isSome = true)
      (hother : ∀ i, (i ∉ indices ∨ isHandle msg i = false) →
        getElem parcel.objs i i.isLt = getElem self.objs i i.isLt) :
      Packed s domain msg indices self .success parcel t

theorem getElem_set_ne {i j : Fin brMsgArgCount} (h : j ≠ i) (object : Option ℕ) :
    getElem (objs.set i object i.isLt) j j.isLt = getElem objs j j.isLt := by
  have hval : (i : ℕ) ≠ j := fun heq ↦ h (Fin.ext heq.symm)
  simp [hval]

/-- An argument without the flag is passed over. -/
theorem Packed.skip {domain : Domain ℕ} {self parcel : Parcel ℕ}
    (h : Packed s domain msg indices self result parcel t) (hhandle : ¬ isHandle msg i = true) :
    Packed s domain msg (i :: indices) self result parcel t := by
  cases h with
  | failed k hflagged hbad hback => exact .failed k hflagged hbad hback
  | packed hcounts halive hmsg hrest hother =>
    refine .packed hcounts halive hmsg (fun j hj hflagged ↦ ?_) (fun j hj ↦ ?_)
    · cases List.mem_cons.1 hj with
      | inl heq => exact absurd (heq ▸ hflagged) hhandle
      | inr hj => exact hrest j hj hflagged
    · exact hother j (hj.imp_left fun hj hmem ↦ hj (List.mem_cons_of_mem i hmem))

/-- The object of a flagged argument is put into its slot, and no later argument changes it. -/
theorem Packed.put {domain : Domain ℕ} {self parcel : Parcel ℕ}
    (h : Packed s domain msg indices { self with objs := self.objs.set i (some o) i.isLt } result
      parcel t) (hnotin : i ∉ indices) (hhandle : isHandle msg i = true)
    (hfound : stored domain (getElem msg.args i i.isLt) = some o) :
    Packed s domain msg (i :: indices) self result parcel t := by
  cases h with
  | failed k hflagged hbad hback => exact .failed k hflagged hbad hback
  | packed hcounts halive hmsg hrest hother =>
    refine .packed hcounts halive hmsg (fun j hj hflagged ↦ ?_) (fun j hj ↦ ?_)
    · cases List.mem_cons.1 hj with
      | inl heq =>
        rw [heq, hother i (Or.inl hnotin), hfound]
        simp
      | inr hj => exact hrest j hj hflagged
    · have hne : j ≠ i := by
        rintro rfl
        cases hj with
        | inl hj => exact hj List.mem_cons_self
        | inr hj =>
          rw [hhandle] at hj
          cases hj
      rw [hother j (hj.imp_left fun hj hmem ↦ hj (List.mem_cons_of_mem i hmem))]
      exact getElem_set_ne hne _

/-- A parcel with one more object of the domain has only objects that are alive. -/
theorem alive_set (halive : ∀ x ∈ parcelObjects parcel, 1 ≤ refCount s x) (hone : 1 ≤ refCount s o)
    (hempty : getElem parcel.objs i i.isLt = none) :
    ∀ x ∈ parcelObjects { parcel with objs := parcel.objs.set i (some o) i.isLt },
      1 ≤ refCount s x := by
  intro x hx
  have hpos := mem_iff_tally.1 hx
  rw [parcelObjects_set hempty, Pi.add_apply] at hpos
  by_cases hxo : x = o
  · exact hxo ▸ hone
  · rw [Pi.single_eq_of_ne hxo, zero_add] at hpos
    exact halive x (mem_iff_tally.2 hpos)

theorem parcelPackFrom_packed (hs : Wf s) (hself : getDomain s domain = .ok self)
    (hcounts : Recounted s t (tally (parcelObjects parcel)))
    (halive : ∀ o ∈ parcelObjects parcel, 1 ≤ refCount s o) (hnodup : indices.Nodup)
    (hempty : ∀ i ∈ indices, getElem parcel.objs i i.isLt = none)
    (h : KernelState.parcelPackFrom domain msg indices parcel t = .ok (result, parcel', u)) :
    Packed s self msg indices parcel result parcel' u := by
  induction indices generalizing parcel t with
  | nil =>
    cases h
    exact .packed hcounts halive rfl nofun fun _ _ ↦ rfl
  | cons i rest ih =>
    obtain ⟨hnotin, hnodup'⟩ := List.nodup_cons.1 hnodup
    have hempty' : ∀ j ∈ rest, getElem parcel.objs j j.isLt = none :=
      fun j hj ↦ hempty j (List.mem_cons_of_mem i hj)
    rw [KernelState.parcelPackFrom] at h
    split at h
    next hhandle =>
      simp only [bind_eq_ok, Prod.exists] at h
      obtain ⟨found, t₁, hlookup, h⟩ := h
      obtain ⟨hfound, hnone, hsome⟩ := domainLookup_recounted hs hself hcounts hlookup
      cases found with
      | none =>
        simp only [bind_eq_ok, pure_eq_ok, Prod.mk.injEq] at h
        obtain ⟨t₂, hdeinit, rfl, rfl, rfl⟩ := h
        obtain ⟨u, hderef, hback⟩ := hcounts.derefAll halive
        rw [hnone rfl, KernelState.parcelDeinit, hderef] at hdeinit
        cases hdeinit
        exact .failed i hhandle hfound.symm hback
      | some o =>
        obtain ⟨hone, hcount⟩ := hsome o rfl
        have hslot := hempty i List.mem_cons_self
        have hcounts' : Recounted s t₁
            (tally (parcelObjects { parcel with objs := parcel.objs.set i (some o) i.isLt })) :=
          (hcounts.trans hcount).of_eq (by rw [parcelObjects_set hslot, add_comm])
        have hother : ∀ j ∈ rest, getElem (parcel.objs.set i (some o) i.isLt) j j.isLt = none := by
          intro j hj
          have hne : j ≠ i := fun heq ↦ hnotin (heq ▸ hj)
          rw [getElem_set_ne hne]
          exact hempty' j hj
        have hpacked := ih hcounts' (alive_set halive hone hslot) hnodup' hother h
        exact hpacked.put hnotin hhandle hfound.symm
    next hhandle => exact (ih hcounts halive hnodup' hempty' h).skip hhandle

theorem domainLookup_any_congr (typeOf typeOf' : ℕ → BrType) (self : Domain ℕ) (handle : UInt64) :
    domainLookup typeOf self handle .any = domainLookup typeOf' self handle .any := by
  simp [domainLookup]

/-- Packing finds the objects that packing from the domain alone finds. -/
theorem parcelPackFrom_refines (typeOf : ℕ → BrType) (hs : Wf s)
    (hself : getDomain s domain = .ok self) (hcounts : Recounted s t added)
    (h : KernelState.parcelPackFrom domain msg indices parcel t = .ok (result, parcel', u)) :
    parcelPackObjs typeOf self msg indices parcel.objs = .ok (result, parcel'.objs) := by
  induction indices generalizing parcel t added with
  | nil =>
    cases h
    rfl
  | cons i rest ih =>
    rw [KernelState.parcelPackFrom] at h
    rw [parcelPackObjs]
    split at h
    next hhandle =>
      rw [if_pos hhandle]
      simp only [bind_eq_ok, Prod.exists] at h
      obtain ⟨found, t₁, hlookup, h⟩ := h
      have hdomain : domainLookup typeOf self (getElem msg.args i i.isLt) .any = .ok found := by
        simp only [KernelState.domainLookup, hcounts.getDomain_eq hself, bind_eq_ok,
          Except.ok.injEq, exists_eq_left'] at hlookup
        obtain ⟨result', hlookup', hresult⟩ := hlookup
        rw [domainLookup_any_congr typeOf (objectType t), hlookup']
        cases result' with
        | none =>
          cases hresult
          rfl
        | some o =>
          simp only [bind_eq_ok, pure_eq_ok, Prod.mk.injEq] at hresult
          obtain ⟨_, _, rfl, _⟩ := hresult
          rfl
      obtain ⟨_, hnone, hsome⟩ := domainLookup_recounted hs hself hcounts hlookup
      rw [hdomain]
      cases found with
      | none =>
        simp only [bind_eq_ok, pure_eq_ok, Prod.mk.injEq] at h
        obtain ⟨_, _, rfl, rfl, _⟩ := h
        rfl
      | some o => exact ih (hcounts.trans (hsome o rfl).2) h
    next hhandle =>
      rw [if_neg hhandle]
      exact ih hcounts h

/-- `parcel_pack` finds what it finds in the model of one channel, where references are not
counted. -/
theorem parcelPack_refines (hs : Wf s) (hself : getDomain s domain = .ok self)
    (h : s.parcelPack msg (some domain) = .ok (result, parcel, t)) :
    ∃ parcel', parcelPack (objectType s) msg (some self) = .ok (result, parcel') ∧
      parcel'.objs = parcel.objs := by
  have hobjs := parcelPackFrom_refines (objectType s) hs hself (.refl s) h
  refine ⟨⟨msg, parcel.objs⟩, ?_, rfl⟩
  simp only [parcelPack, hobjs]
  rfl

theorem parcelPackFrom_wf (hs : Wf s)
    (h : KernelState.parcelPackFrom domain msg indices parcel s = .ok (result, parcel', t)) :
    Wf t := by
  induction indices generalizing parcel s with
  | nil =>
    cases h
    exact hs
  | cons i rest ih =>
    rw [KernelState.parcelPackFrom] at h
    split at h
    · simp only [bind_eq_ok, Prod.exists] at h
      obtain ⟨found, s₁, hlookup, h⟩ := h
      have hstart : Owes true none s s [] := .refl hs
      have hfound := (hstart.looks (domainLookup_looks hs hlookup)).wf
      cases found with
      | none =>
        simp only [bind_eq_ok, pure_eq_ok, Prod.mk.injEq] at h
        obtain ⟨s₂, hdeinit, _, _, rfl⟩ := h
        have hrun : Run (Succeeds objectDeref) s₁ (parcelObjects parcel) s₂ := .ofFold hdeinit
        exact hrun.invariant (fun _ _ _ hwf hstep ↦ objectDeref_wf hwf hstep) hfound
      | some o => exact ih hfound h
    · exact ih hs h

/-! ## Unpacking -/

/-- What the loop of `parcel_unpack` does to the message and to the domain. -/
structure Unpacked (objs : Vector (Option ℕ) brMsgArgCount) (indices : List (Fin brMsgArgCount))
    (msg : BrMsg) (domain : Domain ℕ) (msg' : BrMsg) (domain' : Domain ℕ) : Prop where
  wf : DomainWf domain'
  same : SameMessage { msg with args := msg'.args } msg'
  added : ∀ i ∈ indices, ∀ o, getElem objs i i.isLt = some o →
    stored domain' (getElem msg'.args i i.isLt) = some o ∧
      stored domain (getElem msg'.args i i.isLt) = none
  distinct : ∀ i ∈ indices, ∀ j ∈ indices, i ≠ j →
    (getElem objs i i.isLt).isSome → (getElem objs j j.isLt).isSome →
    getElem msg'.args i i.isLt ≠ getElem msg'.args j j.isLt
  other : ∀ i, (i ∉ indices ∨ getElem objs i i.isLt = none) →
    getElem msg'.args i i.isLt = getElem msg.args i i.isLt
  live : ∀ handle o, stored domain handle = some o → stored domain' handle = some o

/-- A slot without an object is passed over. -/
theorem Unpacked.skip {rest : List (Fin brMsgArgCount)} (h : Unpacked objs rest msg self msg' self')
    (hnone : getElem objs i i.isLt = none) : Unpacked objs (i :: rest) msg self msg' self' where
  wf := h.wf
  same := h.same
  added j hj o ho := by
    cases List.mem_cons.1 hj with
    | inl heq =>
      rw [heq, hnone] at ho
      cases ho
    | inr hj => exact h.added j hj o ho
  distinct j hj k hk hjk hjsome hksome := by
    have hsome : ∀ k ∈ i :: rest, (getElem objs k k.isLt).isSome → k ∈ rest := by
      intro k hk hksome
      cases List.mem_cons.1 hk with
      | inl heq =>
        rw [heq, hnone] at hksome
        cases hksome
      | inr hk => exact hk
    exact h.distinct j (hsome j hj hjsome) k (hsome k hk hksome) hjk hjsome hksome
  other j hj := h.other j (hj.imp_left fun hj hmem ↦ hj (List.mem_cons_of_mem i hmem))
  live := h.live

/-- The object of a slot is added to the domain under a new handle. -/
theorem Unpacked.add {rest : List (Fin brMsgArgCount)} {self added self' : Domain ℕ} {object : ℕ}
    (h : Unpacked objs rest { msg with args := msg.args.set i handle i.isLt } added msg' self')
    (hnotin : i ∉ rest) (hobject : getElem objs i i.isLt = some object)
    (hfree : stored self handle = none) (hstored : stored added handle = some object)
    (hframe : ∀ other, other ≠ handle → stored added other = stored self other) :
    Unpacked objs (i :: rest) msg self msg' self' := by
  have hi : getElem msg'.args i i.isLt = handle := by
    rw [h.other i (Or.inl hnotin)]
    simp
  have hnew : ∀ j ∈ rest, (getElem objs j j.isLt).isSome → getElem msg'.args j j.isLt ≠ handle := by
    intro j hj hsome heq
    obtain ⟨o, ho⟩ := Option.isSome_iff_exists.1 hsome
    have hnone := (h.added j hj o ho).2
    rw [heq, hstored] at hnone
    cases hnone
  refine ⟨h.wf, h.same, ?_, ?_, ?_, ?_⟩
  · intro j hj o ho
    cases List.mem_cons.1 hj with
    | inl heq =>
      rw [heq, hobject] at ho
      cases ho
      rw [heq, hi]
      exact ⟨h.live _ _ hstored, hfree⟩
    | inr hj =>
      obtain ⟨hresolves, hunused⟩ := h.added j hj o ho
      refine ⟨hresolves, ?_⟩
      rw [← hframe _ (hnew j hj (by rw [ho]; rfl))]
      exact hunused
  · intro j hj k hk hjk hjsome hksome
    rcases List.mem_cons.1 hj with rfl | hj'
    · rcases List.mem_cons.1 hk with rfl | hk'
      · exact absurd rfl hjk
      · rw [hi]
        exact (hnew k hk' hksome).symm
    · rcases List.mem_cons.1 hk with rfl | hk'
      · rw [hi]
        exact hnew j hj' hjsome
      · exact h.distinct j hj' k hk' hjk hjsome hksome
  · intro j hj
    have hne : j ≠ i := by
      rintro rfl
      cases hj with
      | inl hj => exact hj List.mem_cons_self
      | inr hj =>
        rw [hobject] at hj
        cases hj
    rw [h.other j (hj.imp_left fun hj hmem ↦ hj (List.mem_cons_of_mem i hmem))]
    have hval : (i : ℕ) ≠ j := fun heq ↦ hne (Fin.ext heq.symm)
    simp [hval]
  · intro other o hlive
    apply h.live other o
    rw [hframe other (fun heq ↦ by rw [heq, hfree] at hlive; cases hlive), hlive]

theorem parcelUnpackObjs_unpacked (hself : DomainWf self) (hnodup : indices.Nodup)
    (h : parcelUnpackObjs objs indices msg self = .ok (msg', self')) :
    Unpacked objs indices msg self msg' self' := by
  induction indices generalizing msg self with
  | nil =>
    cases h
    exact ⟨hself, .refl _, by rintro _ ⟨⟩, by rintro _ ⟨⟩, fun _ _ ↦ rfl, fun _ _ hlive ↦ hlive⟩
  | cons i rest ih =>
    obtain ⟨hnotin, hnodup'⟩ := List.nodup_cons.1 hnodup
    rw [parcelUnpackObjs] at h
    split at h
    next object hobject =>
      simp only [bind_eq_ok, Prod.exists] at h
      obtain ⟨handle, added, hadd, h⟩ := h
      obtain ⟨hfree, hstored, hframe⟩ := domainAdd_stored hself hadd
      have hrest := ih (domainAdd_spec hadd hself).1 hnodup' h
      exact hrest.add hnotin hobject hfree hstored hframe
    next hnone => exact (ih hself hnodup' h).skip hnone

/-- From `s` to `t` reference counts have changed by `added`, and one domain. -/
structure Filled (domain : ℕ) (s t : KernelState) (added : ℕ → ℤ) : Prop where
  payload : ∀ o, o ≠ domain →
    (t.objects.lookup o).map Object.payload = (s.objects.lookup o).map Object.payload
  count : ∀ o, (refCount t o : ℤ) = refCount s o + added o

theorem Filled.trans (hfirst : Filled domain s t first) (hsecond : Filled domain t u second) :
    Filled domain s u (first + second) where
  payload o ho := (hsecond.payload o ho).trans (hfirst.payload o ho)
  count o := by
    rw [hsecond.count, hfirst.count, Pi.add_apply, add_assoc]

theorem Recounted.filled (h : Recounted s t added) (domain : ℕ) : Filled domain s t added :=
  ⟨fun o _ ↦ h.payload o, h.count⟩

/-- An object that is there afterwards was there before. -/
theorem Filled.there (h : Filled domain s t added) (hself : getDomain s domain = .ok self)
    (ho : (t.objects.lookup o).isSome) : (s.objects.lookup o).isSome := by
  by_cases heq : o = domain
  · obtain ⟨refs, hlookup⟩ := getDomain_eq_ok.1 hself
    rw [heq, hlookup]
    rfl
  · have hpayload := congrArg Option.isSome (h.payload o heq)
    rwa [Option.isSome_map, Option.isSome_map, ho, eq_comm] at hpayload

theorem setPayload_filled {payload : Payload} (h : setPayload s domain payload = .ok t) :
    Filled domain s t 0 ∧ ∃ refs, t.objects.lookup domain = some ⟨refs, payload⟩ := by
  simp only [setPayload, bind_eq_ok, pure_eq_ok, getObject_eq_ok] at h
  obtain ⟨object, hobject, rfl⟩ := h
  refine ⟨⟨fun o ho ↦ by rw [AList.lookup_insert_ne ho], fun o ↦ ?_⟩, _,
    AList.lookup_insert s.objects⟩
  by_cases ho : o = domain
  · rw [ho, refCount_of_lookup (AList.lookup_insert s.objects), refCount_of_lookup hobject]
    exact (add_zero _).symm
  · rw [refCount, refCount, AList.lookup_insert_ne ho]
    exact (add_zero _).symm

theorem domainAdd_filled (hself : getDomain s domain = .ok self)
    (h : s.domainAdd domain o = .ok (handle, t)) :
    Filled domain s t (Pi.single o 1) ∧ (s.objects.lookup o).isSome ∧
      ∃ self', domainAdd self o = .ok (handle, self') ∧ getDomain t domain = .ok self' := by
  simp only [KernelState.domainAdd, bind_eq_ok, pure_eq_ok, Prod.exists, Prod.mk.injEq] at h
  obtain ⟨s₁, href, found, hfound, handle', self', hadd, t', hset, rfl, rfl⟩ := h
  have hcounts := objectRef_recounted href
  rw [hcounts.getDomain_eq hself] at hfound
  cases hfound
  obtain ⟨hfilled, hlookup⟩ := setPayload_filled hset
  refine ⟨?_, ?_, self', hadd, getDomain_eq_ok.2 hlookup⟩
  · have htrans := (hcounts.filled domain).trans hfilled
    rwa [add_zero] at htrans
  · simp only [objectRef, bind_eq_ok, getObject_eq_ok] at href
    obtain ⟨object, hobject, _⟩ := href
    rw [hobject]
    rfl

/-- The loop of `parcel_unpack` adds to the domain what unpacking into it alone adds, and takes
the references. -/
theorem parcelUnpackFrom_refines (hself : getDomain s domain = .ok self)
    (h : KernelState.parcelUnpackFrom objs domain indices msg s = .ok (msg', t)) :
    ∃ self', parcelUnpackObjs objs indices msg self = .ok (msg', self') ∧
      getDomain t domain = .ok self' ∧
      Filled domain s t (tally (indices.filterMap fun i ↦ getElem objs i i.isLt)) ∧
      ∀ o ∈ indices.filterMap fun i ↦ getElem objs i i.isLt, (s.objects.lookup o).isSome := by
  induction indices generalizing msg s self with
  | nil =>
    cases h
    exact ⟨self, rfl, hself, (Recounted.refl _).filled domain, by rintro _ ⟨⟩⟩
  | cons i rest ih =>
    rw [KernelState.parcelUnpackFrom] at h
    rw [parcelUnpackObjs]
    split at h
    next object hobject =>
      simp only [bind_eq_ok, Prod.exists] at h
      obtain ⟨handle, s₁, hadd, h⟩ := h
      obtain ⟨hfilled, hthere, self₁, hadd', hself₁⟩ := domainAdd_filled hself hadd
      obtain ⟨self', hrest, hself', hfilled', hthere'⟩ := ih hself₁ h
      have hcons : (i :: rest).filterMap (fun i ↦ getElem objs i i.isLt) =
          object :: rest.filterMap fun i ↦ getElem objs i i.isLt := List.filterMap_cons_some hobject
      refine ⟨self', ?_, hself', ?_, ?_⟩
      · simp only [hobject, hadd']
        exact hrest
      · rw [hcons, tally_cons]
        exact hfilled.trans hfilled'
      · rw [hcons]
        intro o ho
        rcases List.mem_cons.1 ho with rfl | ho
        · exact hthere
        · exact hfilled.there hself (hthere' o ho)
    next hnone =>
      have hcons : (i :: rest).filterMap (fun i ↦ getElem objs i i.isLt) =
          rest.filterMap fun i ↦ getElem objs i i.isLt :=
        List.filterMap_cons_none hnone
      rw [hcons, hnone]
      exact ih hself h

/-- `domain_lookup` finds the object under the handle. -/
def Resolves (s : KernelState) (domain : ℕ) (handle : UInt64) (o : ℕ) : Prop :=
  ∃ self, getDomain s domain = .ok self ∧
    domainLookup (objectType s) self handle .any = .ok (some o)

/-- How many of the flagged arguments name the object. -/
def flaggedFor (self : Domain ℕ) (msg : BrMsg) (o : ℕ) : ℕ :=
  (List.finRange brMsgArgCount).countP fun i : Fin brMsgArgCount ↦
    isHandle msg i && stored self (getElem msg.args i i.isLt) == some o

theorem Wf.resolves_iff (hs : Wf s) (hself : getDomain s domain = .ok self) :
    Resolves s domain handle o ↔ stored self handle = some o := by
  obtain ⟨refs, hpayload⟩ := getDomain_eq_ok.1 hself
  have hwf : DomainWf self := hs.payload hpayload
  rw [Resolves, hself]
  simp only [Except.ok.injEq, exists_eq_left', domainLookup_any_iff hwf]

theorem Resolves.recounted (h : Recounted s t added) (hresolves : Resolves s domain handle o) :
    Resolves t domain handle o := by
  obtain ⟨self, hself, hlookup⟩ := hresolves
  refine ⟨self, h.getDomain_eq hself, ?_⟩
  rw [domainLookup_any_congr _ (objectType s), hlookup]

/-- A message packed in `s` was unpacked between `u` and `v`. -/
structure Delivered (sender receiver : ℕ) (msg msg' : BrMsg) (s u v : KernelState) : Prop where
  /-- The new handles name the very objects that the sender's handles named. -/
  resolves : ∀ i : Fin brMsgArgCount, isHandle msg i = true →
    ∃ o, Resolves s sender (getElem msg.args i i.isLt) o ∧
      Resolves v receiver (getElem msg'.args i i.isLt) o
  /-- They differ from the handles that were live in the receiver's domain, and from each other. -/
  fresh : ∀ i : Fin brMsgArgCount, isHandle msg i = true → ∀ handle o,
    Resolves u receiver handle o → getElem msg'.args i i.isLt ≠ handle
  distinct : ∀ i j : Fin brMsgArgCount, i ≠ j → isHandle msg i = true → isHandle msg j = true →
    getElem msg'.args i i.isLt ≠ getElem msg'.args j j.isLt
  unflagged : ∀ i : Fin brMsgArgCount, isHandle msg i = false →
    getElem msg'.args i i.isLt = getElem msg.args i i.isLt
  /-- Every handle that was live in any domain still names the same object. -/
  kept : ∀ domain handle o, Resolves u domain handle o → Resolves v domain handle o
  counts : ∀ o, refCount v o = refCount u o

/-- What packing found, by argument. -/
theorem Packed.objs_eq
    (h : Packed s self msg (List.finRange _) { (default : Parcel ℕ) with msg := msg }
      .success parcel t) (i : Fin brMsgArgCount) :
    getElem parcel.objs i i.isLt =
      if isHandle msg i then stored self (getElem msg.args i i.isLt) else none := by
  cases h with
  | packed _ _ _ hfound hother =>
    split
    next hhandle => exact (hfound i (List.mem_finRange i) hhandle).1
    next hhandle =>
      rw [hother i (Or.inr (by simpa using hhandle))]
      simp [default, instInhabitedParcel.default]

theorem Packed.tally_eq
    (h : Packed s self msg (List.finRange _) { (default : Parcel ℕ) with msg := msg }
      .success parcel t) (o : ℕ) : tally (parcelObjects parcel) o = flaggedFor self msg o := by
  rw [tally, parcelObjects, ← finRange_filterMap, List.count_filterMap, flaggedFor]
  congr 2
  funext i
  rw [h.objs_eq i]
  by_cases hhandle : isHandle msg i = true <;> simp [hhandle]

theorem parcelUnpack_delivered {s t u v : KernelState} {sender receiver : ℕ} {self other : Domain ℕ}
    (hs : Wf s) (hself : getDomain s sender = .ok self)
    (hpacked : Packed s self msg (List.finRange _) { (default : Parcel ℕ) with msg := msg }
      .success parcel t) (hu : Wf u) (hother : getDomain u receiver = .ok other)
    (h : u.parcelUnpack parcel (some receiver) = .ok (result, msg', v)) :
    Delivered sender receiver msg msg' s u v := by
  simp only [KernelState.parcelUnpack, bind_eq_ok, pure_eq_ok, Prod.exists, Prod.mk.injEq] at h
  obtain ⟨msg'', u₁, hloop, v', hdeinit, _, rfl, rfl⟩ := h
  obtain ⟨refs, hpayload⟩ := getDomain_eq_ok.1 hother
  have hwf : DomainWf other := hu.payload hpayload
  obtain ⟨other', hunpack, hother', hfilled, hthere⟩ := parcelUnpackFrom_refines hother hloop
  have hobjects : (List.finRange _).filterMap (fun i ↦ getElem parcel.objs i i.isLt) =
      parcelObjects parcel :=
    finRange_filterMap parcel.objs
  rw [hobjects] at hfilled hthere
  have hunpacked := parcelUnpackObjs_unpacked hwf (List.nodup_finRange _) hunpack
  have hshared :
      ∀ o ∈ parcelObjects parcel, (parcelObjects parcel).count o + 1 ≤ refCount u₁ o := by
    intro o ho
    obtain ⟨object, hobject⟩ := Option.isSome_iff_exists.1 (hthere o ho)
    have hpos := hu.refCount_pos hobject
    have hcount := hfilled.count o
    unfold tally at hcount
    omega
  obtain ⟨v₁, hderef, hdropped⟩ := objectDerefAll_recounted hshared
  rw [KernelState.parcelDeinit, hderef] at hdeinit
  rw [Except.ok.inj hdeinit] at hdropped
  have hobjs := hpacked.objs_eq
  have hflagged : ∀ i : Fin brMsgArgCount, isHandle msg i = true →
      ∃ o, getElem parcel.objs i i.isLt = some o ∧
        stored self (getElem msg.args i i.isLt) = some o := by
    intro i hi
    cases hpacked with
    | packed _ _ _ hfound _ =>
      obtain ⟨heq, hsome⟩ := hfound i (List.mem_finRange i) hi
      obtain ⟨o, ho⟩ := Option.isSome_iff_exists.1 hsome
      exact ⟨o, heq.trans ho, ho⟩
  have hlast := hdropped.getDomain_eq hother'
  have hresolves : ∀ {handle o}, stored other' handle = some o → Resolves v' receiver handle o :=
    fun hstored ↦ ⟨other', hlast, (domainLookup_any_iff hunpacked.wf).2 hstored⟩
  refine ⟨?_, ?_, ?_, ?_, ?_, ?_⟩
  · intro i hi
    obtain ⟨o, hobj, hstored⟩ := hflagged i hi
    exact ⟨o, (hs.resolves_iff hself).2 hstored,
      hresolves (hunpacked.added i (List.mem_finRange i) o hobj).1⟩
  · intro i hi handle o hlive heq
    obtain ⟨o', hobj, _⟩ := hflagged i hi
    have hfree := (hunpacked.added i (List.mem_finRange i) o' hobj).2
    rw [heq, (hu.resolves_iff hother).1 hlive] at hfree
    cases hfree
  · intro i j hij hi hj
    obtain ⟨_, hobj, _⟩ := hflagged i hi
    obtain ⟨_, hobj', _⟩ := hflagged j hj
    exact hunpacked.distinct i (List.mem_finRange i) j (List.mem_finRange j) hij
      (by rw [hobj]; rfl) (by rw [hobj']; rfl)
  · intro i hi
    have hnone : getElem parcel.objs i i.isLt = none := by
      rw [hobjs i, if_neg (by simp [hi])]
    rw [hunpacked.other i (Or.inr hnone)]
    cases hpacked with
    | packed _ _ hmsg _ _ => rw [hmsg]
  · intro domain handle o hlive
    by_cases hdomain : domain = receiver
    · rw [hdomain] at hlive ⊢
      exact hresolves (hunpacked.live handle o ((hu.resolves_iff hother).1 hlive))
    · obtain ⟨found, hfound, hlookup⟩ := hlive
      obtain ⟨refs', hfound'⟩ := getDomain_eq_ok.1 hfound
      have hpayload' := hfilled.payload domain hdomain
      rw [hfound', Option.map_some, Option.map_eq_some_iff] at hpayload'
      obtain ⟨⟨refs'', payload⟩, hstill, rfl⟩ := hpayload'
      refine ⟨found, hdropped.getDomain_eq (getDomain_eq_ok.2 ⟨refs'', hstill⟩), ?_⟩
      rw [domainLookup_any_congr _ (objectType u), hlookup]
  · intro o
    have hfirst := hfilled.count o
    have hsecond := hdropped.count o
    rw [Pi.neg_apply] at hsecond
    omega

/-- Packing a message fails only for a flagged argument that is no handle of the sender's domain,
and then no reference count and no object has changed.  When it succeeds, each object has gained
as many references as there are flagged arguments that name it, and unpacking the parcel into any
domain at any later time delivers handles of the same objects. -/
theorem parcel_transferred {s t : KernelState} {sender : ℕ} {self : Domain ℕ} {msg : BrMsg}
    {parcel : Parcel ℕ} {result : BrResult} (hs : Wf s) (hself : getDomain s sender = .ok self)
    (hpack : s.parcelPack msg (some sender) = .ok (result, parcel, t)) :
    (result ≠ .success → Recounted s t 0 ∧
      ∃ i : Fin brMsgArgCount, isHandle msg i = true ∧
        ∀ o, ¬ Resolves s sender (getElem msg.args i i.isLt) o) ∧
    (result = .success →
      (∀ o, refCount t o = refCount s o + flaggedFor self msg o) ∧
      (∀ domain handle o, Resolves s domain handle o → Resolves t domain handle o) ∧
      ∀ u v receiver other msg' result', Wf u → getDomain u receiver = .ok other →
        u.parcelUnpack parcel (some receiver) = .ok (result', msg', v) →
          result' = .success ∧ Delivered sender receiver msg msg' s u v) := by
  have hstart : tally (parcelObjects { (default : Parcel ℕ) with msg := msg }) = 0 := rfl
  have hempty : ∀ i ∈ List.finRange brMsgArgCount,
      (getElem ({ (default : Parcel ℕ) with msg := msg } : Parcel ℕ).objs i i.isLt) = none := by
    intro i _
    simp [default, instInhabitedParcel.default]
  have hpacked : Packed s self msg (List.finRange _) { (default : Parcel ℕ) with msg := msg }
      result parcel t :=
    parcelPackFrom_packed hs hself (hstart ▸ .refl s) (by rintro _ ⟨⟩) (List.nodup_finRange _)
      hempty hpack
  constructor
  · intro hfailed
    cases hpacked with
    | packed => exact absurd rfl hfailed
    | failed i hflagged hbad hcounts =>
      refine ⟨hcounts, i, hflagged, fun o hresolves ↦ ?_⟩
      rw [(hs.resolves_iff hself).1 hresolves] at hbad
      cases hbad
  · intro hsuccess
    rw [hsuccess] at hpacked
    have hcounts : Recounted s t (tally (parcelObjects parcel)) := by
      cases hpacked with
      | packed hcounts => exact hcounts
    refine ⟨fun o ↦ ?_, fun domain handle o hresolves ↦ hresolves.recounted hcounts, ?_⟩
    · have hcount := hcounts.count o
      rw [hpacked.tally_eq] at hcount
      exact_mod_cast hcount
    · intro u v receiver other msg' result' hu hother hunpack
      refine ⟨?_, parcelUnpack_delivered hs hself hpacked hu hother hunpack⟩
      simp only [KernelState.parcelUnpack, bind_eq_ok, pure_eq_ok, Prod.exists,
        Prod.mk.injEq] at hunpack
      obtain ⟨_, _, _, _, _, rfl, _⟩ := hunpack
      rfl

/-- A message with the handle 0 in its first two arguments. -/
def twoHandles : BrMsg :=
  { (default : BrMsg) with flags := brMsgHnd 0 ||| brMsgHnd 1, args := #v[0, 0, 7, 0, 0] }

/-- The first program sends its memory object twice to the boot task. -/
theorem parcel_transferred_twice :
    ∃ s t v parcel msg', Wf s ∧ s.parcelPack twoHandles (some 12) = .ok (.success, parcel, t) ∧
      t.parcelUnpack parcel (some 5) = .ok (.success, msg', v) ∧
      refCount t 16 = refCount s 16 + 2 ∧ Delivered 12 5 twoHandles msg' s t v := by
  obtain ⟨vmm, start, s, _, _, hboot, hrun, _, htest⟩ :=
    afterCreate_run (.inspect 0) (fun s _ ↦ decide (
      ∃ self, getDomain s 12 = .ok self ∧ flaggedFor self twoHandles 16 = 2 ∧
        ∃ packed, s.parcelPack twoHandles (some 12) = .ok packed ∧ packed.1 = .success ∧
          ∃ other, getDomain packed.2.2 5 = .ok other ∧
            ∃ unpacked, packed.2.2.parcelUnpack packed.2.1 (some 5) = .ok unpacked ∧
              unpacked.1 = .success)) (by decide +kernel)
  obtain ⟨self, hself, hflagged, ⟨_, parcel, t⟩, hpack, rfl, other, hother, ⟨_, msg', v⟩, hunpack,
    rfl⟩ := of_decide_eq_true htest
  have hs := run_wf hboot hrun
  have hpack' : s.parcelPack twoHandles (some 12) = .ok (.success, parcel, t) := hpack
  obtain ⟨hcounts, _, hdelivered⟩ := (parcel_transferred hs hself hpack').2 rfl
  have ht : Wf t := parcelPackFrom_wf hs hpack'
  refine ⟨s, t, v, parcel, msg', hs, hpack', hunpack, ?_,
    (hdelivered t v 5 other msg' _ ht hother hunpack).2⟩
  rw [hcounts, hflagged]

end Brutal.Kernel
