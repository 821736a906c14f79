import Brutal.Hw.Pci
import Brutal.Lib.Tree
import Mathlib.Data.List.Nodup
import Mathlib.Data.List.Pairwise
import Mathlib.Data.Finset.Card

/-!
# Visiting every function once

The functions that an enumeration hands out, as lists: those of one bus in their order, and the ones
behind each bridge after the bridge.  They are all functions that are there, each of them once, when
every bus lies in the window and the functions of every bus start with function 0.
-/

namespace Brutal.Hw

open Base Lib Relation

section Gather

variable {α β γ : Type}

/-- The parts for the items one after the other. -/
def gather (f : α → Except Fault (List β)) : List α → Except Fault (List β)
  | [] => .ok []
  | item :: rest => do
    let part ← f item
    let others ← gather f rest
    return part ++ others

variable {f : α → Except Fault (List β)}

attribute [local grind =] gather

theorem gather_cons_eq_ok {item : α} {rest : List α} {all : List β} :
    gather f (item :: rest) = .ok all ↔
      ∃ part, f item = .ok part ∧ ∃ others, gather f rest = .ok others ∧ part ++ others = all := by
  simp only [gather, bind_eq_ok, pure_eq_ok]

theorem gather_append (first second : List α) : gather f (first ++ second) = do
    let part ← gather f first
    let others ← gather f second
    return part ++ others := by
  induction first with
  | nil => cases h : gather f second <;> simp [gather, h, bind, Except.bind, pure, Except.pure]
  | cons item rest ih =>
    rw [List.cons_append, gather, gather, ih]
    simp only [bind_assoc, pure_bind, List.append_assoc]

theorem gather_flatMap (g : γ → List α) (items : List γ) :
    gather f (items.flatMap g) = gather (fun item ↦ gather f (g item)) items := by
  induction items with
  | nil => rfl
  | cons item rest ih => grind [gather_append]

theorem gather_map (g : γ → α) (items : List γ) :
    gather f (items.map g) = gather (fun item ↦ f (g item)) items := by
  induction items with
  | nil => rfl
  | cons item rest ih => grind

theorem gather_filter (p : α → Bool) (items : List α) :
    gather f (items.filter p) = gather (fun item ↦ if p item then f item else .ok []) items := by
  induction items with
  | nil => rfl
  | cons item rest ih =>
    by_cases hp : p item = true
    · rw [List.filter_cons_of_pos hp, gather, gather, if_pos hp, ih]
    · rw [List.filter_cons_of_neg hp, gather, if_neg hp, ok_bind, ih]
      cases gather (fun item ↦ if p item then f item else .ok []) rest <;> rfl

/-- Each part is within the whole. -/
theorem sublist_of_gather {items : List α} {all : List β} (h : gather f items = .ok all) {item : α}
    (hitem : item ∈ items) : ∃ part, f item = .ok part ∧ part.Sublist all := by
  induction items generalizing all with
  | nil => exact absurd hitem List.not_mem_nil
  | cons first rest ih =>
    obtain ⟨part, hpart, others, hothers, rfl⟩ := gather_cons_eq_ok.mp h
    rcases List.mem_cons.mp hitem with rfl | hitem
    · exact ⟨part, hpart, List.sublist_append_left part others⟩
    · obtain ⟨part', hpart', hsub⟩ := ih hothers hitem
      exact ⟨part', hpart', hsub.trans (List.sublist_append_right part others)⟩

/-- What is in the whole is in one of its parts. -/
theorem mem_gather {items : List α} {all : List β} (h : gather f items = .ok all) {x : β} :
    x ∈ all ↔ ∃ item ∈ items, ∃ part, f item = .ok part ∧ x ∈ part := by
  induction items generalizing all with
  | nil =>
    cases h
    simp
  | cons first rest ih =>
    obtain ⟨part, hpart, others, hothers, rfl⟩ := gather_cons_eq_ok.mp h
    rw [List.mem_append, ih hothers]
    constructor
    · rintro (hx | ⟨item, hitem, hx⟩)
      · exact ⟨first, List.mem_cons_self, part, hpart, hx⟩
      · exact ⟨item, List.mem_cons_of_mem first hitem, hx⟩
    · rintro ⟨item, hitem, part', hpart', hx⟩
      rcases List.mem_cons.mp hitem with rfl | hitem
      · rw [hpart] at hpart'
        cases hpart'
        exact Or.inl hx
      · exact Or.inr ⟨item, hitem, part', hpart', hx⟩

theorem exists_gather {items : List α} (h : ∀ item ∈ items, ∃ part, f item = .ok part) :
    ∃ all, gather f items = .ok all := by
  induction items with
  | nil => exact ⟨[], rfl⟩
  | cons first rest ih =>
    obtain ⟨part, hpart⟩ := h first List.mem_cons_self
    obtain ⟨others, hothers⟩ := ih fun item hitem ↦ h item (List.mem_cons_of_mem first hitem)
    exact ⟨part ++ others, gather_cons_eq_ok.mpr ⟨part, hpart, others, hothers, rfl⟩⟩

/-- Parts without repetitions that are apart from each other have none together. -/
theorem nodup_gather {items : List α} {all : List β} (h : gather f items = .ok all)
    (hparts : ∀ item ∈ items, ∀ part, f item = .ok part → part.Nodup)
    (hapart : items.Pairwise fun item other ↦ ∀ part part', f item = .ok part →
      f other = .ok part' → part.Disjoint part') : all.Nodup := by
  induction items generalizing all with
  | nil =>
    cases h
    exact List.nodup_nil
  | cons first rest ih =>
    obtain ⟨part, hpart, others, hothers, rfl⟩ := gather_cons_eq_ok.mp h
    obtain ⟨hfirst, hrest⟩ := List.pairwise_cons.mp hapart
    refine List.Nodup.append (hparts first List.mem_cons_self part hpart) (ih hothers
      (fun item hitem ↦ hparts item (List.mem_cons_of_mem first hitem)) hrest) ?_
    intro x hx hx'
    obtain ⟨item, hitem, part', hpart', hx''⟩ := (mem_gather hothers).mp hx'
    exact hfirst item hitem part part' hpart hpart' hx hx''

end Gather

/-- The callback that keeps a list of what it is handed. -/
def record (addr : PciAddr) (log : List PciAddr) : Iter × List PciAddr :=
  (.iterContinue, log ++ [addr])

/-- The loop adds something to the list and does not stop. -/
def Logs (loop : List PciAddr → Except Fault (Iter × List PciAddr))
    (out : Except Fault (List PciAddr)) : Prop :=
  ∀ log, loop log = (fun part ↦ (.iterContinue, log ++ part)) <$> out

variable (group : PciGroup)

/-- What is handed out for a slot, starting from one of its functions. -/
def handed (bus func slot : ℕ) : List (ℕ × ℕ) :=
  if (group.space bus slot func).present then
    (slot, func) :: if (group.space bus slot func).multi then
      ((List.range' 1 7).filter fun other ↦ (group.space bus slot other).present).map (slot, ·)
    else []
  else []

/-- The functions that a bus is gone over with. -/
def starts (bus : ℕ) : List ℕ :=
  if (group.space bus 0 0).multi then
    (List.range 8).filter fun func ↦ (group.space bus 0 func).present
  else [0]

/-- What is handed out on a bus itself. -/
def own (bus : ℕ) : List (ℕ × ℕ) :=
  (starts group bus).flatMap fun func ↦ (List.range 32).flatMap (handed group bus func)

/-- What is handed out for a function: itself, and for a bridge what is behind it. -/
def visitFunc (below : ℕ → Except Fault (List PciAddr)) (bus : ℕ) (place : ℕ × ℕ) :
    Except Fault (List PciAddr) := do
  let config := group.space bus place.1 place.2
  let behind ← if config.bridge then below config.secondaryBusNumber.toNat else .ok []
  return ⟨group.seg, bus, place.1, place.2⟩ :: behind

/-- What is handed out for a bus and those behind its bridges. -/
def visits : ℕ → ℕ → Except Fault (List PciAddr)
  | 0, _ => .error .depth
  | depth + 1, bus =>
    if InWindow group bus then
      gather (visitFunc group (visits depth) bus) (own group bus)
    else .error .outOfBounds

variable {group} {bus slot func : ℕ}

attribute [local grind =] visits handed starts visitFunc

theorem logs_iterFor {body : ℕ → List PciAddr → Except Fault (Iter × List PciAddr)}
    {out : ℕ → Except Fault (List PciAddr)} {items : List ℕ}
    (h : ∀ item ∈ items, Logs (body item) (out item)) :
    Logs (iterFor body items) (gather out items) := by
  induction items with
  | nil =>
    intro log
    rw [gather, iterFor]
    exact congrArg (fun log ↦ Except.ok (Iter.iterContinue, log)) (List.append_nil log).symm
  | cons item rest ih =>
    intro log
    have hrest := ih fun other hother ↦ h other (List.mem_cons_of_mem item hother)
    rw [iterFor, gather, h item List.mem_cons_self log]
    cases out item with
    | error fault => rfl
    | ok part =>
      rw [ok_bind]
      exact (hrest (log ++ part)).trans (by cases gather out rest <;> simp [List.append_assoc])

/-- A part of a loop that passes over functions that are not there. -/
theorem logs_present {addr : PciAddr} {config : PciConfig}
    {loop : List PciAddr → Except Fault (Iter × List PciAddr)} {out : Except Fault (List PciAddr)}
    (hload : loadConfig group (pciGroupConfig group addr) = .ok config) (h : Logs loop out) :
    Logs (fun log ↦ do
        let config ← loadConfig group (pciGroupConfig group addr)
        if config.present then loop log else return (.iterContinue, log))
      (if config.present then out else .ok []) := by
  intro log
  simp only [hload, ok_bind]
  by_cases hpresent : config.present = true
  · rw [if_pos hpresent, if_pos hpresent, h log]
  · rw [if_neg hpresent, if_neg hpresent]
    exact congrArg (fun log ↦ Except.ok (Iter.iterContinue, log)) (List.append_nil log).symm

section Bus

variable {iterGroup : PciAddr → List PciAddr → Except Fault (Iter × List PciAddr)}
  {below : ℕ → Except Fault (List PciAddr)}

theorem logs_pciIterFunc (hbelow : ∀ bus, Logs (iterGroup ⟨group.seg, bus, 0, 0⟩) (below bus))
    (hbus : InWindow group bus) (hslot : slot < 32) (hfunc : func < 8) :
    Logs (pciIterFunc group record iterGroup ⟨group.seg, bus, slot, func⟩)
      (visitFunc group below bus (slot, func)) := by
  intro log
  rw [pciIterFunc, record, visitFunc]
  dsimp only
  rw [loadConfig_eq hbus hslot hfunc, ok_bind]
  by_cases hbridge : (group.space bus slot func).bridge = true
  · rw [if_pos hbridge, if_pos hbridge, hbelow]
    cases below (group.space bus slot func).secondaryBusNumber.toNat <;>
      simp [List.append_assoc, bind, Except.bind, pure, Except.pure]
  · rw [if_neg hbridge, if_neg hbridge]
    rfl

theorem logs_pciIterSlot (hbelow : ∀ bus, Logs (iterGroup ⟨group.seg, bus, 0, 0⟩) (below bus))
    (hbus : InWindow group bus) (hslot : slot < 32) (hfunc : func < 8)
    (hpresent : (group.space bus slot func).present = true) :
    Logs (pciIterSlot group record iterGroup ⟨group.seg, bus, slot, func⟩)
      (gather (visitFunc group below bus) (handed group bus func slot)) := by
  intro log
  rw [pciIterSlot, handed, if_pos hpresent, gather, logs_pciIterFunc hbelow hbus hslot hfunc log]
  cases visitFunc group below bus (slot, func) with
  | error fault => rfl
  | ok part =>
    rw [ok_bind]
    by_cases hmulti : (group.space bus slot func).multi = true
    · have hothers : Logs (iterFor (fun func ctx ↦ do
            let config ← loadConfig group (pciGroupConfig group ⟨group.seg, bus, slot, func⟩)
            if config.present then
              pciIterFunc group record iterGroup ⟨group.seg, bus, slot, func⟩ ctx
            else return (.iterContinue, ctx)) (List.range' 1 7))
          (gather (visitFunc group below bus)
            (((List.range' 1 7).filter fun other ↦ (group.space bus slot other).present).map
              (slot, ·))) := by
        rw [gather_map, gather_filter]
        apply logs_iterFor
        intro other hother
        have hlt : other < 8 := by
          rw [List.mem_range'_1] at hother
          omega
        exact logs_present (loadConfig_eq hbus hslot hlt)
          (logs_pciIterFunc hbelow hbus hslot hlt)
      rw [if_pos hmulti]
      have hlog := hothers (log ++ part)
      simp only [Functor.map, Except.map, bind, Except.bind, loadConfig_eq hbus hslot hfunc,
        if_pos hmulti] at hlog ⊢
      rw [hlog]
      cases gather (visitFunc group below bus)
        (((List.range' 1 7).filter fun other ↦ (group.space bus slot other).present).map
          (slot, ·)) <;> simp [List.append_assoc, pure, Except.pure]
    · rw [if_neg hmulti]
      simp [gather, bind, Except.bind, loadConfig_eq hbus hslot hfunc, hmulti, pure, Except.pure]

theorem logs_pciIterBus (hbelow : ∀ bus, Logs (iterGroup ⟨group.seg, bus, 0, 0⟩) (below bus))
    (hbus : InWindow group bus) (hfunc : func < 8) (first : ℕ) :
    Logs (pciIterBus group record iterGroup ⟨group.seg, bus, first, func⟩)
      (gather (visitFunc group below bus) ((List.range 32).flatMap (handed group bus func))) := by
  rw [gather_flatMap]
  apply logs_iterFor
  intro slot hslot
  rw [List.mem_range] at hslot
  have hload := loadConfig_eq hbus hslot hfunc
  by_cases hpresent : (group.space bus slot func).present = true
  · have hlogs := logs_present hload (logs_pciIterSlot hbelow hbus hslot hfunc hpresent)
    rwa [if_pos hpresent] at hlogs
  · intro log
    rw [handed, if_neg hpresent]
    simp only [hload, ok_bind, if_neg hpresent]
    exact congrArg (fun log ↦ Except.ok (Iter.iterContinue, log)) (List.append_nil log).symm

end Bus

/-- The enumeration of a bus hands out what is listed for it. -/
theorem logs_pciIterGroup (depth bus : ℕ) :
    Logs (pciIterGroup group record depth ⟨group.seg, bus, 0, 0⟩) (visits group depth bus) := by
  induction depth generalizing bus with
  | zero => exact fun _ ↦ rfl
  | succ depth ih =>
    intro log
    rw [pciIterGroup, visits]
    by_cases hbus : InWindow group bus
    · rw [loadConfig_eq hbus (Nat.succ_pos 31) (Nat.succ_pos 7), ok_bind, if_pos hbus, own,
        gather_flatMap, starts]
      by_cases hmulti : (group.space bus 0 0).multi = true
      · rw [if_pos hmulti, if_pos hmulti, gather_filter]
        apply logs_iterFor
        intro func hfunc
        rw [List.mem_range] at hfunc
        exact logs_present (loadConfig_eq hbus (Nat.succ_pos 31) hfunc)
          (logs_pciIterBus ih hbus hfunc 0)
      · rw [if_neg hmulti, if_neg hmulti, logs_pciIterBus ih hbus (Nat.succ_pos 7) 0 log, gather,
          gather]
        cases gather (visitFunc group (visits group depth) bus)
          ((List.range 32).flatMap (handed group bus 0)) <;>
            simp [bind, Except.bind, pure, Except.pure]
    · rw [loadConfig_outside hbus, if_neg hbus]
      rfl

/-- The function is there. -/
def Present (group : PciGroup) (bus slot func : ℕ) : Prop :=
  slot < 32 ∧ func < 8 ∧ (group.space bus slot func).present = true

/-- The bus is gone over once, with function 0: the header of its first function says that there are
no others, or it is the only function of the first slot. -/
def FirstOnly (group : PciGroup) (bus : ℕ) : Prop :=
  (group.space bus 0 0).multi = false ∨
    Present group bus 0 0 ∧ ∀ func, Present group bus 0 func → func = 0

/-- On a bus that is gone over once, every slot has function 0, whose header announces the other
ones; on another bus, every function has a number that is there in the first slot, and no header
announces others. -/
structure Orderly (group : PciGroup) (bus : ℕ) : Prop where
  first : FirstOnly group bus → ∀ slot func, Present group bus slot func →
    Present group bus slot 0 ∧ (func ≠ 0 → (group.space bus slot 0).multi = true)
  others : ¬ FirstOnly group bus → ∀ slot func, Present group bus slot func →
    Present group bus 0 func ∧ (group.space bus slot func).multi = false

theorem mem_handed {start : ℕ} {place : ℕ × ℕ} : place ∈ handed group bus start slot ↔
    place.1 = slot ∧ (group.space bus slot start).present = true ∧
      (place.2 = start ∨ (group.space bus slot start).multi = true ∧
        place.2 ≠ 0 ∧ place.2 < 8 ∧ (group.space bus slot place.2).present = true) := by
  obtain ⟨slot', func⟩ := place
  rw [handed]
  by_cases hpresent : (group.space bus slot start).present = true
  · rw [if_pos hpresent]
    by_cases hmulti : (group.space bus slot start).multi = true
    · rw [if_pos hmulti]
      simp only [List.mem_cons, Prod.mk.injEq, List.mem_map, List.mem_filter, List.mem_range'_1,
        hpresent, hmulti, true_and]
      constructor
      · rintro (⟨rfl, rfl⟩ | ⟨func', ⟨hrange, hfunc⟩, rfl, rfl⟩)
        · exact ⟨rfl, Or.inl rfl⟩
        · exact ⟨rfl, Or.inr ⟨by omega, by omega, hfunc⟩⟩
      · rintro ⟨rfl, rfl | ⟨hne, hlt, hfunc⟩⟩
        · exact Or.inl ⟨rfl, rfl⟩
        · exact Or.inr ⟨func, ⟨by omega, hfunc⟩, rfl, rfl⟩
    · simp [hpresent, hmulti]
  · simp [hpresent]

theorem mem_starts {start : ℕ} : start ∈ starts group bus ↔
    if (group.space bus 0 0).multi = true then Present group bus 0 start else start = 0 := by
  rw [starts]
  split
  next => simp [Present, List.mem_filter]
  next => simp

theorem lt_of_mem_starts {start : ℕ} (h : start ∈ starts group bus) : start < 8 := by
  rw [mem_starts] at h
  split at h
  next => exact h.2.1
  next => omega

theorem mem_own {place : ℕ × ℕ} : place ∈ own group bus ↔ ∃ start ∈ starts group bus,
    place.1 < 32 ∧ place ∈ handed group bus start place.1 := by
  simp only [own, List.mem_flatMap, List.mem_range]
  constructor
  · rintro ⟨start, hstart, slot, hslot, hplace⟩
    have heq := (mem_handed.mp hplace).1
    rw [← heq] at hslot hplace
    exact ⟨start, hstart, hslot, hplace⟩
  · rintro ⟨start, hstart, hslot, hplace⟩
    exact ⟨start, hstart, place.1, hslot, hplace⟩

/-- What is handed out on a bus is there. -/
theorem present_of_mem_own (h : (slot, func) ∈ own group bus) : Present group bus slot func := by
  obtain ⟨start, hstart, hslot, hplace⟩ := mem_own.mp h
  obtain ⟨-, hpresent, rfl | ⟨-, -, hlt, hfunc⟩⟩ := mem_handed.mp hplace
  · exact ⟨hslot, lt_of_mem_starts hstart, hpresent⟩
  · exact ⟨hslot, hlt, hfunc⟩

/-- On a bus that is gone over once, the only start is function 0. -/
theorem FirstOnly.starts_eq (h : FirstOnly group bus) : starts group bus = [0] := by
  rcases h with h | ⟨hzero, honly⟩
  · rw [starts, if_neg (by simp [h])]
  · rw [starts]
    split
    next =>
      have hfilter : ((List.range 8).filter fun func ↦ (group.space bus 0 func).present) =
          (List.range 8).filter fun func ↦ func = 0 := by
        apply List.filter_congr
        intro func hfunc
        rw [List.mem_range] at hfunc
        by_cases hz : func = 0
        · simp [hz, hzero.2.2]
        · have hnot : ¬ (group.space bus 0 func).present = true := fun hpresent ↦
            hz (honly func ⟨by decide, hfunc, hpresent⟩)
          simp [hz, hnot]
      rw [hfilter]
      decide
    next => rfl

/-- The functions of a slot that are handed out from one start are handed out once, unless the start
is announced by itself. -/
theorem nodup_handed_iff {start : ℕ} (hstart : start < 8) : (handed group bus start slot).Nodup ↔
    ((group.space bus slot start).present = true → (group.space bus slot start).multi = true →
      start = 0) := by
  rw [handed]
  by_cases hpresent : (group.space bus slot start).present = true
  · by_cases hmulti : (group.space bus slot start).multi = true
    · have hrest : (((List.range' 1 7).filter fun other ↦
          (group.space bus slot other).present).map (slot, ·)).Nodup :=
        (List.Nodup.filter _ (List.nodup_range' 1)).map fun a b h ↦ (Prod.mk.inj h).2
      rw [if_pos hpresent, if_pos hmulti, List.nodup_cons, and_iff_left hrest]
      simp only [hpresent, hmulti, forall_const, List.mem_map, List.mem_filter, List.mem_range'_1,
        Prod.mk.injEq, true_and, exists_eq_right, and_true]
      omega
    · simp [hpresent, hmulti]
  · simp [hpresent]

/-- What is handed out from two starts is not handed out once. -/
theorem starts_unique (hnodup : (own group bus).Nodup) {start start' : ℕ} {place : ℕ × ℕ}
    (hstart : start ∈ starts group bus) (hstart' : start' ∈ starts group bus)
    (hslot : place.1 < 32) (hplace : place ∈ handed group bus start place.1)
    (hplace' : place ∈ handed group bus start' place.1) : start = start' := by
  by_contra hne
  obtain ⟨-, hapart⟩ := List.nodup_flatMap.mp hnodup
  have hmem : ∀ {start}, place ∈ handed group bus start place.1 →
      place ∈ (List.range 32).flatMap (handed group bus start) := fun h ↦
    List.mem_flatMap.mpr ⟨place.1, List.mem_range.mpr hslot, h⟩
  have hsymm : Std.Symm (Function.onFun List.Disjoint fun start ↦
      (List.range 32).flatMap (handed group bus start)) := ⟨fun _ _ h ↦ h.symm⟩
  exact hapart.forall hstart hstart' hne (hmem hplace) (hmem hplace')

/-- A function that is handed out once from a start other than 0 does not announce others. -/
theorem multi_of_nodup (hnodup : (own group bus).Nodup) {start : ℕ}
    (hstart : start ∈ starts group bus) (hne : start ≠ 0)
    (hpresent : Present group bus slot start) :
    (group.space bus slot start).multi = false := by
  obtain ⟨hslot, hlt, hthere⟩ := hpresent
  obtain ⟨hparts, -⟩ := List.nodup_flatMap.mp hnodup
  obtain ⟨hslots, -⟩ := List.nodup_flatMap.mp (hparts start hstart)
  have honce := (nodup_handed_iff hlt).mp (hslots slot (List.mem_range.mpr hslot)) hthere
  by_contra hmulti
  exact hne (honce (by simpa using hmulti))

/-- On a bus that is not gone over once, the starts are the functions of the first slot. -/
theorem mem_starts_of_not (h : ¬ FirstOnly group bus) {start : ℕ} :
    start ∈ starts group bus ↔ Present group bus 0 start := by
  have hmulti : (group.space bus 0 0).multi = true := by
    by_contra hmulti
    exact h (Or.inl (by simpa using hmulti))
  rw [mem_starts, if_pos hmulti]

theorem orderly_of_once (hnodup : (own group bus).Nodup)
    (hall : ∀ slot func, Present group bus slot func → (slot, func) ∈ own group bus) :
    Orderly group bus where
  first honly slot func hpresent := by
    obtain ⟨start, hstart, hslot, hplace⟩ := mem_own.mp (hall slot func hpresent)
    rw [honly.starts_eq, List.mem_singleton] at hstart
    subst hstart
    obtain ⟨-, hzero, hfunc⟩ := mem_handed.mp hplace
    refine ⟨⟨hslot, by decide, hzero⟩, fun hne ↦ ?_⟩
    rcases hfunc with hfunc | ⟨hmulti, -⟩
    · exact absurd hfunc hne
    · exact hmulti
  others hnot slot func hpresent := by
    have hmulti : (group.space bus 0 0).multi = true := by
      by_contra hmulti
      exact hnot (Or.inl (by simpa using hmulti))
    have hzero : ¬ Present group bus 0 0 := by
      intro hzero
      apply hnot
      refine Or.inr ⟨hzero, fun other hother ↦ ?_⟩
      by_contra hne
      refine hne (@starts_unique _ _ hnodup _ _ (0, other) ((mem_starts_of_not hnot).mpr hother)
        ((mem_starts_of_not hnot).mpr hzero) (by dsimp only; omega) ?_ ?_)
      · exact mem_handed.mpr ⟨rfl, hother.2.2, Or.inl rfl⟩
      · exact mem_handed.mpr
          ⟨rfl, hzero.2.2, Or.inr ⟨hmulti, hne, hother.2.1, hother.2.2⟩⟩
    obtain ⟨start, hstart, hslot, hplace⟩ := mem_own.mp (hall slot func hpresent)
    obtain ⟨-, hthere, hfunc⟩ := mem_handed.mp hplace
    have hfirst := (mem_starts_of_not hnot).mp hstart
    have hne : start ≠ 0 := by
      rintro rfl
      exact hzero hfirst
    have hsingle := multi_of_nodup hnodup hstart hne ⟨hslot, lt_of_mem_starts hstart, hthere⟩
    rcases hfunc with rfl | ⟨hmulti', -⟩
    · exact ⟨hfirst, hsingle⟩
    · rw [hsingle] at hmulti'
      cases hmulti'

theorem Orderly.once (h : Orderly group bus) : (own group bus).Nodup ∧
    ∀ slot func, Present group bus slot func → (slot, func) ∈ own group bus := by
  have hslots : ∀ start, (List.range 32).Pairwise
      (Function.onFun List.Disjoint (handed group bus start)) := by
    intro start
    apply List.nodup_range.imp
    intro slot slot' hne place hplace hplace'
    exact hne ((mem_handed.mp hplace).1.symm.trans (mem_handed.mp hplace').1)
  by_cases honly : FirstOnly group bus
  · have hstarts := honly.starts_eq
    constructor
    · rw [own, hstarts, List.flatMap_singleton]
      exact List.nodup_flatMap.mpr
        ⟨fun slot _ ↦ (nodup_handed_iff (by decide)).mpr fun _ _ ↦ rfl, hslots 0⟩
    · intro slot func hpresent
      obtain ⟨hzero, hmulti⟩ := h.first honly slot func hpresent
      refine mem_own.mpr ⟨0, by rw [hstarts]; exact List.mem_singleton_self 0, hpresent.1,
        mem_handed.mpr ⟨rfl, hzero.2.2, ?_⟩⟩
      by_cases hfunc : func = 0
      · exact Or.inl hfunc
      · exact Or.inr ⟨hmulti hfunc, hfunc, hpresent.2.1, hpresent.2.2⟩
  · have hsingle : ∀ slot start, slot < 32 → start < 8 →
        (group.space bus slot start).present = true →
          (group.space bus slot start).multi = false := fun slot start hslot hstart hpresent ↦
      (h.others honly slot start ⟨hslot, hstart, hpresent⟩).2
    have hstarts : (starts group bus).Nodup := by
      rw [starts]
      split
      next => exact List.nodup_range.filter _
      next => exact List.nodup_singleton 0
    constructor
    · refine List.nodup_flatMap.mpr ⟨fun start hstart ↦ List.nodup_flatMap.mpr
        ⟨fun slot hslot ↦ ?_, hslots start⟩, ?_⟩
      · have hlt := lt_of_mem_starts hstart
        refine (nodup_handed_iff hlt).mpr fun hpresent hmulti ↦ ?_
        rw [hsingle slot start (List.mem_range.mp hslot) hlt hpresent] at hmulti
        cases hmulti
      · -- Each start hands out functions of its own number only.
        have hnumber : ∀ start ∈ starts group bus, ∀ place : ℕ × ℕ,
            place ∈ (List.range 32).flatMap (handed group bus start) → place.2 = start := by
          intro start hstart place hplace
          obtain ⟨slot, hslot, hplace⟩ := List.mem_flatMap.mp hplace
          obtain ⟨-, hpresent, hfunc | ⟨hmulti, -⟩⟩ := mem_handed.mp hplace
          · exact hfunc
          · rw [hsingle slot start (List.mem_range.mp hslot) (lt_of_mem_starts hstart)
              hpresent] at hmulti
            cases hmulti
        apply hstarts.imp_of_mem
        intro start start' hstart hstart' hne place hplace hplace'
        exact hne ((hnumber start hstart place hplace).symm.trans
          (hnumber start' hstart' place hplace'))
    · intro slot func hpresent
      exact mem_own.mpr ⟨func, (mem_starts_of_not honly).mpr (h.others honly slot func hpresent).1,
        hpresent.1, mem_handed.mpr ⟨rfl, hpresent.2.2, Or.inl rfl⟩⟩

/-! ## The tree of the buses -/

/-- A bridge on a bus leads to another one. -/
def LeadsTo (group : PciGroup) (bus slot func bus' : ℕ) : Prop :=
  Present group bus slot func ∧ (group.space bus slot func).bridge = true ∧
    (group.space bus slot func).secondaryBusNumber.toNat = bus'

def Child (group : PciGroup) (bus bus' : ℕ) : Prop := ∃ slot func, LeadsTo group bus slot func bus'

/-- A bus that is reached from bus 0. -/
abbrev BusReached (group : PciGroup) (bus : ℕ) : Prop := ReflTransGen (Child group) 0 bus

/-- The bridges form a tree over the buses: no two lead to the same bus, and none to bus 0. -/
structure BridgesFormTree (pciGroup : PciGroup) : Prop where
  tree : IsTree (Child pciGroup) 0
  bridge : ∀ bus, BusReached pciGroup bus → ∀ slot func slot' func' bus',
    LeadsTo pciGroup bus slot func bus' → LeadsTo pciGroup bus slot' func' bus' →
      slot = slot' ∧ func = func'

theorem visitFunc_eq_ok {below : ℕ → Except Fault (List PciAddr)} {place : ℕ × ℕ}
    {part : List PciAddr} : visitFunc group below bus place = .ok part ↔
      ∃ behind, (if (group.space bus place.1 place.2).bridge then
          below (group.space bus place.1 place.2).secondaryBusNumber.toNat else .ok []) =
            .ok behind ∧ ⟨group.seg, bus, place.1, place.2⟩ :: behind = part := by
  rw [visitFunc]
  by_cases hbridge : (group.space bus place.1 place.2).bridge = true
  · rw [if_pos hbridge, if_pos hbridge, bind_eq_ok]
    simp only [pure_eq_ok]
  · rw [if_neg hbridge, if_neg hbridge, bind_eq_ok]
    simp only [pure_eq_ok]

/-- What is handed out for a bus is there, on the bus or on one below it. -/
theorem present_of_mem_visits {depth : ℕ} {all : List PciAddr}
    (h : visits group depth bus = .ok all) {addr : PciAddr} (haddr : addr ∈ all) :
    addr.seg = group.seg ∧ ReflTransGen (Child group) bus addr.bus ∧
      (addr.slot, addr.func) ∈ own group addr.bus := by
  induction depth generalizing bus all with
  | zero => cases h
  | succ depth ih =>
    rw [visits] at h
    split at h
    next =>
      obtain ⟨⟨slot, func⟩, hplace, part, hpart, haddr⟩ := (mem_gather h).mp haddr
      obtain ⟨behind, hbehind, rfl⟩ := visitFunc_eq_ok.mp hpart
      rcases List.mem_cons.mp haddr with rfl | haddr
      · exact ⟨rfl, .refl, hplace⟩
      · split at hbehind
        next hbridge =>
          obtain ⟨hseg, hbelow, hown⟩ := ih hbehind haddr
          have hchild : Child group bus
              (group.space bus slot func).secondaryBusNumber.toNat :=
            ⟨slot, func, present_of_mem_own hplace, hbridge, rfl⟩
          exact ⟨hseg, .head hchild hbelow, hown⟩
        next =>
          cases hbehind
          exact absurd haddr List.not_mem_nil
    next => cases h

/-- The visit of a bus in the window hands out its own functions, and what is behind its bridges. -/
theorem sublist_of_visits {depth : ℕ} {all : List PciAddr}
    (h : visits group depth bus = .ok all) :
    InWindow group bus ∧
      ((own group bus).map fun place ↦ (⟨group.seg, bus, place.1, place.2⟩ : PciAddr)).Sublist all ∧
        ∀ place ∈ own group bus, (group.space bus place.1 place.2).bridge = true →
          ∃ depth' behind, visits group depth'
            (group.space bus place.1 place.2).secondaryBusNumber.toNat = .ok behind ∧
              behind.Sublist all := by
  cases depth with
  | zero => cases h
  | succ depth =>
    rw [visits] at h
    split at h
    next hbus =>
      refine ⟨hbus, ?_, fun place hplace hbridge ↦ ?_⟩
      · have hmap : ∀ {places : List (ℕ × ℕ)} {all : List PciAddr},
            gather (visitFunc group (visits group depth) bus) places = .ok all →
              (places.map fun place ↦
                (⟨group.seg, bus, place.1, place.2⟩ : PciAddr)).Sublist all := by
          intro places
          induction places with
          | nil => exact fun _ ↦ List.nil_sublist _
          | cons place rest ih =>
            intro all hall
            obtain ⟨part, hpart, others, hothers, rfl⟩ := gather_cons_eq_ok.mp hall
            obtain ⟨behind, -, rfl⟩ := visitFunc_eq_ok.mp hpart
            exact ((ih hothers).trans (List.sublist_append_right behind others)).cons_cons _
        exact hmap h
      · obtain ⟨part, hpart, hsub⟩ := sublist_of_gather h hplace
        obtain ⟨behind, hbehind, rfl⟩ := visitFunc_eq_ok.mp hpart
        rw [if_pos hbridge] at hbehind
        exact ⟨depth, behind, hbehind, (List.sublist_cons_self _ behind).trans hsub⟩
    next => cases h

/-- Where all functions of a bus are handed out with it, every bus that is reached is visited in
some part of the enumeration. -/
theorem exists_visited (hpresent : ∀ bus, BusReached group bus → ∀ slot func,
      Present group bus slot func → (slot, func) ∈ own group bus) {depth : ℕ} {all : List PciAddr}
    (hall : visits group depth 0 = .ok all) (hbus : BusReached group bus) :
    ∃ depth part, visits group depth bus = .ok part ∧ part.Sublist all := by
  induction hbus with
  | refl => exact ⟨depth, all, hall, List.Sublist.refl all⟩
  | @tail bus bus' hbus hstep ih =>
    obtain ⟨depth', part, hpart, hsub⟩ := ih
    obtain ⟨slot, func, hfunc, hbridge, rfl⟩ := hstep
    obtain ⟨-, -, hbehind⟩ := sublist_of_visits hpart
    obtain ⟨depth'', behind, hvisit, hsub'⟩ :=
      hbehind (slot, func) (hpresent bus hbus slot func hfunc) hbridge
    exact ⟨depth'', behind, hvisit, hsub'.trans hsub⟩

/-- What is handed out from a bus on is what is there on the buses below it, and nothing twice. -/
structure Complete (pciGroup : PciGroup) (all : List PciAddr) : Prop where
  nodup : all.Nodup
  mem : ∀ addr, addr ∈ all ↔ addr.seg = pciGroup.seg ∧ BusReached pciGroup addr.bus ∧
    Present pciGroup addr.bus addr.slot addr.func

/-- An enumeration that hands out everything once goes over buses in the window whose functions are
in order. -/
theorem Complete.orderly {depth : ℕ} {all : List PciAddr} (h : Complete group all)
    (hall : visits group depth 0 = .ok all) (hbus : BusReached group bus) :
    InWindow group bus ∧ Orderly group bus := by
  have hpresent : ∀ bus, BusReached group bus → ∀ slot func, Present group bus slot func →
      (slot, func) ∈ own group bus := by
    intro bus hbus slot func hfunc
    exact (present_of_mem_visits hall
      ((h.mem ⟨group.seg, bus, slot, func⟩).mpr ⟨rfl, hbus, hfunc⟩)).2.2
  obtain ⟨depth', part, hpart, hsub⟩ := exists_visited hpresent hall hbus
  obtain ⟨hwindow, hown, -⟩ := sublist_of_visits hpart
  have hnodup : (own group bus).Nodup :=
    (h.nodup.sublist (hown.trans hsub)).of_map _
  exact ⟨hwindow, orderly_of_once hnodup (hpresent bus hbus)⟩

/-- With enough depth for the buses that are not used yet, the visit of a bus ends. -/
theorem exists_visits (htree : BridgesFormTree group)
    (hwindow : ∀ bus, BusReached group bus → InWindow group bus) {depth : ℕ}
    (hbus : BusReached group bus) {used : List ℕ} (hused : used.Nodup)
    (habove : ∀ other ∈ used, other < 256 ∧ TransGen (Child group) other bus)
    (hdepth : 257 ≤ depth + used.length) : ∃ all, visits group depth bus = .ok all := by
  induction depth generalizing bus used with
  | zero =>
    have hle : used.length ≤ (List.range 256).length :=
      (List.subperm_of_subset hused fun other hother ↦
        List.mem_range.mpr (habove other hother).1).length_le
    rw [List.length_range] at hle
    omega
  | succ depth ih =>
    rw [visits, if_pos (hwindow bus hbus)]
    apply exists_gather
    rintro ⟨slot, func⟩ hplace
    have hlt : bus < 256 := by
      rcases ReflTransGen.cases_tail hbus with rfl | ⟨_, _, slot, func, _, _, rfl⟩
      · decide
      · exact UInt8.toNat_lt _
    rw [visitFunc]
    by_cases hbridge : (group.space bus slot func).bridge = true
    · have hchild : Child group bus (group.space bus slot func).secondaryBusNumber.toNat :=
        ⟨slot, func, present_of_mem_own hplace, hbridge, rfl⟩
      obtain ⟨behind, hbehind⟩ := @ih _ (hbus.tail hchild) (bus :: used)
        (List.nodup_cons.mpr
          ⟨fun hmem ↦ htree.tree.acyclic hbus (habove bus hmem).2, hused⟩)
        (fun other hother ↦ by
          rcases List.mem_cons.mp hother with rfl | hother
          · exact ⟨hlt, .single hchild⟩
          · obtain ⟨hlt', habove'⟩ := habove other hother
            exact ⟨hlt', habove'.tail hchild⟩)
        (by rw [List.length_cons]; omega)
      rw [if_pos hbridge, hbehind]
      exact ⟨_, rfl⟩
    · rw [if_neg hbridge]
      exact ⟨_, rfl⟩

/-- Over buses in the window whose functions are in order, nothing is handed out twice. -/
theorem nodup_visits (htree : BridgesFormTree group)
    (horderly : ∀ bus, BusReached group bus → Orderly group bus) {depth : ℕ} {all : List PciAddr}
    (hbus : BusReached group bus) (h : visits group depth bus = .ok all) : all.Nodup := by
  induction depth generalizing bus all with
  | zero => cases h
  | succ depth ih =>
    rw [visits] at h
    split at h
    next =>
      have hpart : ∀ place ∈ own group bus, ∀ part,
          visitFunc group (visits group depth) bus place = .ok part →
            ∃ behind, part = ⟨group.seg, bus, place.1, place.2⟩ :: behind ∧ behind.Nodup ∧
              ∀ addr ∈ behind, ∃ bus', LeadsTo group bus place.1 place.2 bus' ∧
                ReflTransGen (Child group) bus' addr.bus := by
        intro place hplace part hpart
        obtain ⟨behind, hbehind, rfl⟩ := visitFunc_eq_ok.mp hpart
        split at hbehind
        next hbridge =>
          have hleads : LeadsTo group bus place.1 place.2 _ :=
            ⟨present_of_mem_own hplace, hbridge, rfl⟩
          exact ⟨behind, rfl, ih (hbus.tail ⟨_, _, hleads⟩) hbehind,
            fun addr haddr ↦ ⟨_, hleads, (present_of_mem_visits hbehind haddr).2.1⟩⟩
        next =>
          cases hbehind
          exact ⟨[], rfl, List.nodup_nil, nofun⟩
      have hbelow : ∀ slot func bus', LeadsTo group bus slot func bus' →
          ¬ ReflTransGen (Child group) bus' bus := fun slot func bus' hleads hback ↦
        htree.tree.acyclic hbus (.head' ⟨slot, func, hleads⟩ hback)
      refine nodup_gather h (fun place hplace part hvisit ↦ ?_) ?_
      · obtain ⟨behind, rfl, hnodup, hleads⟩ := hpart place hplace part hvisit
        refine List.nodup_cons.mpr ⟨fun hmem ↦ ?_, hnodup⟩
        obtain ⟨bus', hbridge, hback⟩ := hleads _ hmem
        exact hbelow _ _ bus' hbridge hback
      · apply (horderly bus hbus).once.1.imp_of_mem
        intro place place' hplace hplace' hne part part' hvisit hvisit' addr haddr haddr'
        obtain ⟨behind, rfl, -, hleads⟩ := hpart place hplace part hvisit
        obtain ⟨behind', rfl, -, hleads'⟩ := hpart place' hplace' part' hvisit'
        rcases List.mem_cons.mp haddr with rfl | haddr
        · rcases List.mem_cons.mp haddr' with heq | haddr'
          · injection heq with _ _ hslot hfunc
            exact hne (Prod.ext hslot hfunc)
          · obtain ⟨bus', hbridge, hback⟩ := hleads' _ haddr'
            exact hbelow _ _ bus' hbridge hback
        · obtain ⟨bus', hbridge, hback⟩ := hleads _ haddr
          rcases List.mem_cons.mp haddr' with rfl | haddr'
          · exact hbelow _ _ bus' hbridge hback
          · obtain ⟨bus'', hbridge', hback'⟩ := hleads' _ haddr'
            have hsame : bus' = bus'' := htree.tree.siblings hbus ⟨_, _, hbridge⟩
              ⟨_, _, hbridge'⟩ hback hback'
            subst hsame
            obtain ⟨hslot, hfunc⟩ := htree.bridge bus hbus _ _ _ _ bus' hbridge hbridge'
            exact hne (Prod.ext hslot hfunc)
    next => cases h

/-- Over buses in the window whose functions are in order, everything is handed out once. -/
theorem exists_complete (htree : BridgesFormTree group)
    (h : ∀ bus, BusReached group bus → InWindow group bus ∧ Orderly group bus) :
    ∃ all, visits group 257 0 = .ok all ∧ Complete group all := by
  obtain ⟨all, hall⟩ := @exists_visits _ _ htree (fun bus hbus ↦ (h bus hbus).1) 257
    ReflTransGen.refl [] List.nodup_nil nofun (Nat.le_refl 257)
  have hpresent : ∀ bus, BusReached group bus → ∀ slot func, Present group bus slot func →
      (slot, func) ∈ own group bus := fun bus hbus ↦ (h bus hbus).2.once.2
  refine ⟨all, hall, nodup_visits htree (fun bus hbus ↦ (h bus hbus).2) .refl hall, ?_⟩
  rintro ⟨seg, bus, slot, func⟩
  constructor
  · intro hmem
    obtain ⟨hseg, hbus, hown⟩ := present_of_mem_visits hall hmem
    exact ⟨hseg, hbus, present_of_mem_own hown⟩
  · rintro ⟨rfl, hbus, hfunc⟩
    obtain ⟨depth, part, hpart, hsub⟩ := exists_visited hpresent hall hbus
    obtain ⟨-, hown, -⟩ := sublist_of_visits hpart
    exact hsub.subset (hown.subset
      (List.mem_map.mpr ⟨(slot, func), hpresent bus hbus slot func hfunc, rfl⟩))

/-- The enumeration of the groups hands out what is listed for each of them. -/
theorem logs_pciIter (depth : ℕ) (groups : List PciGroup) :
    Logs (pciIter depth record groups) (gather (fun group ↦ visits group depth 0) groups) := by
  induction groups with
  | nil =>
    intro log
    exact congrArg (fun log ↦ Except.ok (Iter.iterContinue, log)) (List.append_nil log).symm
  | cons group rest ih =>
    intro log
    rw [pciIter, gather, logs_pciIterGroup depth 0 log]
    cases visits group depth 0 with
    | error fault => rfl
    | ok part =>
      rw [ok_bind]
      exact (ih (log ++ part)).trans
        (by cases gather (fun group ↦ visits group depth 0) rest <;> simp [List.append_assoc])

/-- The enumeration calls its callback once for every function that is there and reached from the
root bus of its group, and for nothing else; it reads in the windows of the groups only. -/
def VisitsOnce (pci : Pci) : Prop :=
  ∃ depth log, pciIter depth record pci.groups [] = .ok (.iterContinue, log) ∧ log.Nodup ∧
    ∀ addr, addr ∈ log ↔ ∃ group ∈ pci.groups, addr.seg = group.seg ∧
      BusReached group addr.bus ∧ Present group addr.bus addr.slot addr.func

theorem pciIter_record {depth : ℕ} {groups : List PciGroup} {log : List PciAddr} :
    pciIter depth record groups [] = .ok (.iterContinue, log) ↔
      gather (fun group ↦ visits group depth 0) groups = .ok log := by
  rw [logs_pciIter depth groups []]
  cases gather (fun group ↦ visits group depth 0) groups <;> simp

/-- Groups of one segment are the same. -/
theorem Pci.group_eq (pci : Pci) {group' : PciGroup} (hgroup : group ∈ pci.groups)
    (hgroup' : group' ∈ pci.groups) (hseg : group.seg = group'.seg) : group = group' := by
  have hsymm : Std.Symm fun group other : PciGroup ↦ group.seg ≠ other.seg :=
    ⟨fun _ _ h ↦ h.symm⟩
  by_contra hne
  exact pci.apart.forall hgroup hgroup' hne hseg

theorem VisitsOnce.orderly {pci : Pci} (h : VisitsOnce pci) (hgroup : group ∈ pci.groups)
    (hbus : BusReached group bus) : InWindow group bus ∧ Orderly group bus := by
  obtain ⟨depth, log, hlog, hnodup, hmem⟩ := h
  rw [pciIter_record] at hlog
  obtain ⟨part, hpart, hsub⟩ := sublist_of_gather hlog hgroup
  have hcomplete : Complete group part := by
    refine ⟨hnodup.sublist hsub, fun addr ↦ ⟨fun haddr ↦ ?_, fun haddr ↦ ?_⟩⟩
    · obtain ⟨hseg, hreached, hown⟩ := present_of_mem_visits hpart haddr
      exact ⟨hseg, hreached, present_of_mem_own hown⟩
    · have haddr' := (hmem addr).mpr ⟨group, hgroup, haddr⟩
      obtain ⟨group', hgroup', part', hpart', hin⟩ := (mem_gather hlog).mp haddr'
      have hseg := (present_of_mem_visits hpart' hin).1
      have heq := pci.group_eq hgroup hgroup' (haddr.1.symm.trans hseg)
      subst heq
      rw [hpart] at hpart'
      cases hpart'
      exact hin
  exact hcomplete.orderly hpart hbus

theorem visitsOnce_of_orderly {pci : Pci}
    (htree : ∀ group ∈ pci.groups, BridgesFormTree group)
    (h : ∀ group ∈ pci.groups, ∀ bus, BusReached group bus →
      InWindow group bus ∧ Orderly group bus) :
    VisitsOnce pci := by
  have hcomplete : ∀ group ∈ pci.groups,
      ∃ all, visits group 257 0 = .ok all ∧ Complete group all :=
    fun group hgroup ↦ exists_complete (htree group hgroup) (h group hgroup)
  obtain ⟨log, hlog⟩ := exists_gather (f := fun group ↦ visits group 257 0) fun group hgroup ↦ by
    obtain ⟨all, hall, -⟩ := hcomplete group hgroup
    exact ⟨all, hall⟩
  refine ⟨257, log, pciIter_record.mpr hlog, ?_, fun addr ↦ ?_⟩
  · refine nodup_gather hlog (fun group hgroup part hpart ↦ ?_) ?_
    · obtain ⟨all, hall, hall'⟩ := hcomplete group hgroup
      rw [hall] at hpart
      cases hpart
      exact hall'.nodup
    · apply pci.apart.imp
      intro group other hne part part' hpart hpart' addr haddr haddr'
      exact hne ((present_of_mem_visits hpart haddr).1.symm.trans
        (present_of_mem_visits hpart' haddr').1)
  · rw [mem_gather hlog]
    constructor
    · rintro ⟨group, hgroup, part, hpart, haddr⟩
      obtain ⟨all, hall, hall'⟩ := hcomplete group hgroup
      rw [hall] at hpart
      cases hpart
      exact ⟨group, hgroup, (hall'.mem addr).mp haddr⟩
    · rintro ⟨group, hgroup, haddr⟩
      obtain ⟨all, hall, hall'⟩ := hcomplete group hgroup
      exact ⟨group, hgroup, all, hall, (hall'.mem addr).mpr haddr⟩

/-- Where bridges form trees, every function is visited once exactly when the buses that are reached
lie in the windows and their functions are in order. -/
theorem pci_visitsOnce_iff (pci : Pci) (htree : ∀ group ∈ pci.groups, BridgesFormTree group) :
    VisitsOnce pci ↔ ∀ group ∈ pci.groups, ∀ bus, BusReached group bus →
      InWindow group bus ∧ Orderly group bus :=
  ⟨fun h _ hgroup _ hbus ↦ h.orderly hgroup hbus, visitsOnce_of_orderly htree⟩

/-- The configuration of a function that is not there. -/
def absentConfig : PciConfig := ⟨0xFFFF, 0xFF, 0xFF, 0xFF, 0xFF⟩

/-- A bridge from bus 0 to bus 1, and a device behind it. -/
def bridgeGroup : PciGroup where
  seg := 0
  busStart := 0
  busEnd := 2
  space bus slot func :=
    if slot = 0 ∧ func = 0 then
      if bus = 0 then ⟨0x8086, 0x04, 0x06, 0x01, 1⟩
      else if bus = 1 then ⟨0x1af4, 0x00, 0x01, 0x00, 0⟩
      else absentConfig
    else absentConfig

theorem bridgeGroup_leadsTo {bus slot func bus' : ℕ} (h : LeadsTo bridgeGroup bus slot func bus') :
    bus = 0 ∧ slot = 0 ∧ func = 0 ∧ bus' = 1 := by
  obtain ⟨-, hbridge, rfl⟩ := h
  rw [bridgeGroup] at hbridge ⊢
  dsimp only at hbridge ⊢
  split at hbridge
  next hplace =>
    split at hbridge
    next hbus =>
      refine ⟨hbus, hplace.1, hplace.2, ?_⟩
      rw [if_pos hplace, if_pos hbus]
      rfl
    next => split at hbridge <;> exact absurd hbridge (by decide)
  next => exact absurd hbridge (by decide)

theorem bridgeGroup_tree : BridgesFormTree bridgeGroup where
  tree :=
    { top := by
        rintro bus - ⟨slot, func, hleads⟩
        exact absurd (bridgeGroup_leadsTo hleads).2.2.2 (by decide)
      parent := by
        rintro bus other child - - ⟨slot, func, hleads⟩ ⟨slot', func', hleads'⟩
        rw [(bridgeGroup_leadsTo hleads).1, (bridgeGroup_leadsTo hleads').1] }
  bridge := by
    intro bus _ slot func slot' func' bus' hleads hleads'
    obtain ⟨-, rfl, rfl, -⟩ := bridgeGroup_leadsTo hleads
    obtain ⟨-, rfl, rfl, -⟩ := bridgeGroup_leadsTo hleads'
    exact ⟨rfl, rfl⟩

theorem bridgeGroup_present {bus slot func : ℕ} (h : Present bridgeGroup bus slot func) :
    slot = 0 ∧ func = 0 ∧ (bus = 0 ∨ bus = 1) := by
  have hpresent := h.2.2
  rw [bridgeGroup] at hpresent
  dsimp only at hpresent
  split at hpresent
  next hplace =>
    split at hpresent
    next hbus => exact ⟨hplace.1, hplace.2, Or.inl hbus⟩
    next =>
      split at hpresent
      next hbus => exact ⟨hplace.1, hplace.2, Or.inr hbus⟩
      next => exact absurd hpresent (by decide)
  next => exact absurd hpresent (by decide)

theorem bridgeGroup_orderly (bus : ℕ) : Orderly bridgeGroup bus where
  first := by
    rintro - slot func hpresent
    obtain ⟨rfl, rfl, -⟩ := bridgeGroup_present hpresent
    exact ⟨hpresent, fun hne ↦ absurd rfl hne⟩
  others := by
    rintro - slot func hpresent
    obtain ⟨rfl, rfl, rfl | rfl⟩ := bridgeGroup_present hpresent
    · exact ⟨hpresent, rfl⟩
    · exact ⟨hpresent, rfl⟩

theorem bridgeGroup_inWindow {bus : ℕ} (h : BusReached bridgeGroup bus) :
    InWindow bridgeGroup bus := by
  cases h with
  | refl => exact ⟨by decide, by decide⟩
  | tail _ hchild =>
    obtain ⟨slot, func, hleads⟩ := hchild
    obtain ⟨-, -, -, rfl⟩ := bridgeGroup_leadsTo hleads
    exact ⟨by decide, by decide⟩

/-- A bridge and a device behind it. -/
theorem pci_visitsOnce_bridge : VisitsOnce ⟨[bridgeGroup], List.pairwise_singleton _ _⟩ := by
  refine (pci_visitsOnce_iff ⟨[bridgeGroup], List.pairwise_singleton _ _⟩ ?_).mpr ?_
  · exact List.forall_mem_singleton.mpr bridgeGroup_tree
  · exact List.forall_mem_singleton.mpr fun bus hbus ↦
      ⟨bridgeGroup_inWindow hbus, bridgeGroup_orderly bus⟩

/-- A host bridge with two functions. -/
def hostGroup : PciGroup where
  seg := 0
  busStart := 0
  busEnd := 1
  space bus slot func :=
    if bus = 0 ∧ slot = 0 ∧ func < 2 then ⟨0x8086, 0x00, 0x06, 0x80, 0⟩ else absentConfig

/-- The second function of a host bridge is visited more than once. -/
theorem pci_visitsOnce_fails :
    ¬ ∀ pci : Pci, (∀ group ∈ pci.groups, BridgesFormTree group) → VisitsOnce pci := by
  intro h
  have hleads : ∀ bus slot func bus', ¬ LeadsTo hostGroup bus slot func bus' := by
    rintro bus slot func bus' ⟨-, hbridge, -⟩
    rw [hostGroup] at hbridge
    dsimp only at hbridge
    split at hbridge <;> exact absurd hbridge (by decide)
  have htree : BridgesFormTree hostGroup :=
    ⟨⟨fun bus _ ⟨slot, func, hbus⟩ ↦ hleads bus slot func 0 hbus,
      fun bus _ bus' _ _ ⟨slot, func, hbus⟩ _ ↦ absurd hbus (hleads bus slot func bus')⟩,
      fun bus _ slot func _ _ bus' hbus _ ↦ absurd hbus (hleads bus slot func bus')⟩
  have hvisits := h ⟨[hostGroup], List.pairwise_singleton _ _⟩ fun group hgroup ↦ by
    rw [List.mem_singleton.mp hgroup]
    exact htree
  obtain ⟨-, horderly⟩ := hvisits.orderly List.mem_cons_self ReflTransGen.refl
  have hzero : Present hostGroup 0 0 0 := ⟨by decide, by decide, by decide⟩
  have hone : Present hostGroup 0 0 1 := ⟨by decide, by decide, by decide⟩
  have hmulti : (hostGroup.space 0 0 0).multi = true := by decide
  have hnot : ¬ FirstOnly hostGroup 0 := by
    rintro (hsingle | ⟨-, honly⟩)
    · rw [hmulti] at hsingle
      cases hsingle
    · exact absurd (honly 1 hone) (by decide)
  rw [(horderly.others hnot 0 0 hzero).2] at hmulti
  cases hmulti

end Brutal.Hw
