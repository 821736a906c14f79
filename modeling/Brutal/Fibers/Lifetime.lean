import Brutal.Fibers.Fibers
import Mathlib.Data.List.Nodup

/-!
# Fibers live until they are awaited

A fiber of which somebody has the handle keeps its structure until a `fiber_await` has taken its
result, provided that `fiber_start` is not given a pooled structure in which an earlier fiber left
`fire_and_forget` set, and that nobody awaits a fiber twice.
-/

namespace Brutal.Fibers

open Lib

variable {s s' : State} {addr self id fn args : ℕ} {fiber fiber' waiting target : Fiber}
  {lives : ℕ → Option Life} {life' life : Life} {polls : List Poll} {pool : List ℕ}
  {init forgotten : Bool}

/-- The fiber has the life that its structure names, and its state says how far that life is. -/
def LifeOk (lives : ℕ → Option Life) (addr : ℕ) (fiber : Fiber) : Prop :=
  ∃ life, lives fiber.id = some life ∧ life.addr = addr ∧ fiber.fireAndForget = life.forgotten ∧
    (fiber.state = .canceling → life.returned = some fiber.ret) ∧
    (fiber.state = .canceled → life.forgotten = true ∨ life.taken = true) ∧
    (life.taken = true → fiber.state = .canceled)

/-- A fiber in `fiber_await` waits for a life that only it awaits, or has taken its result. -/
def AwaitOk (lives : ℕ → Option Life) (self : ℕ) (fiber : Fiber) : Prop :=
  ∃ target ret id life, fiber.blocker.function = .waitFiber target ret id ∧
    fiber.blocker.deadline = none ∧ lives id = some life ∧ life.addr = target ∧
    life.forgotten = false ∧ life.awaiter = some self ∧
    (fiber.state = .blocked ∧ life.taken = false ∨
      fiber.state = .running ∧ life.taken = true ∧ life.returned = some ret)

structure FiberOk (lives : ℕ → Option Life) (addr : ℕ) (fiber : Fiber) : Prop where
  life : LifeOk lives addr fiber
  await : fiber.ctx = .inAwait → AwaitOk lives addr fiber
  blocked : fiber.state = .blocked → ∀ target ret id,
    fiber.blocker.function = .waitFiber target ret id → fiber.ctx = .inAwait

/-- The structures in use and those in the pool are apart; whoever may still be awaited is in
use; and what was awaited is what was returned. -/
structure Sound (s : State) : Prop where
  nodup : (s.ring ++ s.pool).Nodup
  ring : ∀ addr ∈ s.ring, ∃ fiber, s.fibers addr = some fiber ∧ FiberOk s.lives addr fiber
  pool : ∀ addr ∈ s.pool, (s.fibers addr).isSome = true
  kept : ∀ id life, s.lives id = some life → life.forgotten = false → life.taken = false →
    life.addr ∈ s.ring ∧ ∃ fiber, s.fibers life.addr = some fiber ∧ fiber.id = id
  taken : ∀ id life, s.lives id = some life → life.taken = true → life.awaiter ≠ none
  fresh : ∀ id, s.id ≤ id → s.lives id = none
  awaited : ∀ result ∈ s.awaited, ∃ life, s.lives result.1 = some life ∧ life.taken = true ∧
    life.returned = some result.2

/-- The fiber at the head of the ring is not blocked and has not returned. -/
def Executing (s : State) : Prop :=
  ∀ addr fiber, s.ring.head? = some addr → s.fibers addr = some fiber →
    fiber.state = .running ∨ fiber.state = .idle

theorem fiberAt_eq_ok : fiberAt s addr = .ok fiber ↔ s.fibers addr = some fiber := by
  unfold fiberAt
  cases s.fibers addr <;> simp

theorem current_eq_ok : current s = .ok addr ↔ s.ring.head? = some addr := by
  unfold current
  cases s.ring <;> simp

theorem LifeOk.congr {lives lives' : ℕ → Option Life} (h : LifeOk lives addr fiber)
    (hsame : ∀ life, lives fiber.id = some life → ∃ life', lives' fiber.id = some life' ∧
      life'.addr = life.addr ∧ life'.forgotten = life.forgotten ∧ life'.taken = life.taken ∧
      life'.returned = life.returned) : LifeOk lives' addr fiber := by
  obtain ⟨life, hlife, haddr, hforget, hrest⟩ := h
  obtain ⟨life', hlife', haddr', hforget', htaken', hreturned'⟩ := hsame life hlife
  refine ⟨life', hlife', haddr'.trans haddr, hforget.trans hforget'.symm, ?_⟩
  rw [hforget', htaken', hreturned']
  exact hrest

theorem AwaitOk.congr {lives lives' : ℕ → Option Life} (h : AwaitOk lives self fiber)
    (hsame : ∀ id life, lives id = some life → life.awaiter = some self →
      ∃ life', lives' id = some life' ∧ life'.addr = life.addr ∧
        life'.forgotten = life.forgotten ∧ life'.awaiter = life.awaiter ∧
        life'.taken = life.taken ∧ (life.taken = true → life'.returned = life.returned)) :
    AwaitOk lives' self fiber := by
  obtain ⟨target, ret, id, life, hfunction, hdeadline, hlife, haddr, hforget, hself, hstate⟩ := h
  obtain ⟨life', hlife', haddr', hforget', hself', htaken', hreturned'⟩ := hsame id life hlife hself
  refine ⟨target, ret, id, life', hfunction, hdeadline, hlife', haddr'.trans haddr,
    hforget'.trans hforget, hself'.trans hself, ?_⟩
  rcases hstate with ⟨hblocked, htaken⟩ | ⟨hrunning, htaken, hreturned⟩
  · exact Or.inl ⟨hblocked, htaken'.trans htaken⟩
  · exact Or.inr ⟨hrunning, htaken'.trans htaken, (hreturned' htaken).trans hreturned⟩

/-- Two structures do not have the same life. -/
theorem LifeOk.addr_eq {addr addr' : ℕ} (h : LifeOk lives addr fiber)
    (h' : LifeOk lives addr' fiber') (hid : fiber.id = fiber'.id) : addr = addr' := by
  obtain ⟨life, hlife, haddr, _⟩ := h
  obtain ⟨life', hlife', haddr', _⟩ := h'
  rw [hid, hlife'] at hlife
  cases hlife
  exact haddr.symm.trans haddr'

/-- A history goes on: the fiber stays the same, and nobody takes its result again. -/
structure Life.Advances (life life' : Life) : Prop where
  addr : life'.addr = life.addr
  forgotten : life'.forgotten = life.forgotten
  taken : life.taken = true → life'.taken = true ∧ life'.returned = life.returned ∧
    life'.awaiter = life.awaiter
  awaiter : life'.taken = true → life.taken = false → life'.awaiter ≠ none

theorem Life.Advances.refl (life : Life) : life.Advances life := by
  refine ⟨rfl, rfl, fun htaken ↦ ⟨htaken, rfl, rfl⟩, fun htaken hnot ↦ ?_⟩
  rw [htaken] at hnot
  cases hnot

/-- The fibers in use stay, and so do their lives, which go on. -/
structure Advances (s s' : State) : Prop where
  ring : s'.ring = s.ring
  pool : s'.pool = s.pool
  id : s'.id = s.id
  awaited : s'.awaited = s.awaited
  fibers : ∀ addr fiber, s.fibers addr = some fiber →
    ∃ fiber', s'.fibers addr = some fiber' ∧ fiber'.id = fiber.id
  ended : ∀ id, s.lives id = none → s'.lives id = none
  lives : ∀ id life, s.lives id = some life → ∃ life', s'.lives id = some life' ∧
    life.Advances life'

/-- A history of the later state was one before. -/
theorem Advances.life_of_some (h : Advances s s') (hlife' : s'.lives id = some life') :
    ∃ life, s.lives id = some life ∧ life.Advances life' := by
  cases hlife : s.lives id with
  | none =>
    rw [h.ended id hlife] at hlife'
    cases hlife'
  | some life =>
    obtain ⟨history, hhistory, hadvances⟩ := h.lives id life hlife
    rw [hlife'] at hhistory
    cases hhistory
    exact ⟨life, rfl, hadvances⟩

/-- Histories that go on stay sound as long as every fiber in use agrees with them. -/
theorem Sound.advance (hs : Sound s) (h : Advances s s')
    (hok : ∀ addr fiber, addr ∈ s.ring → s'.fibers addr = some fiber →
      FiberOk s'.lives addr fiber) : Sound s' := by
  refine ⟨?_, ?_, ?_, ?_, ?_, ?_, ?_⟩
  · rw [h.ring, h.pool]
    exact hs.nodup
  · intro addr hmem
    rw [h.ring] at hmem
    obtain ⟨fiber, hfiber, _⟩ := hs.ring addr hmem
    obtain ⟨fiber', hfiber', _⟩ := h.fibers addr fiber hfiber
    exact ⟨fiber', hfiber', hok addr fiber' hmem hfiber'⟩
  · intro addr hmem
    rw [h.pool] at hmem
    obtain ⟨fiber, hfiber⟩ := Option.isSome_iff_exists.mp (hs.pool addr hmem)
    obtain ⟨fiber', hfiber', _⟩ := h.fibers addr fiber hfiber
    rw [hfiber']
    rfl
  · intro id life' hlife' hforget htaken
    obtain ⟨life, hlife, hadvances⟩ := h.life_of_some hlife'
    have hleft : life.taken = false := by
      by_contra htrue
      rw [(hadvances.taken (by simpa using htrue)).1] at htaken
      cases htaken
    obtain ⟨hmem, fiber, hfiber, hid⟩ :=
      hs.kept id life hlife (hadvances.forgotten ▸ hforget) hleft
    obtain ⟨fiber', hfiber', hid'⟩ := h.fibers _ fiber hfiber
    rw [h.ring, hadvances.addr]
    exact ⟨hmem, fiber', hfiber', hid'.trans hid⟩
  · intro id life' hlife' htaken
    obtain ⟨life, hlife, hadvances⟩ := h.life_of_some hlife'
    cases hold : life.taken with
    | false => exact hadvances.awaiter htaken hold
    | true =>
      rw [(hadvances.taken hold).2.2]
      exact hs.taken id life hlife hold
  · intro id hid
    rw [h.id] at hid
    exact h.ended id (hs.fresh id hid)
  · intro result hresult
    rw [h.awaited] at hresult
    obtain ⟨life, hlife, htaken, hreturned⟩ := hs.awaited result hresult
    obtain ⟨life', hlife', hadvances⟩ := h.lives _ life hlife
    obtain ⟨htaken', hreturned', _⟩ := hadvances.taken htaken
    exact ⟨life', hlife', htaken', hreturned'.trans hreturned⟩

theorem Advances.refl (s : State) : Advances s s where
  ring := rfl
  pool := rfl
  id := rfl
  awaited := rfl
  fibers := fun _ fiber hfiber ↦ ⟨fiber, hfiber, rfl⟩
  ended := fun _ h ↦ h
  lives := fun _ life hlife ↦ ⟨life, hlife, Life.Advances.refl life⟩

theorem Advances.put (h : Advances s s') (hfiber : s'.fibers addr = some fiber)
    (hid : fiber'.id = fiber.id) : Advances s (put s' addr fiber') := by
  refine ⟨h.ring, h.pool, h.id, h.awaited, ?_, h.ended, h.lives⟩
  intro other old hold
  obtain ⟨new, hnew, hnewId⟩ := h.fibers other old hold
  by_cases heq : other = addr
  · rw [heq, hfiber] at hnew
    cases hnew
    rw [heq]
    exact ⟨fiber', Function.update_self .., hid.trans hnewId⟩
  · exact ⟨new, (Function.update_of_ne heq _ _).trans hnew, hnewId⟩

theorem Advances.putLife (h : Advances s s') (hlife : s.lives id = some life)
    (hadvances : life.Advances life') : Advances s (putLife s' id life') := by
  refine ⟨h.ring, h.pool, h.id, h.awaited, h.fibers, ?_, ?_⟩
  · intro other hother
    have hne : other ≠ id := by
      intro heq
      rw [heq, hlife] at hother
      cases hother
    exact (Function.update_of_ne hne _ _).trans (h.ended other hother)
  · intro other history hhistory
    by_cases heq : other = id
    · rw [heq, hlife] at hhistory
      cases hhistory
      rw [heq]
      exact ⟨life', Function.update_self .., hadvances⟩
    · obtain ⟨history', hhistory', hgoes⟩ := h.lives other history hhistory
      exact ⟨history', (Function.update_of_ne heq _ _).trans hhistory', hgoes⟩

/-- One structure changes and keeps its life. -/
theorem Sound.put (hs : Sound s) (hfiber : s.fibers addr = some fiber) (hid : fiber'.id = fiber.id)
    (hok : FiberOk s.lives addr fiber') : Sound (put s addr fiber') := by
  apply hs.advance ((Advances.refl s).put hfiber hid)
  intro other old hmem hold
  by_cases heq : other = addr
  · rw [heq, show (Fibers.put s addr fiber').fibers addr = some fiber' from
      Function.update_self ..] at hold
    cases hold
    rw [heq]
    exact hok
  · have hold' : s.fibers other = some old := (Function.update_of_ne heq _ _).symm.trans hold
    obtain ⟨found, hfound, hfoundOk⟩ := hs.ring other hmem
    rw [hold'] at hfound
    cases hfound
    exact hfoundOk

/-- A fiber agrees with a changed history if it does not depend on what changed. -/
theorem FiberOk.update (h : FiberOk lives addr fiber) (hlife : lives id = some life)
    (hown : fiber.id = id → life'.addr = life.addr ∧ life'.forgotten = life.forgotten ∧
      life'.taken = life.taken ∧ life'.returned = life.returned)
    (hwait : life.awaiter = some addr → life'.addr = life.addr ∧
      life'.forgotten = life.forgotten ∧ life'.awaiter = life.awaiter ∧
      life'.taken = life.taken ∧ (life.taken = true → life'.returned = life.returned)) :
    FiberOk (Function.update lives id (some life')) addr fiber := by
  refine ⟨h.life.congr ?_, fun hctx ↦ (h.await hctx).congr ?_, h.blocked⟩
  · intro history hhistory
    by_cases heq : fiber.id = id
    · rw [heq, hlife] at hhistory
      cases hhistory
      rw [heq, Function.update_self]
      exact ⟨life', rfl, hown heq⟩
    · rw [Function.update_of_ne heq]
      exact ⟨history, hhistory, rfl, rfl, rfl, rfl⟩
  · intro other history hhistory hself
    by_cases heq : other = id
    · rw [heq, hlife] at hhistory
      cases hhistory
      rw [heq, Function.update_self]
      exact ⟨life', rfl, hwait hself⟩
    · rw [Function.update_of_ne heq]
      exact ⟨history, hhistory, rfl, rfl, rfl, rfl, fun _ ↦ rfl⟩

theorem Sound.fiberOk (hs : Sound s) (hmem : addr ∈ s.ring) (hfiber : s.fibers addr = some fiber) :
    FiberOk s.lives addr fiber := by
  obtain ⟨found, hfound, hok⟩ := hs.ring addr hmem
  rw [hfiber] at hfound
  cases hfound
  exact hok

/-- A blocked fiber that does not await may go on at any time. -/
theorem FiberOk.unblock (h : FiberOk lives addr fiber) (hblocked : fiber.state = .blocked)
    (hctx : fiber.ctx ≠ .inAwait) (result : FiberBlockResult) :
    FiberOk lives addr
      { fiber with state := .running, blocker := { fiber.blocker with result := result } } := by
  obtain ⟨life, hlife, haddr, hforget, _, _, htaken⟩ := h.life
  refine ⟨⟨life, hlife, haddr, hforget, nofun, nofun, fun htrue ↦ ?_⟩, ?_, nofun⟩
  · rw [htaken htrue] at hblocked
    cases hblocked
  · intro hawait
    exact absurd hawait hctx

/-- The state after `wait_fiber` found that the awaited fiber has returned, and the waiting fiber
goes on. -/
def taking (s : State) (self addr id : ℕ) (waiting target : Fiber) (life : Life) : State :=
  { s with
    fibers := Function.update
      (Function.update s.fibers addr (some { target with state := .canceled })) self
      (some { waiting with
        state := .running
        blocker := ⟨.waitFiber addr target.ret id, waiting.blocker.deadline, .success⟩ })
    lives := Function.update s.lives id (some { life with taken := true }) }

/-- A blocked fiber in `fiber_await` waits for a life that nobody has taken, and the structure that
it waits on still belongs to the fiber with that life. -/
theorem Sound.awaiting (hs : Sound s) {self addr id ret : ℕ} (hself : self ∈ s.ring)
    (hwaiting : s.fibers self = some waiting) (hblocked : waiting.state = .blocked)
    (hctx : waiting.ctx = .inAwait) (hfunction : waiting.blocker.function = .waitFiber addr ret id)
    (htarget : s.fibers addr = some target) (hlife : s.lives id = some life) :
    waiting.blocker.deadline = none ∧ life.addr = addr ∧ life.forgotten = false ∧
      life.awaiter = some self ∧ addr ∈ s.ring ∧ target.id = id := by
  obtain
    ⟨addr', ret', id', life', hfunction', hdeadline, hlife', haddr, hforget, hawaiter, hstate⟩ :=
    (hs.fiberOk hself hwaiting).await hctx
  rw [hfunction] at hfunction'
  cases hfunction'
  rw [hlife] at hlife'
  cases hlife'
  have htaken : life.taken = false := by
    rcases hstate with ⟨_, htaken⟩ | ⟨hrunning, _⟩
    · exact htaken
    · rw [hblocked] at hrunning
      cases hrunning
  obtain ⟨hmem, found, hfound, hid⟩ := hs.kept id life hlife hforget htaken
  rw [haddr] at hmem hfound
  rw [htarget] at hfound
  cases hfound
  exact ⟨hdeadline, haddr, hforget, hawaiter, hmem, hid⟩

theorem Sound.taking (hs : Sound s) {self addr id ret : ℕ} (hself : self ∈ s.ring)
    (hwaiting : s.fibers self = some waiting) (hblocked : waiting.state = .blocked)
    (hctx : waiting.ctx = .inAwait) (hfunction : waiting.blocker.function = .waitFiber addr ret id)
    (htarget : s.fibers addr = some target) (hcanceling : target.state = .canceling)
    (hlife : s.lives id = some life) : Sound (taking s self addr id waiting target life) := by
  have hne : self ≠ addr := by
    intro heq
    rw [heq, htarget] at hwaiting
    cases hwaiting
    rw [hblocked] at hcanceling
    cases hcanceling
  have hselfOk := hs.fiberOk hself hwaiting
  obtain ⟨hdeadline, haddr, hforget, hawaiter, hmem, hid⟩ :=
    hs.awaiting hself hwaiting hblocked hctx hfunction htarget hlife
  have htargetOk := hs.fiberOk hmem htarget
  obtain ⟨own, hown, _, hownForget, hreturned, _, _⟩ := htargetOk.life
  rw [hid, hlife] at hown
  cases hown
  have hadvances : Advances s (Fibers.taking s self addr id waiting target life) := by
    have hstep : Advances s (Fibers.put (Fibers.put s addr { target with state := .canceled }) self
        { waiting with
          state := .running
          blocker := ⟨.waitFiber addr target.ret id, waiting.blocker.deadline, .success⟩ }) := by
      refine Advances.put ?_ ((Function.update_of_ne hne _ _).trans hwaiting) ?_
      · refine (Advances.refl s).put htarget ?_
        rfl
      · rfl
    refine hstep.putLife hlife ⟨rfl, rfl, fun htrue ↦ ⟨rfl, rfl, rfl⟩, fun _ _ ↦ ?_⟩
    rw [hawaiter]
    exact nofun
  apply hs.advance hadvances
  intro other fiber hother hfiber
  by_cases hotherSelf : other = self
  · -- The waiting fiber has the result.
    rw [hotherSelf,
      show (Fibers.taking s self addr id waiting target life).fibers self = some _ from
      Function.update_self ..] at hfiber
    cases hfiber
    rw [hotherSelf]
    have hownNe : waiting.id ≠ id := by
      intro heq
      exact hne (hselfOk.life.addr_eq htargetOk.life (heq.trans hid.symm))
    obtain ⟨selfLife, hselfLife, hselfAddr, hselfForget, _, _, hselfTaken⟩ := hselfOk.life
    refine ⟨⟨selfLife, ?_, hselfAddr, hselfForget, nofun, nofun, fun htrue ↦ ?_⟩, fun _ ↦ ?_, nofun⟩
    · exact (Function.update_of_ne hownNe _ _).trans hselfLife
    · rw [hselfTaken htrue] at hblocked
      cases hblocked
    · exact ⟨addr, target.ret, id, _, rfl, hdeadline, Function.update_self .., haddr, hforget,
        hawaiter, Or.inr ⟨rfl, rfl, hreturned hcanceling⟩⟩
  · have hfiber' := (Function.update_of_ne hotherSelf _ _).symm.trans hfiber
    by_cases hotherAddr : other = addr
    · -- The awaited fiber is canceled, now that its result is taken.
      rw [hotherAddr, Function.update_self] at hfiber'
      cases hfiber'
      rw [hotherAddr]
      refine ⟨⟨{ life with taken := true }, ?_, haddr, hownForget, nofun, fun _ ↦ Or.inr rfl,
        fun _ ↦ rfl⟩, fun hinAwait ↦ ?_, nofun⟩
      · rw [show (({ target with state := .canceled } : Fiber)).id = id from hid]
        exact Function.update_self ..
      · obtain ⟨_, _, _, _, _, _, _, _, _, _, hstate⟩ := htargetOk.await hinAwait
        rw [hcanceling] at hstate
        rcases hstate with ⟨hwrong, _⟩ | ⟨hwrong, _⟩ <;> cases hwrong
    · rw [Function.update_of_ne hotherAddr] at hfiber'
      have hok := hs.fiberOk hother hfiber'
      refine hok.update hlife (fun heq ↦ ?_) (fun heq ↦ ?_)
      · exact absurd (hok.life.addr_eq htargetOk.life (heq.trans hid.symm)) hotherAddr
      · rw [hawaiter] at heq
        exact absurd (Option.some.inj heq).symm hotherSelf

theorem waitFiber_unblock (hwaiting : s.fibers self = some waiting)
    (htarget : s.fibers addr = some target) (hcanceling : target.state = .canceling)
    (hlife : s.lives id = some life) (hne : self ≠ addr) :
    ∃ s', waitFiber s self addr id = .ok (true, s') ∧
      unblock s' self .success = .ok (true, taking s self addr id waiting target life) := by
  have hfirst : fiberAt s addr = .ok target := fiberAt_eq_ok.mpr htarget
  have hsecond : fiberAt (put s addr { target with state := .canceled }) self = .ok waiting :=
    fiberAt_eq_ok.mpr ((Function.update_of_ne hne _ _).trans hwaiting)
  let blocker : FiberBlocker :=
    { waiting.blocker with function := .waitFiber addr target.ret id }
  let s' := putLife (put (put s addr { target with state := .canceled }) self
    { waiting with blocker := blocker }) id { life with taken := true }
  have hthird : fiberAt s' self = .ok { waiting with blocker := blocker } :=
    fiberAt_eq_ok.mpr (Function.update_self ..)
  refine ⟨s', ?_, ?_⟩
  · unfold waitFiber
    rw [hfirst, ok_bind, if_neg (not_not.mpr hcanceling)]
    dsimp only
    rw [hsecond, ok_bind]
    dsimp only [put]
    rw [hlife]
    rfl
  · unfold unblock
    rw [hthird, ok_bind]
    simp [taking, s', blocker, put, putLife, Function.update_idem]

/-- A blocked fiber that awaits nobody is unblocked, or stays blocked. -/
theorem Sound.answered (hs : Sound s) (hself : self ∈ s.ring) (hfiber : s.fibers self = some fiber)
    (hblocked : fiber.state = .blocked) (hctx : fiber.ctx ≠ .inAwait) (answer : Bool) {poll : Poll}
    {unblocked : Bool} (h : (if answer = true then unblock s self .success
      else if expired fiber.blocker.deadline poll.now = true then unblock s self .timeout
      else pure (false, s)) = .ok (unblocked, s')) : Sound s' ∧ s'.ring = s.ring := by
  have hok := hs.fiberOk hself hfiber
  have hunblock : ∀ result, unblock s self result = .ok (unblocked, s') →
      Sound s' ∧ s'.ring = s.ring := by
    intro result h
    unfold unblock at h
    rw [fiberAt_eq_ok.mpr hfiber, ok_bind] at h
    cases h
    exact ⟨hs.put hfiber rfl (hok.unblock hblocked hctx result), rfl⟩
  split at h
  · exact hunblock _ h
  · split at h
    · exact hunblock _ h
    · cases h
      exact ⟨hs, rfl⟩

/-- The blocker of a fiber in `fiber_await` waits for a fiber. -/
theorem FiberOk.notAwaiting (h : FiberOk lives addr fiber)
    (hnone : ∀ target ret id, fiber.blocker.function ≠ .waitFiber target ret id) :
    fiber.ctx ≠ .inAwait := by
  intro hctx
  obtain ⟨target, ret, id, _, hfunction, _⟩ := h.await hctx
  exact hnone target ret id hfunction

/-- Polling keeps the histories right, also when it takes a result. -/
theorem Sound.tryUnblock (hs : Sound s) {poll : Poll} {unblocked : Bool} (hself : self ∈ s.ring)
    (h : fiberTryUnblock s self poll = .ok (unblocked, s')) : Sound s' ∧ s'.ring = s.ring := by
  unfold fiberTryUnblock at h
  obtain ⟨fiber, hfiber, h⟩ := bind_eq_ok.mp h
  rw [fiberAt_eq_ok] at hfiber
  have hok := hs.fiberOk hself hfiber
  by_cases hblocked : fiber.state = .blocked
  · rw [if_neg (not_not.mpr hblocked)] at h
    cases hfunction : fiber.blocker.function with
    | null =>
      have hctx := hok.notAwaiting fun _ _ _ hwrong ↦ by cases hfunction.symm.trans hwrong
      unfold blockerFunction at h
      rw [hfunction] at h
      exact hs.answered hself hfiber hblocked hctx false h
    | other =>
      have hctx := hok.notAwaiting fun _ _ _ hwrong ↦ by cases hfunction.symm.trans hwrong
      unfold blockerFunction at h
      rw [hfunction] at h
      exact hs.answered hself hfiber hblocked hctx poll.answer h
    | waitFiber addr ret id =>
      have hctx := hok.blocked hblocked addr ret id hfunction
      obtain ⟨_, _, _, life, hfunction', hdeadline, hlife, _⟩ := hok.await hctx
      rw [hfunction] at hfunction'
      cases hfunction'
      unfold blockerFunction at h
      rw [hfunction] at h
      dsimp only at h
      cases htarget : s.fibers addr with
      | none =>
        unfold waitFiber fiberAt at h
        rw [htarget] at h
        cases h
      | some target =>
        by_cases hcanceling : target.state = .canceling
        · have hne : self ≠ addr := by
            intro heq
            rw [heq, htarget] at hfiber
            cases hfiber
            rw [hblocked] at hcanceling
            cases hcanceling
          obtain ⟨taken, hwait, hunblock⟩ :=
            waitFiber_unblock hfiber htarget hcanceling hlife hne
          rw [hwait, ok_bind] at h
          dsimp only at h
          rw [if_pos rfl, hunblock] at h
          cases h
          exact ⟨hs.taking hself hfiber hblocked hctx hfunction htarget hcanceling hlife, rfl⟩
        · have hwait : waitFiber s self addr id = .ok (false, s) := by
            unfold waitFiber
            rw [fiberAt_eq_ok.mpr htarget, ok_bind, if_pos hcanceling]
            rfl
          rw [hwait, ok_bind] at h
          dsimp only at h
          rw [hdeadline] at h
          cases h
          exact ⟨hs, rfl⟩
  · rw [if_pos hblocked] at h
    cases h
    exact ⟨hs, rfl⟩

theorem Sound.nextLoop {expected : FiberState} {head next : ℕ} {others : List ℕ}
    {polls polls' : List Poll} (hs : Sound s) (hhead : head ∈ s.ring) (hothers : others ⊆ s.ring)
    (h : fiberNextLoop expected head others polls s = .ok (next, polls', s')) :
    Sound s' ∧ s'.ring = s.ring ∧ next ∈ s.ring := by
  induction others generalizing polls s with
  | nil =>
    unfold fiberNextLoop at h
    cases h
    exact ⟨hs, rfl, hhead⟩
  | cons other rest ih =>
    cases polls with
    | nil => cases h
    | cons poll polls =>
      unfold fiberNextLoop at h
      obtain ⟨⟨unblocked, polled⟩, hpoll, h⟩ := bind_eq_ok.mp h
      have hother : other ∈ s.ring := hothers List.mem_cons_self
      have hpolled := hs.tryUnblock hother hpoll
      dsimp only at h
      split at h
      · cases h
        exact ⟨hpolled.1, hpolled.2, hother⟩
      · obtain ⟨fiber, _, h⟩ := bind_eq_ok.mp h
        split at h
        · cases h
          exact ⟨hpolled.1, hpolled.2, hother⟩
        · rw [← hpolled.2] at hhead hothers ⊢
          exact ih hpolled.1 hhead (List.Subset.trans (List.subset_cons_self _ _) hothers) h

/-- The fiber is in use and can execute. -/
def Eligible (s : State) (addr : ℕ) : Prop :=
  addr ∈ s.ring ∧ ∃ fiber, s.fibers addr = some fiber ∧
    (fiber.state = .running ∨ fiber.state = .idle)

theorem Sound.next {expected : FiberState} (hexpected : expected = .running ∨ expected = .idle)
    {next : Option ℕ} {polls polls' : List Poll} (hs : Sound s)
    (h : fiberNext expected polls s = .ok (next, polls', s')) :
    Sound s' ∧ s'.ring = s.ring ∧ ∀ addr, next = some addr → Eligible s' addr := by
  unfold fiberNext at h
  cases hring : s.ring with
  | nil =>
    rw [hring] at h
    cases h
  | cons head others =>
    rw [hring] at h
    obtain ⟨⟨found, left, polled⟩, hloop, h⟩ := bind_eq_ok.mp h
    have hhead : head ∈ s.ring := hring ▸ List.mem_cons_self
    have hothers : others ⊆ s.ring := hring ▸ List.subset_cons_self _ _
    have hpolled := hs.nextLoop hhead hothers hloop
    obtain ⟨fiber, hfiber, h⟩ := bind_eq_ok.mp h
    rw [fiberAt_eq_ok] at hfiber
    rw [← hring]
    split at h
    · cases h
      exact ⟨hpolled.1, hpolled.2.1, nofun⟩
    · next hstate =>
      cases h
      refine ⟨hpolled.1, hpolled.2.1, ?_⟩
      rintro addr ⟨⟩
      refine ⟨hpolled.2.1 ▸ hpolled.2.2, fiber, hfiber, ?_⟩
      rw [not_not.mp hstate]
      exact hexpected

theorem Sound.waitUnblocked {order : List ℕ} {next : ℕ} (hs : Sound s) (horder : order ⊆ s.ring)
    (h : fiberWaitUnblocked order polls s = .ok (next, s')) :
    Sound s' ∧ s'.ring = s.ring ∧ Eligible s' next := by
  induction polls generalizing order s with
  | nil => cases order <;> cases h
  | cons poll polls ih =>
    cases order with
    | nil => cases h
    | cons addr rest =>
      unfold fiberWaitUnblocked at h
      obtain ⟨⟨unblocked, polled⟩, hpoll, h⟩ := bind_eq_ok.mp h
      have haddr : addr ∈ s.ring := horder List.mem_cons_self
      have hpolled := hs.tryUnblock haddr hpoll
      obtain ⟨fiber, hfiber, h⟩ := bind_eq_ok.mp h
      rw [fiberAt_eq_ok] at hfiber
      split at h
      · next hstate =>
        cases h
        exact ⟨hpolled.1, hpolled.2, hpolled.2 ▸ haddr, fiber, hfiber, hstate.2⟩
      · have hrotated : rest ++ [addr] ⊆ polled.ring := by
          rw [hpolled.2]
          intro other hother
          apply horder
          simpa [or_comm] using hother
        have hrest := ih hpolled.1 hrotated h
        exact ⟨hrest.1, hrest.2.1.trans hpolled.2, hrest.2.2⟩

theorem Sound.chooseNext {next : ℕ} (hs : Sound s) (h : chooseNext s polls = .ok (next, s')) :
    Sound s' ∧ s'.ring = s.ring ∧ Eligible s' next := by
  unfold Fibers.chooseNext at h
  obtain ⟨⟨running, left, polled⟩, hrunning, h⟩ := bind_eq_ok.mp h
  have hpolled := hs.next (Or.inl rfl) hrunning
  cases running with
  | some addr =>
    cases h
    exact ⟨hpolled.1, hpolled.2.1, hpolled.2.2 next rfl⟩
  | none =>
    obtain ⟨⟨idle, left', polled'⟩, hidle, h⟩ := bind_eq_ok.mp h
    have hpolled' := hpolled.1.next (Or.inr rfl) hidle
    have hring := hpolled'.2.1.trans hpolled.2.1
    cases idle with
    | some addr =>
      cases h
      exact ⟨hpolled'.1, hring, hpolled'.2.2 next rfl⟩
    | none =>
      have horder : polled'.ring.tail ++ polled'.ring.take 1 ⊆ polled'.ring := by
        intro addr haddr
        rcases List.mem_append.mp haddr with htail | hhead
        · exact List.mem_of_mem_tail htail
        · exact List.mem_of_mem_take hhead
      have hwaited := hpolled'.1.waitUnblocked horder h
      exact ⟨hwaited.1, hwaited.2.1.trans hring, hwaited.2.2⟩

/-! ## Switching -/

/-- The order of the fibers in use does not matter. -/
theorem Sound.reorder (hs : Sound s) {ring : List ℕ} (hperm : ring.Perm s.ring) :
    Sound { s with ring := ring } := by
  refine ⟨?_, ?_, hs.pool, ?_, hs.taken, hs.fresh, hs.awaited⟩
  · exact ((hperm.append_right s.pool).nodup_iff).mpr hs.nodup
  · intro addr haddr
    exact hs.ring addr (hperm.mem_iff.mp haddr)
  · intro id life hlife hforget htaken
    have hkept := hs.kept id life hlife hforget htaken
    exact ⟨hperm.mem_iff.mpr hkept.1, hkept.2⟩

theorem rotateTo_perm (next : ℕ) (ring : List ℕ) : (rotateTo next ring).Perm ring := by
  unfold rotateTo
  calc
    (ring.dropWhile (· ≠ next) ++ ring.takeWhile (· ≠ next)).Perm
        (ring.takeWhile (· ≠ next) ++ ring.dropWhile (· ≠ next)) := List.perm_append_comm
    _ = ring := List.takeWhile_append_dropWhile

theorem rotateTo_head {next : ℕ} {ring : List ℕ} (h : next ∈ ring) :
    ∃ others, rotateTo next ring = next :: others := by
  obtain ⟨before, after, rfl, hbefore⟩ := List.eq_append_cons_of_mem h
  have hskip : ∀ addr ∈ before, decide (addr ≠ next) = true := by
    intro addr haddr
    have hne : addr ≠ next := fun heq ↦ hbefore (heq ▸ haddr)
    simpa using hne
  have hdrop : (before ++ next :: after).dropWhile (· ≠ next) = next :: after := by
    rw [List.dropWhile_append_of_pos hskip]
    simp
  rw [rotateTo, hdrop]
  exact ⟨_, rfl⟩

/-- A canceled fiber is not needed any more. -/
theorem Sound.free (hs : Sound s) (hmem : addr ∈ s.ring) (hfiber : s.fibers addr = some fiber)
    (hcanceled : fiber.state = .canceled) : Sound (fiberFree s addr) := by
  have hnodup : (addr :: (s.ring.erase addr ++ s.pool)).Nodup := by
    have hperm := (List.perm_cons_erase hmem).append_right s.pool
    exact hperm.nodup_iff.mp hs.nodup
  have hnotRing : addr ∉ s.ring.erase addr :=
    fun h ↦ (List.nodup_cons.mp hnodup).1 (List.mem_append_left _ h)
  have hnotPool : addr ∉ s.pool :=
    fun h ↦ (List.nodup_cons.mp hnodup).1 (List.mem_append_right _ h)
  have hkept : ∀ id life, s.lives id = some life → life.forgotten = false → life.taken = false →
      life.addr ≠ addr ∧ life.addr ∈ s.ring.erase addr := by
    intro id life hlife hforget htaken
    obtain ⟨hring, found, hfound, hid⟩ := hs.kept id life hlife hforget htaken
    have hne : life.addr ≠ addr := by
      intro heq
      rw [heq, hfiber] at hfound
      cases hfound
      obtain ⟨own, hown, _, _, _, hended, _⟩ := (hs.fiberOk hmem hfiber).life
      rw [hid, hlife] at hown
      cases hown
      rcases hended hcanceled with htrue | htrue
      · rw [hforget] at htrue
        cases htrue
      · rw [htaken] at htrue
        cases htrue
    exact ⟨hne, (List.mem_erase_of_ne hne).mpr hring⟩
  unfold fiberFree poolRelease
  split
  · -- The pool is full: the structure is given back to the allocator.
    refine ⟨(List.nodup_cons.mp hnodup).2, ?_, ?_, ?_, hs.taken, hs.fresh, hs.awaited⟩
    · intro other hother
      have hne : other ≠ addr := fun heq ↦ hnotRing (heq ▸ hother)
      dsimp only
      rw [Function.update_of_ne hne]
      exact hs.ring other (List.mem_of_mem_erase hother)
    · intro other hother
      have hne : other ≠ addr := fun heq ↦ hnotPool (heq ▸ hother)
      dsimp only
      rw [Function.update_of_ne hne]
      exact hs.pool other hother
    · intro id life hlife hforget htaken
      have hother := hkept id life hlife hforget htaken
      dsimp only
      rw [Function.update_of_ne hother.1]
      exact ⟨hother.2, (hs.kept id life hlife hforget htaken).2⟩
  · refine ⟨List.nodup_middle.mpr hnodup, ?_, ?_, ?_, hs.taken, hs.fresh, hs.awaited⟩
    · intro other hother
      exact hs.ring other (List.mem_of_mem_erase hother)
    · intro other hother
      rcases List.mem_cons.mp hother with heq | hother
      · rw [heq, hfiber]
        rfl
      · exact hs.pool other hother
    · intro id life hlife hforget htaken
      exact ⟨(hkept id life hlife hforget htaken).2, (hs.kept id life hlife hforget htaken).2⟩

theorem fiberFree_ring (s : State) (addr : ℕ) : (fiberFree s addr).ring = s.ring.erase addr := by
  unfold fiberFree poolRelease
  split <;> rfl

theorem fiberFree_fibers {addr other : ℕ} (h : other ≠ addr) :
    (fiberFree s addr).fibers other = s.fibers other := by
  unfold fiberFree poolRelease
  split
  · exact Function.update_of_ne h _ _
  · rfl

theorem Sound.freeCanceled {rest : List ℕ} {head : ℕ} (hs : Sound s)
    (hrest : ∀ addr ∈ rest, addr ∈ s.ring ∧ addr ≠ head) (hnodup : rest.Nodup)
    (hhead : s.ring.head? = some head) (h : fiberFreeCanceled rest s = .ok s') :
    Sound s' ∧ s'.ring.head? = some head ∧ s'.fibers head = s.fibers head := by
  induction rest generalizing s with
  | nil =>
    cases h
    exact ⟨hs, hhead, rfl⟩
  | cons curr rest ih =>
    unfold fiberFreeCanceled at h
    obtain ⟨fiber, hfiber, h⟩ := bind_eq_ok.mp h
    rw [fiberAt_eq_ok] at hfiber
    obtain ⟨hcurr, hne⟩ := hrest curr List.mem_cons_self
    obtain ⟨hnotMem, hnodup⟩ := List.nodup_cons.mp hnodup
    split at h
    · next hcanceled =>
      have hhead' : (fiberFree s curr).ring.head? = some head := by
        rw [fiberFree_ring]
        obtain ⟨others, hring⟩ : ∃ others, s.ring = head :: others :=
          List.head?_eq_some_iff.mp hhead
        rw [hring, List.erase_cons_tail (by simpa using hne.symm)]
        rfl
      have hrest' : ∀ addr ∈ rest, addr ∈ (fiberFree s curr).ring ∧ addr ≠ head := by
        intro addr haddr
        obtain ⟨hring, hother⟩ := hrest addr (List.mem_cons_of_mem _ haddr)
        have hneCurr : addr ≠ curr := fun heq ↦ hnotMem (heq ▸ haddr)
        rw [fiberFree_ring]
        exact ⟨(List.mem_erase_of_ne hneCurr).mpr hring, hother⟩
      have hfreed := ih (hs.free hcurr hfiber hcanceled) hrest' hnodup hhead' h
      exact ⟨hfreed.1, hfreed.2.1, hfreed.2.2.trans (fiberFree_fibers hne.symm)⟩
    · exact ih hs (fun addr haddr ↦ hrest addr (List.mem_cons_of_mem _ haddr)) hnodup hhead h

/-- What was chosen executes, and nobody loses its structure. -/
theorem Sound.switch {next : ℕ} (hs : Sound s) (hnext : next ∈ s.ring)
    (hfiber : s.fibers next = some fiber) (h : fibersSwitch s next = .ok s') :
    Sound s' ∧ s'.ring.head? = some next ∧ s'.fibers next = some fiber := by
  obtain ⟨others, hothers⟩ := rotateTo_head hnext
  have hrotated : Sound { s with ring := rotateTo next s.ring } :=
    hs.reorder (rotateTo_perm next s.ring)
  have hhead : (rotateTo next s.ring).head? = some next := by
    rw [hothers]
    rfl
  have hringNodup : (next :: others).Nodup := by
    rw [← hothers]
    exact (List.nodup_append.mp hrotated.nodup).1
  unfold fibersSwitch at h
  obtain ⟨found, hfound, h⟩ := bind_eq_ok.mp h
  have hfree : ∀ t, fiberFreeCanceled (rotateTo next s.ring).tail
      { s with ring := rotateTo next s.ring } = .ok t →
      Sound t ∧ t.ring.head? = some next ∧ t.fibers next = some fiber := by
    intro t ht
    have htail : (rotateTo next s.ring).tail = others := by
      rw [hothers]
      rfl
    rw [htail] at ht
    have hmem : ∀ addr ∈ others, addr ∈ rotateTo next s.ring ∧ addr ≠ next := by
      intro addr haddr
      rw [hothers]
      exact ⟨List.mem_cons_of_mem _ haddr,
        fun heq ↦ (List.nodup_cons.mp hringNodup).1 (heq ▸ haddr)⟩
    have hfreed := hrotated.freeCanceled hmem (List.nodup_cons.mp hringNodup).2 hhead ht
    exact ⟨hfreed.1, hfreed.2.1, hfreed.2.2.trans hfiber⟩
  cases hctx : found.ctx <;> simp only [hctx] at h
  case unset => cases h
  case entry =>
    cases h
    exact ⟨hrotated, hhead, hfiber⟩
  all_goals exact hfree s' h

/-- A fiber that goes on has the result that it awaited. -/
theorem Sound.continueCurrent (hs : Sound s) (hhead : s.ring.head? = some addr)
    (hfiber : s.fibers addr = some fiber) (hstate : fiber.state = .running ∨ fiber.state = .idle)
    (h : continueCurrent s addr = .ok s') : Sound s' ∧ Executing s' := by
  have hmem : addr ∈ s.ring := List.mem_of_mem_head? hhead
  have hok := hs.fiberOk hmem hfiber
  have hput : Sound (Fibers.put s addr { fiber with ctx := .executing }) := by
    refine hs.put hfiber ?_ ⟨hok.life, nofun, ?_⟩
    · rfl
    · intro hblocked
      have hwrong : fiber.state = .blocked := hblocked
      rw [hwrong] at hstate
      rcases hstate with hcase | hcase <;> cases hcase
  have hexecuting : Executing (Fibers.put s addr { fiber with ctx := .executing }) := by
    intro other found hother hfound
    have heq : addr = other := Option.some.inj (hhead.symm.trans hother)
    subst heq
    rw [show (Fibers.put s addr { fiber with ctx := .executing }).fibers addr = some _ from
      Function.update_self ..] at hfound
    cases hfound
    exact hstate
  unfold Fibers.continueCurrent at h
  rw [fiberAt_eq_ok.mpr hfiber, ok_bind] at h
  dsimp only at h
  split at h
  · next target ret id hctx hfunction =>
    cases h
    obtain ⟨_, _, _, life, hfunction', _, hlife, _, _, _, hdone⟩ := hok.await hctx
    rw [hfunction] at hfunction'
    cases hfunction'
    have htaken : life.taken = true ∧ life.returned = some ret := by
      rcases hdone with ⟨hblocked, _⟩ | ⟨_, hdone⟩
      · rw [hblocked] at hstate
        rcases hstate with hcase | hcase <;> cases hcase
      · exact hdone
    refine ⟨⟨hput.nodup, hput.ring, hput.pool, hput.kept, hput.taken, hput.fresh, ?_⟩, hexecuting⟩
    intro result hresult
    rcases List.mem_append.mp hresult with hbefore | hnew
    · exact hput.awaited result hbefore
    · rw [List.mem_singleton.mp hnew]
      exact ⟨life, hlife, htaken⟩
  · cases h
    exact ⟨hput, hexecuting⟩

theorem Sound.yield (hs : Sound s) (h : fiberYield s polls = .ok s') : Sound s' ∧ Executing s' := by
  unfold fiberYield at h
  obtain ⟨prev, hprev, h⟩ := bind_eq_ok.mp h
  rw [current_eq_ok] at hprev
  obtain ⟨⟨next, chosen⟩, hchoose, h⟩ := bind_eq_ok.mp h
  obtain ⟨hchosen, hring, hnext, fiber, hfiber, hstate⟩ := hs.chooseNext hchoose
  dsimp only at h
  split at h
  · next heq =>
    rw [heq] at hfiber
    exact hchosen.continueCurrent (hring ▸ hprev) hfiber hstate h
  · obtain ⟨switched, hswitch, h⟩ := bind_eq_ok.mp h
    obtain ⟨hswitched, hhead, hfiber'⟩ := hchosen.switch hnext hfiber hswitch
    exact hswitched.continueCurrent hhead hfiber' hstate h

/-- The state after a structure was taken for a new fiber. -/
def started (s : State) (addr : ℕ) (pool : List ℕ) (poolInit : Bool) (fiber : Fiber)
    (forgotten : Bool) : State where
  fibers := Function.update s.fibers addr (some fiber)
  ring := s.ring ++ [addr]
  pool := pool
  poolInit := poolInit
  id := s.id + 1
  lives := Function.update s.lives s.id (some ⟨addr, forgotten, none, none, false⟩)
  awaited := s.awaited

/-- The structure comes from the top of the pool, or is a new one. -/
def Acquired (s : State) (fn args addr : ℕ) (pool : List ℕ) (fiber : Fiber) : Prop :=
  ¬ (fn = 0 ∧ args = 0) ∧ s.pool = addr :: pool ∧ s.fibers addr = some fiber ∨
    pool = [] ∧ s.fibers addr = none ∧ fiber = fiberCtor

theorem poolInit_eq (s : State) (fn args : ℕ) :
    ∃ pool init, poolInit s fn args = { s with pool := pool, poolInit := init } ∧
      (pool = [] ∨ ¬ (fn = 0 ∧ args = 0) ∧ pool = s.pool) := by
  unfold poolInit
  split
  · exact ⟨[], true, rfl, Or.inl rfl⟩
  · next hfn => exact ⟨s.pool, s.poolInit, rfl, Or.inr ⟨hfn, rfl⟩⟩

theorem fiberStart_eq_ok {fn args fresh addr : ℕ}
    (h : fiberStart s fn args fresh = .ok (addr, s')) :
    ∃ pool init fiber, Acquired s fn args addr pool fiber ∧
      s' = started s addr pool init (startFields fiber s.id fn args) false := by
  unfold fiberStart fiberAlloc at h
  obtain ⟨pool, init, hinit, hpool⟩ := poolInit_eq s fn args
  rw [hinit] at h
  obtain ⟨⟨addr', allocated⟩, halloc, h⟩ := bind_eq_ok.mp h
  obtain ⟨⟨taken, acquired⟩, hacquire, halloc⟩ := bind_eq_ok.mp halloc
  obtain ⟨fiber, hfiber, halloc⟩ := bind_eq_ok.mp halloc
  cases halloc
  dsimp only at h
  rw [fiberAt_eq_ok.mpr (Function.update_self ..)] at h
  cases h
  rw [fiberAt_eq_ok] at hfiber
  unfold poolAcquire at hacquire
  cases pool with
  | cons top rest =>
    cases hacquire
    rcases hpool with hnil | ⟨hfn, hpool⟩
    · cases hnil
    · refine ⟨rest, init, fiber, Or.inl ⟨hfn, hpool.symm, hfiber⟩, ?_⟩
      simp [started, putLife, put, startFields]
  | nil =>
    dsimp only at hacquire
    split at hacquire
    · cases hacquire
    · split at hacquire
      · cases hacquire
      · next hunused =>
        cases hacquire
        rw [show (put { s with pool := [], poolInit := init } fresh fiberCtor).fibers fresh =
          some _ from Function.update_self ..] at hfiber
        cases hfiber
        refine ⟨[], init, fiberCtor, Or.inr ⟨rfl, by simpa using hunused, rfl⟩, ?_⟩
        simp [started, putLife, put, startFields]

theorem Sound.acquired (hs : Sound s) (h : Acquired s fn args addr pool fiber) :
    addr ∉ s.ring ∧ addr ∉ pool ∧ pool.Sublist s.pool := by
  rcases h with ⟨_, hpool, _⟩ | ⟨rfl, hnone, _⟩
  · have hnodup := hs.nodup
    rw [hpool, List.nodup_middle, List.nodup_cons] at hnodup
    refine ⟨fun h ↦ hnodup.1 (List.mem_append_left _ h),
      fun h ↦ hnodup.1 (List.mem_append_right _ h), ?_⟩
    rw [hpool]
    exact List.sublist_cons_self _ _
  · refine ⟨fun h ↦ ?_, List.not_mem_nil, List.nil_sublist _⟩
    obtain ⟨found, hfound, _⟩ := hs.ring addr h
    rw [hnone] at hfound
    cases hfound

/-- A new fiber whose structure says whether it is forgotten. -/
theorem Sound.started (hs : Sound s) (hring : addr ∉ s.ring) (haddr : addr ∉ pool)
    (hpool : pool.Sublist s.pool) (hid : fiber.id = s.id)
    (hstate : fiber.state = .running ∨ fiber.state = .idle) (hctx : fiber.ctx ≠ .inAwait)
    (hforget : fiber.fireAndForget = forgotten) :
    Sound (started s addr pool init fiber forgotten) := by
  have hnew : s.lives s.id = none := hs.fresh s.id (Nat.le_refl _)
  have hlives : ∀ id life, s.lives id = some life →
      (Fibers.started s addr pool init fiber forgotten).lives id = some life := by
    intro id life hlife
    have hne : id ≠ s.id := by
      intro heq
      rw [heq, hnew] at hlife
      cases hlife
    exact (Function.update_of_ne hne _ _).trans hlife
  have hfibers : ∀ other ≠ addr,
      (Fibers.started s addr pool init fiber forgotten).fibers other = s.fibers other :=
    fun other hother ↦ Function.update_of_ne hother _ _
  have hblocked : fiber.state ≠ .blocked ∧ fiber.state ≠ .canceling ∧ fiber.state ≠ .canceled := by
    rcases hstate with hcase | hcase <;> rw [hcase] <;> exact ⟨nofun, nofun, nofun⟩
  refine ⟨?_, ?_, ?_, ?_, ?_, ?_, ?_⟩
  · show (s.ring ++ [addr] ++ pool).Nodup
    rw [List.append_assoc, List.singleton_append, List.nodup_middle, List.nodup_cons]
    refine ⟨fun h ↦ ?_, hs.nodup.sublist ((List.Sublist.refl _).append hpool)⟩
    rcases List.mem_append.mp h with h | h
    · exact hring h
    · exact haddr h
  · intro other hother
    rcases List.mem_append.mp hother with hold | hnew'
    · have hne : other ≠ addr := fun heq ↦ hring (heq ▸ hold)
      obtain ⟨found, hfound, hok⟩ := hs.ring other hold
      refine ⟨found, (hfibers other hne).trans hfound, hok.life.congr ?_,
        fun hinAwait ↦ (hok.await hinAwait).congr ?_, hok.blocked⟩
      · exact fun life hlife ↦ ⟨life, hlives _ life hlife, rfl, rfl, rfl, rfl⟩
      · exact fun id life hlife _ ↦ ⟨life, hlives id life hlife, rfl, rfl, rfl, rfl, fun _ ↦ rfl⟩
    · rw [List.mem_singleton.mp hnew']
      refine
        ⟨fiber, Function.update_self .., ⟨⟨addr, forgotten, none, none, false⟩, ?_, rfl, hforget,
        fun hwrong ↦ absurd hwrong hblocked.2.1, fun hwrong ↦ absurd hwrong hblocked.2.2, nofun⟩,
        fun hwrong ↦ absurd hwrong hctx, fun hwrong ↦ absurd hwrong hblocked.1⟩
      rw [hid]
      exact Function.update_self ..
  · intro other hother
    have hne : other ≠ addr := fun heq ↦ haddr (heq ▸ hother)
    rw [hfibers other hne]
    exact hs.pool other (hpool.subset hother)
  · intro id life hlife hnotForgotten htaken
    by_cases heq : id = s.id
    · rw [heq, show (Fibers.started s addr pool init fiber forgotten).lives s.id = some _ from
        Function.update_self ..] at hlife
      cases hlife
      refine ⟨List.mem_append_right _ (List.mem_singleton.mpr rfl), fiber, Function.update_self ..,
        hid.trans heq.symm⟩
    · have hlife' : s.lives id = some life := (Function.update_of_ne heq _ _).symm.trans hlife
      obtain ⟨hmem, hkept⟩ := hs.kept id life hlife' hnotForgotten htaken
      have hne : life.addr ≠ addr := fun haddr' ↦ hring (haddr' ▸ hmem)
      rw [hfibers _ hne]
      exact ⟨List.mem_append_left _ hmem, hkept⟩
  · intro id life hlife htaken
    by_cases heq : id = s.id
    · rw [heq, show (Fibers.started s addr pool init fiber forgotten).lives s.id = some _ from
        Function.update_self ..] at hlife
      cases hlife
      cases htaken
    · exact hs.taken id life ((Function.update_of_ne heq _ _).symm.trans hlife) htaken
  · intro id hle
    have hlt : s.id < id := hle
    exact (Function.update_of_ne (Nat.ne_of_gt hlt) _ _).trans (hs.fresh id (Nat.le_of_lt hlt))
  · intro result hresult
    obtain ⟨life, hlife, hdone⟩ := hs.awaited result hresult
    exact ⟨life, hlives _ life hlife, hdone⟩

theorem Executing.started (h : Executing s)
    (hstate : fiber.state = .running ∨ fiber.state = .idle) :
    Executing (started s addr pool init fiber forgotten) := by
  intro other found hother hfound
  by_cases heq : other = addr
  · rw [heq, show (Fibers.started s addr pool init fiber forgotten).fibers addr = some _ from
      Function.update_self ..] at hfound
    cases hfound
    exact hstate
  · have hfound' : s.fibers other = some found := (Function.update_of_ne heq _ _).symm.trans hfound
    cases hcase : s.ring with
    | nil =>
      have hhead : (s.ring ++ [addr]).head? = some other := hother
      rw [hcase] at hhead
      exact absurd (Option.some.inj hhead).symm heq
    | cons head rest =>
      have hhead : (s.ring ++ [addr]).head? = some other := hother
      rw [hcase] at hhead
      apply h other found _ hfound'
      rw [hcase]
      exact hhead

/-- The structure that `fiber_start` gets does not say that its fiber is forgotten. -/
def CleanPool (s : State) (fn args : ℕ) : Prop :=
  fn = 0 ∧ args = 0 ∨ ∀ fiber, s.pool.head?.bind s.fibers = some fiber → fiber.fireAndForget = false

theorem Acquired.not_forgotten (h : Acquired s fn args addr pool fiber)
    (hclean : CleanPool s fn args) : fiber.fireAndForget = false := by
  rcases h with ⟨hfn, hpool, hfiber⟩ | ⟨_, _, rfl⟩
  · rcases hclean with hinit | hclean
    · exact absurd hinit hfn
    · apply hclean
      rw [hpool]
      exact hfiber
  · rfl

theorem startFields_ctx_ne (fiber : Fiber) (id fn args : ℕ) :
    (startFields fiber id fn args).ctx ≠ .inAwait := by
  unfold startFields
  dsimp only
  split <;> exact nofun

theorem Sound.start {fn args fresh addr : ℕ} (hs : Sound s) (hexecuting : Executing s)
    (hclean : CleanPool s fn args) (h : fiberStart s fn args fresh = .ok (addr, s')) :
    Sound s' ∧ Executing s' := by
  obtain ⟨pool, init, fiber, hacquired, rfl⟩ := fiberStart_eq_ok h
  obtain ⟨hring, haddr, hpool⟩ := hs.acquired hacquired
  exact ⟨hs.started hring haddr hpool rfl (Or.inl rfl) (startFields_ctx_ne fiber s.id fn args)
    (hacquired.not_forgotten hclean), hexecuting.started (Or.inl rfl)⟩

theorem started_put :
    put (started s addr pool init fiber forgotten) addr fiber' =
      started s addr pool init fiber' forgotten := by
  simp [put, started]

theorem Sound.startIdle {fn args fresh addr : ℕ} (hs : Sound s) (hexecuting : Executing s)
    (hclean : CleanPool s fn args) (h : fiberStartIdle s fn args fresh = .ok (addr, s')) :
    Sound s' ∧ Executing s' := by
  unfold fiberStartIdle at h
  obtain ⟨⟨addr', state⟩, hstart, h⟩ := bind_eq_ok.mp h
  obtain ⟨pool, init, fiber, hacquired, rfl⟩ := fiberStart_eq_ok hstart
  dsimp only at h
  rw [fiberAt_eq_ok.mpr (Function.update_self ..), ok_bind, started_put] at h
  cases h
  obtain ⟨hring, haddr, hpool⟩ := hs.acquired hacquired
  exact ⟨hs.started hring haddr hpool rfl (Or.inr rfl) (startFields_ctx_ne fiber s.id fn args)
    (hacquired.not_forgotten hclean), hexecuting.started (Or.inr rfl)⟩

theorem Sound.startAndForget {fn args fresh : ℕ} (hs : Sound s) (hexecuting : Executing s)
    (h : fiberStartAndForget s fn args fresh = .ok s') : Sound s' ∧ Executing s' := by
  unfold fiberStartAndForget at h
  obtain ⟨⟨addr, state⟩, hstart, h⟩ := bind_eq_ok.mp h
  obtain ⟨pool, init, fiber, hacquired, rfl⟩ := fiberStart_eq_ok hstart
  dsimp only at h
  rw [fiberAt_eq_ok.mpr (Function.update_self ..), ok_bind, started_put] at h
  have hlife : ∀ found : Fiber, putLife (Fibers.started s addr pool init found false) s.id
      ⟨addr, true, none, none, false⟩ = Fibers.started s addr pool init found true := by
    intro found
    simp [putLife, Fibers.started]
  rw [show (startFields fiber s.id fn args).id = s.id from rfl, hlife] at h
  cases h
  obtain ⟨hring, haddr, hpool⟩ := hs.acquired hacquired
  exact ⟨hs.started hring haddr hpool rfl (Or.inl rfl) (startFields_ctx_ne fiber s.id fn args) rfl,
    hexecuting.started (Or.inl rfl)⟩

/-- An executing fiber is neither blocked nor has it returned. -/
theorem Executing.state (h : Executing s) (hhead : s.ring.head? = some addr)
    (hfiber : s.fibers addr = some fiber) : fiber.state ≠ .canceled ∧ fiber.state ≠ .blocked := by
  rcases h addr fiber hhead hfiber with hcase | hcase <;> rw [hcase] <;> exact ⟨nofun, nofun⟩

theorem Sound.yieldSelf (hs : Sound s) (hexecuting : Executing s) (h : yieldSelf s polls = .ok s') :
    Sound s' ∧ Executing s' := by
  unfold Fibers.yieldSelf at h
  obtain ⟨self, hself, h⟩ := bind_eq_ok.mp h
  obtain ⟨fiber, hfiber, h⟩ := bind_eq_ok.mp h
  rw [current_eq_ok] at hself
  rw [fiberAt_eq_ok] at hfiber
  have hok := hs.fiberOk (List.mem_of_mem_head? hself) hfiber
  have hstate := hexecuting.state hself hfiber
  have hput : Sound (Fibers.put s self { fiber with ctx := .inYield }) := by
    refine hs.put hfiber ?_ ⟨hok.life, nofun, fun hblocked ↦ absurd hblocked hstate.2⟩
    rfl
  exact hput.yield h

theorem Sound.block {hasFunction : Bool} {deadline : Option ℕ} (hs : Sound s)
    (hexecuting : Executing s) (h : fiberNextState s (.block hasFunction deadline polls) = .ok s') :
    Sound s' ∧ Executing s' := by
  unfold fiberNextState fiberBlock at h
  obtain ⟨self, hself, h⟩ := bind_eq_ok.mp h
  obtain ⟨fiber, hfiber, h⟩ := bind_eq_ok.mp h
  rw [current_eq_ok] at hself
  rw [fiberAt_eq_ok] at hfiber
  obtain ⟨life, hlife, haddr, hforget, _, _, htaken⟩ :=
    (hs.fiberOk (List.mem_of_mem_head? hself) hfiber).life
  have hstate := hexecuting.state hself hfiber
  refine Sound.yield (hs.put hfiber ?_ ?_) h
  · rfl
  · refine ⟨⟨life, hlife, haddr, hforget, nofun, nofun, fun htrue ↦ ?_⟩, nofun, ?_⟩
    · exact absurd (htaken htrue) hstate.1
    · intro _ target ret id hfunction
      cases hasFunction <;> cases hfunction

/-- What a fiber returns is written into its history. -/
theorem Sound.ret {value : ℕ} (hs : Sound s) (hexecuting : Executing s)
    (h : fiberRet s value polls = .ok s') : Sound s' ∧ Executing s' := by
  unfold fiberRet at h
  obtain ⟨self, hself, h⟩ := bind_eq_ok.mp h
  obtain ⟨fiber, hfiber, h⟩ := bind_eq_ok.mp h
  rw [current_eq_ok] at hself
  rw [fiberAt_eq_ok] at hfiber
  have hok := hs.fiberOk (List.mem_of_mem_head? hself) hfiber
  obtain ⟨life, hlife, haddr, hforget, _, _, htaken⟩ := hok.life
  have hleft : life.taken = false := by
    by_contra htrue
    exact (hexecuting.state hself hfiber).1 (htaken (by simpa using htrue))
  dsimp only [Fibers.put] at h
  rw [hlife] at h
  refine Sound.yield ?_ h
  have hadvances : life.Advances { life with returned := some value } := by
    refine ⟨rfl, rfl, fun htrue ↦ ?_, fun htrue ↦ ?_⟩ <;>
    · have hwrong : life.taken = true := htrue
      rw [hleft] at hwrong
      cases hwrong
  refine hs.advance (((Advances.refl s).put hfiber ?_).putLife hlife hadvances) ?_
  · rfl
  · intro other found hother hfound
    by_cases heq : other = self
    · rw [heq] at hfound
      cases (Function.update_self self _ s.fibers).symm.trans hfound
      rw [heq]
      refine ⟨⟨{ life with returned := some value }, Function.update_self .., haddr, hforget,
        fun _ ↦ rfl, fun hcanceled ↦ Or.inl ?_, fun htrue ↦ ?_⟩, nofun, fun hblocked ↦ ?_⟩
      · rw [← hforget]
        by_contra hnot
        simp [hnot] at hcanceled
      · have hwrong : life.taken = true := htrue
        rw [hleft] at hwrong
        cases hwrong
      · cases hcase : fiber.fireAndForget <;> simp [hcase] at hblocked
    · have hfound' : s.fibers other = some found :=
        (Function.update_of_ne heq _ _).symm.trans hfound
      have hotherOk := hs.fiberOk hother hfound'
      refine hotherOk.update hlife (fun hid ↦ ?_) (fun _ ↦ ?_)
      · exact absurd (hotherOk.life.addr_eq hok.life hid) heq
      · refine ⟨rfl, rfl, rfl, rfl, fun htrue ↦ ?_⟩
        rw [hleft] at htrue
        cases htrue

/-- Awaiting a fiber for the first time. -/
theorem Sound.await (hs : Sound s) (hexecuting : Executing s) (hmem : addr ∈ s.ring)
    (htarget : s.fibers addr = some target) (hlife : s.lives target.id = some life)
    (hforget : life.forgotten = false) (hfirst : life.awaiter = none)
    (h : fiberAwait s addr polls = .ok s') : Sound s' ∧ Executing s' := by
  unfold fiberAwait fiberBlock at h
  obtain ⟨self, hself, h⟩ := bind_eq_ok.mp h
  rw [fiberAt_eq_ok.mpr htarget, ok_bind, hlife] at h
  dsimp only at h
  obtain ⟨self', hself', h⟩ := bind_eq_ok.mp h
  obtain ⟨fiber, hfiber, h⟩ := bind_eq_ok.mp h
  rw [current_eq_ok] at hself hself'
  cases hself.symm.trans hself'
  rw [fiberAt_eq_ok] at hfiber
  have hok := hs.fiberOk (List.mem_of_mem_head? hself) hfiber
  have hstate := hexecuting.state hself hfiber
  have hleft : life.taken = false := by
    by_contra htrue
    exact hs.taken _ life hlife (by simpa using htrue) hfirst
  have haddr : life.addr = addr := by
    obtain ⟨own, hown, hownAddr, _⟩ := (hs.fiberOk hmem htarget).life
    rw [hlife] at hown
    cases hown
    exact hownAddr
  have hadvances : life.Advances { life with awaiter := some self } := by
    refine ⟨rfl, rfl, fun htrue ↦ ?_, fun _ _ ↦ nofun⟩
    rw [hleft] at htrue
    cases htrue
  have hupdate : ∀ other found, other ∈ s.ring → s.fibers other = some found →
      FiberOk (Function.update s.lives target.id (some { life with awaiter := some self }))
        other found := by
    intro other found hother hfound
    refine (hs.fiberOk hother hfound).update hlife (fun _ ↦ ⟨rfl, rfl, rfl, rfl⟩) (fun hwait ↦ ?_)
    rw [hfirst] at hwait
    cases hwait
  refine Sound.yield ?_ h
  refine hs.advance (((Advances.refl s).putLife hlife hadvances).put hfiber ?_) ?_
  · rfl
  · intro other found hother hfound
    by_cases heq : other = self
    · rw [heq] at hfound
      cases (Function.update_self self _ s.fibers).symm.trans hfound
      rw [heq]
      obtain ⟨own, hown, hownAddr, hownForget, _, _, hownTaken⟩ :=
        (hupdate self fiber (List.mem_of_mem_head? hself) hfiber).life
      refine ⟨⟨own, hown, hownAddr, hownForget, nofun, nofun, fun htrue ↦ ?_⟩, fun _ ↦ ?_,
        fun _ _ _ _ _ ↦ rfl⟩
      · exact absurd (hownTaken htrue) hstate.1
      · exact ⟨addr, 0, target.id, _, rfl, rfl, Function.update_self .., haddr, hforget, rfl,
          Or.inl ⟨rfl, hleft⟩⟩
    · exact hupdate other found hother ((Function.update_of_ne heq _ _).symm.trans hfound)

/-- `fiber_start` gets a structure in which `fire_and_forget` is not set, and `fiber_await` the
handle of a fiber that is not forgotten and was not awaited before. -/
def Permitted (s : State) : Action → Prop
  | .start fn args _ => CleanPool s fn args
  | .startIdle fn args _ => CleanPool s fn args
  | .await addr _ => addr ∈ s.ring ∧ ∃ fiber life, s.fibers addr = some fiber ∧
      s.lives fiber.id = some life ∧ life.forgotten = false ∧ life.awaiter = none
  | _ => True

theorem Sound.step {action : Action} (hs : Sound s) (hexecuting : Executing s)
    (hpermitted : Permitted s action) (h : fiberNextState s action = .ok s') :
    Sound s' ∧ Executing s' := by
  cases action with
  | start fn args fresh =>
    obtain ⟨⟨addr, state⟩, hstart, h⟩ := bind_eq_ok.mp h
    cases h
    exact hs.start hexecuting hpermitted hstart
  | startIdle fn args fresh =>
    obtain ⟨⟨addr, state⟩, hstart, h⟩ := bind_eq_ok.mp h
    cases h
    exact hs.startIdle hexecuting hpermitted hstart
  | startAndForget fn args fresh => exact hs.startAndForget hexecuting h
  | yield polls => exact hs.yieldSelf hexecuting h
  | block hasFunction deadline polls => exact hs.block hexecuting h
  | await addr polls =>
    obtain ⟨hmem, fiber, life, hfiber, hlife, hforget, hfirst⟩ := hpermitted
    exact hs.await hexecuting hmem hfiber hlife hforget hfirst h
  | ret value polls => exact hs.ret hexecuting h

theorem Sound.zeroed : Sound zeroed := by
  refine ⟨List.nodup_nil, ?_, ?_, ?_, ?_, fun _ _ ↦ rfl, ?_⟩
  · intro addr haddr
    cases haddr
  · intro addr haddr
    cases haddr
  · intro id life hlife
    cases hlife
  · intro id life hlife
    cases hlife
  · intro result hresult
    cases hresult

/-- A fiber whose handle somebody has, and whose result was not taken, has its structure, which is
in use and not in the pool; and every `fiber_await` returned what the function of the awaited fiber
returned. -/
structure LifetimesKept (s : State) : Prop where
  kept : ∀ id life, s.lives id = some life → life.forgotten = false → life.taken = false →
    life.addr ∈ s.ring ∧ life.addr ∉ s.pool ∧
      ∃ fiber, s.fibers life.addr = some fiber ∧ fiber.id = id
  awaited : ∀ id value, (id, value) ∈ s.awaited →
    ∃ life, s.lives id = some life ∧ life.returned = some value

theorem Sound.lifetimesKept (hs : Sound s) : LifetimesKept s := by
  constructor
  · intro id life hlife hforget htaken
    obtain ⟨hmem, hfiber⟩ := hs.kept id life hlife hforget htaken
    have hdisjoint := (List.nodup_append.mp hs.nodup).2.2
    exact ⟨hmem, fun hpool ↦ hdisjoint _ hmem _ hpool rfl, hfiber⟩
  · intro id value hresult
    obtain ⟨life, hlife, _, hreturned⟩ := hs.awaited (id, value) hresult
    exact ⟨life, hlife, hreturned⟩

/-- In every run in which `fiber_start` is given clean structures and no fiber is awaited twice,
fibers live until they are awaited. -/
theorem fibersRun_lifetimesKept {actions : List Action} {s : State}
    (hrun : Run (Guarded (Succeeds fiberNextState) Permitted) zeroed actions s) :
    LifetimesKept s := by
  have hinit : Sound zeroed ∧ Executing zeroed := ⟨Sound.zeroed, fun _ _ h ↦ by cases h⟩
  have hsound : Sound s ∧ Executing s := by
    apply Run.invariant _ hrun hinit
    rintro s action s' ⟨hs, hexecuting⟩ ⟨hpermitted, hstep⟩
    exact hs.step hexecuting hpermitted hstep
  exact hsound.1.lifetimesKept

/-- The main fiber starts another one and awaits it; the other one returns 7. -/
theorem fibersRun_lifetimesKept_await :
    ∃ s : State, s.awaited = [(1, 7)] ∧ s.pool = [200] ∧ LifetimesKept s := by
  let poll : Poll := ⟨false, 0⟩
  have hrun : Run (Guarded (Succeeds fiberNextState) Permitted) zeroed
      [.start 0 0 100, .start 1 0 200, .await 200 [poll, poll], .ret 7 [poll, poll]] _ :=
    .cons ⟨Or.inl ⟨rfl, rfl⟩, rfl⟩ <| .cons ⟨Or.inr (fun _ h ↦ nomatch h), rfl⟩ <|
      .cons ⟨⟨by decide, _, _, rfl, rfl, rfl, rfl⟩, rfl⟩ <| .cons ⟨trivial, rfl⟩ <| .nil _
  exact ⟨_, rfl, rfl, fibersRun_lifetimesKept hrun⟩

/-- A forgotten fiber leaves `fire_and_forget` in the structure that the next `fiber_start` gets, so
that its fiber is freed when it returns. -/
theorem fibersRun_freed_before_await :
    ¬ ∀ (actions : List Action) (s : State),
      Run (Succeeds fiberNextState) zeroed actions s → LifetimesKept s := by
  intro h
  let poll : Poll := ⟨false, 0⟩
  have hrun : Run (Succeeds fiberNextState) zeroed
      [.start 0 0 100, .startAndForget 1 0 200, .yield [poll], .ret 5 [poll],
        .start 2 0 300, .yield [poll], .ret 7 [poll]] _ :=
    .cons rfl <| .cons rfl <| .cons rfl <| .cons rfl <| .cons rfl <| .cons rfl <| .cons rfl <|
      .nil _
  have hkept := (h _ _ hrun).kept 2 ⟨200, false, none, some 7, false⟩ rfl rfl rfl
  exact absurd hkept.2.1 (by decide)

end Brutal.Fibers
