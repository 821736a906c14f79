import Brutal.Math.Rect
import Mathlib.Data.List.Basic

/-!
# The window server

`srvs/window/server.c`: painting the windows, finding the one under the mouse, and passing events on
to it.  The clients are known by their place in the list of the server.
-/

namespace Brutal.Window

open Math

/-- `UiWinType` -/
inductive UiWinType where
  | normal
  | modal
  | dockTop
  | dockBottom
  | dockLeft
  | dockRight
deriving DecidableEq, Repr

/-- `WmClient` -/
structure WmClient (κ : Type) where
  type : UiWinType
  visible : Bool
  bound : MRectf κ

/-- `WmServer`, with the bound of its display. -/
structure WmServer (κ : Type) where
  display : MRectf κ
  mouse : MVec2f κ
  clients : List (WmClient κ)

section Clients

variable {κ : Type}

/-- A client of the server is shown, hidden or closed. -/
def WmServer.request (self : WmServer κ) (i : ℕ) (f : WmClient κ → WmClient κ × MRectf κ) :
    WmServer κ :=
  { self with clients := self.clients.modify i fun client ↦ (f client).1 }

/-- What is painted for a client. -/
structure Paint (κ : Type) where
  client : ℕ
  bound : MRectf κ
  radius : ℕ

/-- `wm_server_render_clients`: the paintings in their order. -/
def wmServerRenderClients (self : WmServer κ) : List (Paint κ) :=
  self.clients.mapIdx fun i client ↦
    if client.type = .normal then ⟨i, client.bound, 8⟩ else ⟨i, client.bound, 0⟩

/-- The clients are painted in the order of the list. -/
theorem wmServerRenderClients_client {self : WmServer κ} {i : ℕ} {paint : Paint κ}
    (h : (wmServerRenderClients self)[i]? = some paint) : paint.client = i := by
  rw [wmServerRenderClients, List.getElem?_mapIdx, Option.map_eq_some_iff] at h
  obtain ⟨client, -, rfl⟩ := h
  split <;> rfl

theorem length_wmServerRenderClients (self : WmServer κ) :
    (wmServerRenderClients self).length = self.clients.length := List.length_mapIdx

variable [Add κ] [LE κ] [LT κ]

/-- `wm_server_client_at` -/
def wmServerClientAt [DecidableLE κ] [DecidableLT κ] (self : WmServer κ) (vec : MVec2f κ) :
    Option ℕ :=
  self.clients.findIdx? fun client ↦ mRectfCollidePoint client.bound vec

/-- The bound of the client contains the position. -/
def Hit (self : WmServer κ) (vec : MVec2f κ) (i : ℕ) : Prop :=
  ∃ client, self.clients[i]? = some client ∧ mRectfCollidePoint client.bound vec

/-- The client is visible, and its bound contains the position. -/
def Shown (self : WmServer κ) (vec : MVec2f κ) (i : ℕ) : Prop :=
  ∃ client, self.clients[i]? = some client ∧ client.visible = true ∧
    mRectfCollidePoint client.bound vec

/-- The client is the last one painted among those shown at the position. -/
def Topmost (self : WmServer κ) (vec : MVec2f κ) (i : ℕ) : Prop :=
  ∃ before paint after, wmServerRenderClients self = before ++ paint :: after ∧ paint.client = i ∧
    Shown self vec i ∧ ∀ later ∈ after, ¬ Shown self vec later.client

variable {self : WmServer κ} {vec : MVec2f κ} {i : ℕ}

theorem Shown.hit (h : Shown self vec i) : Hit self vec i := by
  obtain ⟨client, hclient, -, hbound⟩ := h
  exact ⟨client, hclient, hbound⟩

/-- The topmost client is the last one in the list that is shown at the position. -/
theorem topmost_iff :
    Topmost self vec i ↔ Shown self vec i ∧ ∀ j, i < j → ¬ Shown self vec j := by
  constructor
  · rintro ⟨before, paint, after, hsplit, hpaint, hshown, hafter⟩
    have hindex : before.length = i := by
      rw [← hpaint]
      symm
      apply @wmServerRenderClients_client _ self
      rw [hsplit, List.getElem?_append_right (Nat.le_refl _), Nat.sub_self, List.getElem?_cons_zero]
    refine ⟨hshown, fun j hj hshown' ↦ ?_⟩
    obtain ⟨client, hclient, -⟩ := id hshown'
    have hlt : j < (wmServerRenderClients self).length := by
      rw [length_wmServerRenderClients]
      exact (List.getElem?_eq_some_iff.mp hclient).1
    have hlater : (wmServerRenderClients self)[j]? = after[j - i - 1]? := by
      rw [hsplit, List.getElem?_append_right (by omega), hindex,
        show j - i = j - i - 1 + 1 by omega, List.getElem?_cons_succ, Nat.add_sub_cancel]
    rw [List.getElem?_eq_getElem hlt] at hlater
    have hclient' := wmServerRenderClients_client (List.getElem?_eq_getElem hlt)
    apply hafter _ (List.mem_of_getElem? hlater.symm)
    rwa [hclient']
  · rintro ⟨hshown, hlast⟩
    obtain ⟨client, hclient, -⟩ := id hshown
    have hlt : i < (wmServerRenderClients self).length := by
      rw [length_wmServerRenderClients]
      exact (List.getElem?_eq_some_iff.mp hclient).1
    refine ⟨(wmServerRenderClients self).take i, (wmServerRenderClients self)[i],
      (wmServerRenderClients self).drop (i + 1), ?_,
      wmServerRenderClients_client (List.getElem?_eq_getElem hlt), hshown, ?_⟩
    · rw [List.getElem_cons_drop, List.take_append_drop]
    · intro later hlater
      obtain ⟨k, hk⟩ := List.getElem?_of_mem hlater
      rw [List.getElem?_drop] at hk
      rw [wmServerRenderClients_client hk]
      exact hlast _ (by omega)

variable [DecidableLE κ] [DecidableLT κ]

/-- The client at a position is the first one that contains it. -/
theorem wmServerClientAt_eq_some :
    wmServerClientAt self vec = some i ↔ Hit self vec i ∧ ∀ j < i, ¬ Hit self vec j := by
  rw [wmServerClientAt, List.findIdx?_eq_some_iff_getElem]
  constructor
  · rintro ⟨hlt, hhit, hfirst⟩
    refine ⟨⟨_, List.getElem?_eq_getElem hlt, by simpa using hhit⟩, ?_⟩
    rintro j hj ⟨client, hclient, hbound⟩
    have hnot := hfirst j hj
    rw [List.getElem?_eq_getElem (by omega), Option.some.injEq] at hclient
    rw [hclient] at hnot
    simp [hbound] at hnot
  · rintro ⟨⟨client, hclient, hbound⟩, hfirst⟩
    obtain ⟨hlt, rfl⟩ := List.getElem?_eq_some_iff.mp hclient
    refine ⟨hlt, by simpa using hbound, fun j hj ↦ ?_⟩
    have hnot : ¬ mRectfCollidePoint self.clients[j].bound vec := fun hbound' ↦
      hfirst j hj ⟨_, List.getElem?_eq_getElem (by omega), hbound'⟩
    simpa using hnot

theorem wmServerClientAt_eq_none :
    wmServerClientAt self vec = none ↔ ∀ i, ¬ Hit self vec i := by
  rw [wmServerClientAt, List.findIdx?_eq_none_iff]
  constructor
  · rintro h i ⟨client, hclient, hbound⟩
    have hnot := h client (List.mem_of_getElem? hclient)
    simp [hbound] at hnot
  · intro h client hmem
    obtain ⟨i, hclient⟩ := List.getElem?_of_mem hmem
    have hnot : ¬ mRectfCollidePoint client.bound vec := fun hbound ↦
      h i ⟨client, hclient, hbound⟩
    simpa using hnot

/-- The client found is the topmost one, and none is found only where none is shown. -/
structure FindsTopmost (server : WmServer κ) (vec : MVec2f κ) : Prop where
  found : ∀ i, wmServerClientAt server vec = some i ↔ Topmost server vec i
  none : wmServerClientAt server vec = none ↔ ∀ i, ¬ Shown server vec i

/-- The client found is the topmost one exactly when the first client that contains the position,
if there is one, is visible and no later one is shown there. -/
theorem findsTopmost_iff (self : WmServer κ) (vec : MVec2f κ) :
    FindsTopmost self vec ↔
      ∀ i, Hit self vec i → (∀ j < i, ¬ Hit self vec j) →
        Shown self vec i ∧ ∀ j, i < j → ¬ Shown self vec j := by
  constructor
  · intro h i hhit hfirst
    exact topmost_iff.mp ((h.found i).mp (wmServerClientAt_eq_some.mpr ⟨hhit, hfirst⟩))
  · intro h
    have hshown : ∀ i, Shown self vec i → wmServerClientAt self vec = some i := by
      intro i hi
      cases hat : wmServerClientAt self vec with
      | none => exact absurd hi.hit (wmServerClientAt_eq_none.mp hat i)
      | some k =>
        obtain ⟨hhit, hfirst⟩ := wmServerClientAt_eq_some.mp hat
        rcases Nat.lt_trichotomy i k with hlt | rfl | hgt
        · exact absurd hi.hit (hfirst i hlt)
        · rfl
        · exact absurd hi ((h k hhit hfirst).2 i hgt)
    refine ⟨fun i ↦ ⟨fun hat ↦ ?_, fun htop ↦ hshown i (topmost_iff.mp htop).1⟩, ?_⟩
    · obtain ⟨hhit, hfirst⟩ := wmServerClientAt_eq_some.mp hat
      exact topmost_iff.mpr (h i hhit hfirst)
    · constructor
      · intro hat i hi
        rw [hshown i hi] at hat
        cases hat
      · intro hnone
        cases hat : wmServerClientAt self vec with
        | none => rfl
        | some k =>
          obtain ⟨hhit, hfirst⟩ := wmServerClientAt_eq_some.mp hat
          exact absurd (h k hhit hfirst).1 (hnone k)

end Clients

/-- A window in front of another one, which is found instead of it. -/
theorem findsTopmost_fails :
    ¬ ∀ (self : WmServer ℤ) (vec : MVec2f ℤ), FindsTopmost self vec := by
  intro h
  have hfinds := h ⟨⟨0, 0, 640, 480⟩, ⟨0, 0⟩,
    [⟨.normal, true, ⟨0, 0, 20, 20⟩⟩, ⟨.normal, true, ⟨5, 5, 20, 20⟩⟩]⟩ ⟨10, 10⟩
  have hat := (hfinds.found 0).mp (by decide)
  exact (topmost_iff.mp hat).2 1 (by decide)
    ⟨⟨.normal, true, ⟨5, 5, 20, 20⟩⟩, rfl, rfl, by decide⟩

/-- `UiEventType` -/
inductive UiEventType where
  | ignore
  | enter
  | leave
  | focusIn
  | focusOut
  | keyboardUp
  | keyboardTyped
  | keyboardDown
  | mouseUp
  | mouseDown
  | mouseMove
  | mouseScroll
deriving DecidableEq, Repr

/-- `UiMouseEvent`.  A mouse moves by less than the integers that a float holds exactly. -/
structure UiMouseEvent where
  position : MVec2f ℤ
  offset : MVec2f ℤ
  scroll : MVec2f ℤ
  buttons : UInt8
deriving DecidableEq, Repr

/-- `UiEvent`, as it is delivered for a mouse. -/
structure UiEvent where
  type : UiEventType
  captured : Bool
  mouse : UiMouseEvent
deriving DecidableEq, Repr

/-- `ui_event_is_mouse` -/
def uiEventIsMouse (event : UiEvent) : Prop :=
  event.type = .mouseUp ∨ event.type = .mouseDown ∨ event.type = .mouseMove ∨
    event.type = .mouseScroll

instance (event : UiEvent) : Decidable (uiEventIsMouse event) :=
  inferInstanceAs (Decidable (_ ∨ _))

/-- `wm_client_dispatch`: the event that is sent to the client. -/
def wmClientDispatch (self : WmClient ℤ) (event : UiEvent) : UiEvent :=
  if uiEventIsMouse event then
    { event with mouse.position := mVec2fSub event.mouse.position self.bound.pos }
  else event

/-- What a dispatch does: the server after it, the rectangles that are to be painted again, and the
event that is sent with the client that gets it. -/
structure Dispatched where
  server : WmServer ℤ
  rendered : List (MRectf ℤ)
  sent : Option (ℕ × UiEvent)

/-- The last part of `wm_server_dispatch`. -/
def sendAt (self : WmServer ℤ) (event : UiEvent) : Option (ℕ × UiEvent) := do
  let i ← wmServerClientAt self self.mouse
  let client ← self.clients[i]?
  return (i, wmClientDispatch client event)

/-- `wm_server_dispatch` -/
def wmServerDispatch (self : WmServer ℤ) (event : UiEvent) : Dispatched :=
  if uiEventIsMouse event then
    if event.type = .mouseMove then
      let before := mVec2fSub self.mouse ⟨8, 8⟩
      let mouse := mRectfClampVec2 self.display (mVec2fAdd self.mouse event.mouse.offset)
      let server := { self with mouse := mouse }
      ⟨server, [⟨before.x, before.y, 42, 42⟩, ⟨mouse.x, mouse.y, 32, 32⟩],
        sendAt server { event with mouse.position := mouse }⟩
    else ⟨self, [], sendAt self { event with mouse.position := self.mouse }⟩
  else ⟨self, [], sendAt self event⟩

/-- The cursor is moved by the events that say that the mouse moved. -/
theorem wmServerDispatch_mouse (self : WmServer ℤ) (event : UiEvent) :
    (wmServerDispatch self event).server.mouse =
      if event.type = .mouseMove then
        mRectfClampVec2 self.display (mVec2fAdd self.mouse event.mouse.offset)
      else self.mouse := by
  rw [wmServerDispatch]
  by_cases hmove : event.type = .mouseMove
  · have hmouse : uiEventIsMouse event := Or.inr (Or.inr (Or.inl hmove))
    rw [if_pos hmouse, if_pos hmove, if_pos hmove]
  · rw [if_neg hmove, if_neg hmove]
    split <;> rfl

end Brutal.Window
