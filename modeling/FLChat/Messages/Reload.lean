import FLChat.Messages.Delivery

/-!
# Reloading the collection view

A delivery replaces `messagesArray` at once, while the collection view keeps the number of rows it
took at its last `reloadData` until the timer has fired and the block that the timer queues has run.

No update is lost on the way and a reload never scrolls out of range (`reloads_of_reaches`).
-/

namespace FLChat.Messages

open Realtime

variable {jpegData : UIImage → Option Data} {app app' : App} {s₀ s s' : MState}

/-- Nothing has been shown and no row has been counted. -/
structure App.Launched (app : App) : Prop extends app.Fresh where
  itemCount : ∀ vc, app.itemCount vc = 0

/-- `app'` shows what `app` shows. -/
structure SameScreen (app app' : App) : Prop where
  messages : app'.messages = app.messages
  messagesArray : app'.messagesArray = app.messagesArray
  timer : app'.timer = app.timer
  blocks : app'.blocks = app.blocks
  itemCount : app'.itemCount = app.itemCount

@[refl] theorem SameScreen.refl (app : App) : SameScreen app app := ⟨rfl, rfl, rfl, rfl, rfl⟩

theorem SameScreen.trap (app : App) (c : Client) : SameScreen app (app.trap c) :=
  ⟨rfl, rfl, rfl, rfl, rfl⟩

/-- The message that a callback delivers to an observer. -/
def delivery (app : App) (t : Task Loc Client Cb) : Option (Call × Message) :=
  match t.cb, t.input with
  | .messageRead call, .value (.messages _) (some dict) =>
    if app.trapped t.client then none else dict.decode.map fun message => (call, message)
  | _, _ => none

/-- The delivery of a step. -/
def deliveryIn (s : MState) : MLabel → Option (Call × Message)
  | .run i _ => s.tasks[i]?.bind (delivery s.app)
  | _ => none

/-- What a step does to what the view controllers show. -/
inductive Shows (s : MState) : MLabel → App → Prop
  | same {l : MLabel} {app : App} (hl : deliveryIn s l = none) (h : SameScreen s.app app) :
    Shows s l app
  | delivered {l : MLabel} {call : Call} {message : Message}
    (hl : deliveryIn s l = some (call, message)) : Shows s l (s.app.deliver call message)
  | fired {vc : MessageVC} {e : Env} (h : s.app.timer vc = true) :
    Shows s (.press (.timerFired vc) e) (handleReloadCollection vc s.app)
  | reloaded {vc : MessageVC} {e : Env} {app : App} (hb : s.app.blocks vc ≠ 0)
    (h : app = reloadAndScroll vc s.app) : Shows s (.press (.reloadCollection vc) e) app
  | died {c : Client} : Shows s (.die c) (die c s.app)

theorem sameScreen_handleSend (c : Client) (vc : MessageVC) (text : String)
    (url : Option DownloadURL) (img : Option UIImage) (e : Env) (app : App) :
    SameScreen app (handleSend c vc text url img e app).1 := by
  unfold handleSend
  split
  · exact .trap app c
  · split
    · exact .trap app c
    · rfl
    · rfl

theorem sameScreen_upload (vc : MessageVC) (image : UIImage) (app : App) :
    SameScreen app (uploadToStorageUsingImage jpegData vc image app).1 := by
  unfold uploadToStorageUsingImage
  split
  · exact .trap app vc.client
  · split <;> rfl

theorem sameScreen_reloadAndScroll (vc : MessageVC) (app : App) :
    SameScreen (app.reload vc) (reloadAndScroll vc app) := by
  unfold reloadAndScroll
  split
  · exact .trap _ _
  · rfl

theorem shows_of_act {a : Action} {e : Env} {c : Client} {cmds : List Command}
    (hact : act jpegData a e s.app = some (c, app', cmds)) : Shows s (.press a e) app' := by
  unfold act at hact
  split at hact
  · cases hact
  cases a with
  | viewDidAppear | signOut | signIn =>
    cases hact
    exact .same rfl ⟨rfl, rfl, rfl, rfl, rfl⟩
  | sendBtnPressed vc text =>
    simp only at hact
    split at hact
    · cases hact
    · obtain ⟨-, hsend⟩ := Prod.mk.inj (Option.some.inj hact)
      have := sameScreen_handleSend vc.client vc text none none e s.app
      rw [hsend] at this
      exact .same rfl this
  | pickImage vc image =>
    obtain ⟨-, hupload⟩ := Prod.mk.inj (Option.some.inj hact)
    have hsame : SameScreen s.app (uploadToStorageUsingImage jpegData vc image s.app).1 :=
      sameScreen_upload vc image s.app
    rw [hupload] at hsame
    exact .same rfl hsame
  | timerFired vc =>
    simp only at hact
    split at hact
    · next ht =>
      cases hact
      exact .fired ht
    · cases hact
  | reloadCollection vc =>
    simp only at hact
    split at hact
    · cases hact
    · next hb =>
      cases hact
      exact .reloaded hb rfl

theorem shows_of_handle {i : ℕ} {t : Task Loc Client Cb} {e : Env}
    (ht : s.tasks[i]? = some t) :
    Shows s (.run i e) (handle t.client e t.cb t.input s.app).1 := by
  have hl : deliveryIn s (.run i e) = delivery s.app t := by simp [deliveryIn, ht]
  obtain ⟨c, cb, input⟩ := t
  simp only
  unfold delivery at hl
  unfold handle
  split
  · next hc =>
    refine .same (hl.trans ?_) (.refl _)
    split
    · exact if_pos hc
    · rfl
  next hc =>
  split
  · exact .same hl (.refl _)
  · exact .same hl (.refl _)
  · next call id value =>
    unfold messageRead
    cases value with
    | none => exact .same hl (.refl _)
    | some dict =>
      simp only [if_neg hc] at hl ⊢
      cases hdict : dict.decode with
      | none => exact .same (by simpa [hdict] using hl) (.trap _ c)
      | some message => exact .delivered (by simpa [hdict] using hl)
  · exact .same hl (.refl _)
  · exact .same hl (sameScreen_handleSend ..)
  · next hread _ _ =>
    refine .same (hl.trans ?_) (.refl _)
    split
    · next he₁ he₂ => exact (hread _ _ _ he₁ he₂).elim
    · rfl

/-- Only deliveries, timers, reloads and the end of a process change what is shown. -/
theorem shows_of_transition {l : MLabel} (h : Transition (program jpegData) s l s') :
    Shows s l s'.app := by
  cases h with
  | press _ hact => exact shows_of_act hact
  | @run i e t app cmds _ ht hrun =>
    have happ : (handle t.client e t.cb t.input s.app).1 = app := congrArg Prod.fst hrun
    exact happ ▸ shows_of_handle ht
  | apply | reject | serve => exact .same rfl (.refl _)
  | die => exact .died

/-! ## The pending reload -/

/-- What a view controller has to reload is on its way, and a reload that is on its way has
something to show. -/
structure Reloads (app : App) : Prop where
  counted : ∀ vc, app.timer vc = false → app.blocks vc = 0 →
    app.itemCount vc = (app.messagesArray vc).length
  pending : ∀ vc, app.timer vc = true ∨ app.blocks vc ≠ 0 → app.messagesArray vc ≠ []

theorem Reloads.launched (h : app.Launched) : Reloads app where
  counted := by simp [h.itemCount, h.messagesArray]
  pending := by simp [h.timer, h.blocks]

theorem Reloads.congr (h : Reloads app) (hsame : SameScreen app app') : Reloads app' where
  counted := by
    rw [hsame.timer, hsame.blocks, hsame.itemCount, hsame.messagesArray]
    exact h.counted
  pending := by
    rw [hsame.timer, hsame.blocks, hsame.messagesArray]
    exact h.pending

/-- A delivery arms the timer over an array that is not empty. -/
theorem Reloads.deliver (h : Reloads app) (call : Call) (message : Message) :
    Reloads (app.deliver call message) where
  counted := by
    intro vc
    by_cases hvc : vc = call.vc
    · simp [App.deliver, hvc]
    · simpa [App.deliver, hvc] using h.counted vc
  pending := by
    intro vc
    by_cases hvc : vc = call.vc
    · simp [App.deliver, hvc]
    · simpa [App.deliver, hvc] using h.pending vc

/-- The timer hands its reload over to a block. -/
theorem Reloads.fired (h : Reloads app) {vc : MessageVC} (ht : app.timer vc = true) :
    Reloads (handleReloadCollection vc app) where
  counted := by
    intro vc'
    by_cases hvc : vc' = vc
    · simp [handleReloadCollection, hvc]
    · simpa [handleReloadCollection, hvc] using h.counted vc'
  pending := by
    intro vc' hvc'
    by_cases hvc : vc' = vc
    · exact hvc ▸ h.pending vc (.inl ht)
    · simp only [handleReloadCollection, hvc, ↓reduceIte] at hvc'
      exact h.pending vc' hvc'

/-- A block takes the count of the array as it is by then. -/
theorem Reloads.reload (h : Reloads app) {vc : MessageVC} (hb : app.blocks vc ≠ 0) :
    Reloads (app.reload vc) where
  counted := by
    intro vc'
    by_cases hvc : vc' = vc
    · simp [App.reload, hvc]
    · simpa [App.reload, hvc] using h.counted vc'
  pending := by
    intro vc' hvc'
    by_cases hvc : vc' = vc
    · exact hvc ▸ h.pending vc (.inr hb)
    · simp only [App.reload, hvc, ↓reduceIte] at hvc'
      exact h.pending vc' hvc'

theorem Reloads.die (h : Reloads app) (c : Client) : Reloads (Messages.die c app) where
  counted := by
    intro vc
    by_cases hvc : vc.client = c
    · simp [Messages.die, hvc]
    · simpa [Messages.die, hvc] using h.counted vc
  pending := by
    intro vc
    by_cases hvc : vc.client = c
    · simp [Messages.die, hvc]
    · simpa [Messages.die, hvc] using h.pending vc

theorem Reloads.step {l : MLabel} (h : Reloads s.app) (hs : Shows s l app') : Reloads app' := by
  cases hs with
  | same _ hsame => exact h.congr hsame
  | delivered => exact h.deliver _ _
  | fired ht => exact h.fired ht
  | reloaded hb he =>
    subst he
    exact (h.reload hb).congr (sameScreen_reloadAndScroll _ _)
  | died => exact h.die _

theorem Reloads.of_reaches {ok : MState → MLabel → Prop} (hs : s₀.app.Launched)
    (h : Reaches (Realtime.step (program jpegData)) ok s₀ s) : Reloads s.app :=
  h.invariant (I := fun s => Reloads s.app) (.launched hs) fun hI _ hstep =>
    hI.step (shows_of_transition (transition_of_step hstep))

/-- Where neither the timer nor a block is pending, the collection view has counted the messages.
A block that runs finds messages to count, scrolls to a row that it has counted, and traps nobody. -/
theorem reloads_of_reaches {ok : MState → MLabel → Prop} (hs : s₀.app.Launched)
    (h : Reaches (step (program jpegData)) ok s₀ s) :
    (∀ vc, s.app.timer vc = false → s.app.blocks vc = 0 →
      s.app.itemCount vc = (s.app.messagesArray vc).length) ∧
    ∀ vc e s', step (program jpegData) s (.press (.reloadCollection vc) e) = some s' →
      s.app.messagesArray vc ≠ [] ∧
      (s'.app.messagesArray vc).length - 1 < s'.app.itemCount vc ∧
      s'.app.trapped = s.app.trapped := by
  have hreloads := Reloads.of_reaches hs h
  refine ⟨hreloads.counted, fun vc e s' hstep => ?_⟩
  cases transition_of_step hstep with
  | press _ hact =>
    simp only [program_act, act] at hact
    split at hact
    · cases hact
    · split at hact
      · cases hact
      · next hb =>
        have hne := hreloads.pending vc (.inr hb)
        have hpos := List.length_pos_iff.2 hne
        cases hact
        simp only [State.pressed_app, reloadAndScroll, if_neg hne]
        refine ⟨hne, ?_, rfl⟩
        simp only [App.reload, ↓reduceIte]
        omega

theorem start_launched : start.app.Launched :=
  ⟨start_start.app, fun _ => rfl⟩

/-- Alice's timer fires after the exchange, and the block that it queues runs. -/
def showBoth : List MLabel := [
  .press (.timerFired aliceVC) ⟨"k11", 14⟩, .press (.reloadCollection aliceVC) ⟨"k12", 15⟩]

theorem showBoth_runs :
    (exec (step (program fun _ => none)) Delivers exchanged showBoth).isSome = true := by
  decide +kernel

def bothShown : MState :=
  (exec (step (program fun _ => none)) Delivers exchanged showBoth).get showBoth_runs

theorem bothShown_reached : Reaches (step (program fun _ => none)) Delivers start bothShown :=
  exchanged_reached.trans (.of_exec (Option.some_get _).symm)

theorem reloads_bothShown :
    bothShown.app.itemCount aliceVC = (bothShown.app.messagesArray aliceVC).length :=
  (reloads_of_reaches start_launched bothShown_reached).1 aliceVC rfl rfl

end FLChat.Messages
