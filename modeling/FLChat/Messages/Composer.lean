import FLChat.Messages.Integrity
import FLChat.Realtime.FrontEnd

/-!
# The text field and the send button

The conversations take a press of the send button together with its text, over which the button is
enabled. Here is how `MessageVC` gets there: the button is disabled when the view has appeared, an
edit of the text field enables it exactly over a text, and a press sends what the field holds, clears
it and disables the button. A picture leaves both alone, and appearing again, as after the picker was
dismissed, disables the button over the text that is still there.

This is a front end of the conversations (`frontEnd`), so what holds of these holds of what is
typed: a press sends the text that the last edit left (`sent_as_typed`), once, and where nothing
fails it arrives (`typed_arrives`).
-/

namespace FLChat.Messages

open Realtime

/-- The text field and the send button of a view controller that has appeared. -/
structure Composer where
  userTextMessage : String
  isEnabled : Bool
  sendable : isEnabled = true → userTextMessage ≠ ""

namespace Composer

/-- `sendBtn.isEnabled = false`. -/
def disabled (text : String) : Composer := ⟨text, false, fun h => Bool.noConfusion h⟩

def textFieldDidChanged (text : String) : Composer := ⟨text, decide (text ≠ ""), of_decide_eq_true⟩

inductive Action
  | viewDidAppear (vc : MessageVC)
  | textFieldDidChanged (vc : MessageVC) (text : String)
  | sendBtnPressed (vc : MessageVC)
  | pickImage (vc : MessageVC) (image : UIImage)
  | timerFired (vc : MessageVC)
  | reloadCollection (vc : MessageVC)
  | signOut (c : Client)
  | signIn (c : Client) (uid : UID)

def Action.client : Action → Client
  | .viewDidAppear vc | .textFieldDidChanged vc _ | .sendBtnPressed vc | .pickImage vc _
  | .timerFired vc | .reloadCollection vc => vc.client
  | .signOut c | .signIn c _ => c

structure App where
  chat : Messages.App
  composer : MessageVC → Option Composer

def App.compose (app : App) (vc : MessageVC) (composer : Composer) : App :=
  { app with composer := Function.update app.composer vc (some composer) }

/-- A press that the conversations take as it is. -/
def passOn (jpegData : UIImage → Option Data) (a : Messages.Action) (e : Env) (app : App) :
    Option (Client × App × List Command) :=
  (Messages.act jpegData a e app.chat).map fun (c, chat, cmds) => (c, { app with chat }, cmds)

/-- A press. A view takes no touches before it has appeared. -/
def act (jpegData : UIImage → Option Data) (a : Action) (e : Env) (app : App) :
    Option (Client × App × List Command) :=
  if app.chat.trapped a.client then none
  else match a with
  | .viewDidAppear vc =>
    some (vc.client,
      app.compose vc (.disabled ((app.composer vc).elim "" Composer.userTextMessage)),
      observUserMessages vc e app.chat)
  | .textFieldDidChanged vc text =>
    (app.composer vc).map fun _ => (vc.client, app.compose vc (.textFieldDidChanged text), [])
  | .sendBtnPressed vc =>
    match app.composer vc with
    | none => none
    | some composer =>
      if composer.isEnabled then
        let (chat, cmds) :=
          handleSend vc.client vc composer.userTextMessage none none e app.chat
        some (vc.client, { app with chat }.compose vc (.disabled ""), cmds)
      else none
  | .pickImage vc image => passOn jpegData (.pickImage vc image) e app
  | .timerFired vc => passOn jpegData (.timerFired vc) e app
  | .reloadCollection vc => passOn jpegData (.reloadCollection vc) e app
  | .signOut c => passOn jpegData (.signOut c) e app
  | .signIn c uid => passOn jpegData (.signIn c uid) e app

def handle (c : Client) (e : Env) (cb : Cb) (input : Input Loc) (app : App) :
    App × List Command :=
  let (chat, cmds) := Messages.handle c e cb input app.chat
  ({ app with chat }, cmds)

def die (c : Client) (app : App) : App where
  chat := Messages.die c app.chat
  composer vc := if vc.client = c then none else app.composer vc

@[simps] def program (jpegData : UIImage → Option Data) :
    Program Loc Client Cb Data App Action where
  act := act jpegData
  handle := handle
  die := die

abbrev CState := State Loc Client Cb Data App Action

abbrev CEvent := Event Loc Client Cb Data Action

abbrev CLabel := Label Client Action

/-! ## What the text field holds -/

/-- What an event does to the composer of `vc`. -/
def react (vc : MessageVC) : CEvent → Option Composer → Option Composer
  | .pressed (.viewDidAppear vc') _, composer =>
    if vc' = vc then some (.disabled (composer.elim "" Composer.userTextMessage)) else composer
  | .pressed (.textFieldDidChanged vc' text) _, composer =>
    if vc' = vc then some (.textFieldDidChanged text) else composer
  | .pressed (.sendBtnPressed vc') _, composer =>
    if vc' = vc then some (.disabled "") else composer
  | .died c, composer => if vc.client = c then none else composer
  | _, composer => composer

/-- The composer of `vc` after what happened. -/
def after (vc : MessageVC) (log : List CEvent) : Option Composer := log.foldr (react vc) none

/-- The event is one of the composer of `vc`. -/
def Touches (vc : MessageVC) : CEvent → Prop
  | .pressed (.viewDidAppear vc') _ | .pressed (.textFieldDidChanged vc' _) _
  | .pressed (.sendBtnPressed vc') _ => vc' = vc
  | .died c => vc.client = c
  | _ => False

/-- Nothing else has happened to the composer of `vc` since an edit left `text` in it. -/
def Typed (vc : MessageVC) (text : String) (log : List CEvent) : Prop :=
  ∃ since e before, log = since ++ .pressed (.textFieldDidChanged vc text) e :: before ∧
    ∀ ev ∈ since, ¬ Touches vc ev

variable {vc : MessageVC} {log : List CEvent} {composer : Composer}

theorem react_of_not_touches {ev : CEvent} (h : ¬ Touches vc ev) (composer : Option Composer) :
    react vc ev composer = composer := by
  cases ev with
  | pressed a e => cases a <;> first | exact if_neg h | rfl
  | died c => exact if_neg h
  | ran | resolved | served => rfl

/-- An enabled button is over the text that was typed last. -/
theorem typed_of_enabled (h : after vc log = some composer) (henabled : composer.isEnabled = true) :
    Typed vc composer.userTextMessage log := by
  induction log with
  | nil => cases h
  | cons ev log ih =>
    by_cases ht : Touches vc ev
    · cases ev with
      | pressed a e =>
        cases a with
        | textFieldDidChanged vc' text =>
          obtain rfl : vc' = vc := ht
          obtain rfl : Composer.textFieldDidChanged text = composer :=
            Option.some.inj ((if_pos rfl).symm.trans h)
          exact ⟨[], e, log, rfl, by simp⟩
        | viewDidAppear vc' | sendBtnPressed vc' =>
          obtain rfl : vc' = vc := ht
          cases Option.some.inj ((if_pos rfl).symm.trans h)
          cases henabled
        | pickImage | timerFired | reloadCollection | signOut | signIn => cases ht
      | died c => cases (if_pos ht).symm.trans h
      | ran | resolved | served => cases ht
    · obtain ⟨since, e, before, rfl, hsince⟩ := ih ((react_of_not_touches ht _).symm.trans h)
      refine ⟨ev :: since, e, before, rfl, fun ev' hev' => ?_⟩
      rcases List.mem_cons.1 hev' with rfl | hev'
      · exact ht
      · exact hsince ev' hev'

/-! ## Conversations of what was typed -/

variable {jpegData : UIImage → Option Data}

/-- What a press asks of the conversations, by what happened before it. -/
def press (log : List CEvent) : Action → Option Messages.Action
  | .viewDidAppear vc => some (.viewDidAppear vc)
  | .textFieldDidChanged .. => none
  | .sendBtnPressed vc =>
    (after vc log).map fun composer => .sendBtnPressed vc composer.userTextMessage
  | .pickImage vc image => some (.pickImage vc image)
  | .timerFired vc => some (.timerFired vc)
  | .reloadCollection vc => some (.reloadCollection vc)
  | .signOut c => some (.signOut c)
  | .signIn c uid => some (.signIn c uid)

/-- Every view controller holds what its events left. -/
def Agrees (app : App) (log : List CEvent) : Prop := ∀ vc, app.composer vc = after vc log

/-- A button that was pressed was enabled. -/
theorem enabled_of_send {e : Env} {app app' : App} {c : Client} {cmds : List Command}
    (h : act jpegData (.sendBtnPressed vc) e app = some (c, app', cmds)) :
    app.chat.trapped vc.client = false ∧ ∃ composer, app.composer vc = some composer ∧
      composer.isEnabled = true ∧ c = vc.client ∧
        ∃ chat, handleSend vc.client vc composer.userTextMessage none none e app.chat = (chat, cmds) ∧
          app' = { app with chat }.compose vc (.disabled "") := by
  unfold act at h
  split at h
  · cases h
  · next htrapped =>
    refine ⟨Bool.eq_false_iff.2 htrapped, ?_⟩
    simp only at h
    split at h
    · cases h
    · next composer hcomposer =>
      split at h
      · next henabled =>
        cases h
        exact ⟨composer, hcomposer, henabled, rfl, _, rfl, rfl⟩
      · cases h

theorem act_of_passOn {a : Messages.Action} {e : Env} {app app' : App} {c : Client}
    {cmds : List Command} (h : passOn jpegData a e app = some (c, app', cmds)) :
    Messages.act jpegData a e app.chat = some (c, app'.chat, cmds) ∧ app'.composer = app.composer := by
  obtain ⟨⟨c', chat, cmds'⟩, hact, he⟩ := Option.map_eq_some_iff.1 h
  cases he
  exact ⟨hact, rfl⟩

theorem composer_compose (app : App) (vc vc' : MessageVC) (composer : Composer) :
    (app.compose vc composer).composer vc' =
      if vc = vc' then some composer else app.composer vc' := by
  by_cases h : vc = vc'
  · subst h
    simp [App.compose]
  · simp [App.compose, Function.update_of_ne (Ne.symm h), h]

/-- A press keeps track of the composers, and it is what `press` says it is. -/
theorem act_spec {a : Action} {e : Env} {app app' : App} {c : Client} {cmds : List Command}
    (hagrees : Agrees app log) (h : act jpegData a e app = some (c, app', cmds)) :
    Agrees app' (.pressed a e :: log) ∧
      (∀ b, press log a = some b → Messages.act jpegData b e app.chat = some (c, app'.chat, cmds)) ∧
        (press log a = none → cmds = [] ∧ app'.chat = app.chat) := by
  cases a with
  | viewDidAppear vc =>
    unfold act at h
    split at h
    · cases h
    · next htrapped =>
      cases h
      refine ⟨fun vc' => ?_, fun b hb => ?_, fun hb => by cases hb⟩
      · rw [composer_compose, hagrees, hagrees]
        by_cases hvc : vc = vc'
        · subst hvc
          rfl
        · simp [after, react, hvc]
      · cases hb
        exact if_neg htrapped
  | textFieldDidChanged vc text =>
    unfold act at h
    split at h
    · cases h
    · obtain ⟨composer, -, he⟩ := Option.map_eq_some_iff.1 h
      cases he
      refine ⟨fun vc' => ?_, fun b hb => (by cases hb), fun _ => ⟨rfl, rfl⟩⟩
      rw [composer_compose, hagrees]
      rfl
  | sendBtnPressed vc =>
    obtain ⟨htrapped, composer, hcomposer, henabled, rfl, chat, hsend, rfl⟩ := enabled_of_send h
    have hpress : press log (.sendBtnPressed vc) =
        some (.sendBtnPressed vc composer.userTextMessage) := by
      rw [press, ← hagrees vc, hcomposer]
      rfl
    refine ⟨fun vc' => ?_, fun b hb => ?_, fun hb => by cases hpress.symm.trans hb⟩
    · rw [composer_compose]
      exact congrArg (fun k => if vc = vc' then some (disabled "") else k) (hagrees vc')
    · cases hpress.symm.trans hb
      simp only [Messages.act, Messages.Action.client, htrapped, Bool.false_eq_true, if_false,
        if_neg (composer.sendable henabled), hsend]
      rfl
  | pickImage | timerFired | reloadCollection | signOut | signIn =>
    unfold act at h
    split at h
    · cases h
    · obtain ⟨hact, hcomposer⟩ := act_of_passOn h
      refine ⟨fun vc => (congrFun hcomposer vc).trans (hagrees vc), fun b hb => ?_,
        fun hb => by cases hb⟩
      cases hb
      exact hact

/-- The composers are a front end of the conversations. -/
def frontEnd (jpegData : UIImage → Option Data) :
    FrontEnd (program jpegData) (Messages.program jpegData) where
  app := App.chat
  press := press
  Agrees := Agrees
  act hagrees hact := (act_spec hagrees hact).2.1
  own hagrees hact := (act_spec hagrees hact).2.2
  handle hrun := by
    cases hrun
    rfl
  die _ _ := rfl
  agrees_pressed hagrees hact := (act_spec hagrees hact).1
  agrees_ran hagrees hrun := by
    cases hrun
    exact hagrees
  agrees_resolved _ _ _ hagrees := hagrees
  agrees_served _ _ _ hagrees := hagrees
  agrees_died c hagrees vc := congrArg (fun k => if vc.client = c then none else k) (hagrees vc)

/-! ## Runs -/

variable {s₀ s : CState}

/-- The state as the conversations have it. -/
def conversations (s : CState) : MState where
  tree := s.tree
  objects := s.objects
  writes := s.writes
  asks := s.asks
  tasks := s.tasks
  childObs := s.childObs
  valueObs := s.valueObs
  issued := s.issued
  log := []
  app := s.app.chat

/-- Nothing has been sent yet, and no view has appeared. -/
structure Start (s₀ : CState) : Prop where
  chat : Messages.Start (conversations s₀)
  log : s₀.log = []
  composer : ∀ vc, s₀.app.composer vc = none

theorem Start.shows (hs : Start s₀) : (frontEnd jpegData).Shows s₀ (conversations s₀) where
  tree := rfl
  objects := rfl
  writes := rfl
  asks := rfl
  tasks := rfl
  childObs := rfl
  valueObs := rfl
  issued := fun _ => id
  log := by rw [hs.log]; rfl
  app := rfl
  agrees vc := by rw [hs.composer, hs.log]; rfl

/-- The steps of any run. -/
def AnyStep (_ : CState) (_ : CLabel) : Prop := True

/-- What happens over text fields and buttons is what can happen to conversations whose presses come
with a text, whatever is rejected, whichever process ends when, and whoever signs in or out. -/
theorem reaches_conversations (hs : Start s₀) (h : Reaches (step (program jpegData)) AnyStep s₀ s) :
    ∃ s', Reaches (step (Messages.program jpegData)) Messages.AnyStep (conversations s₀) s' ∧
      (frontEnd jpegData).Shows s s' :=
  FrontEnd.reaches (fun _ _ _ _ _ _ _ => trivial) hs.shows h

theorem agrees_of_reaches (hs : Start s₀)
    (h : Reaches (step (program jpegData)) AnyStep s₀ s) : Agrees s.app s.log := by
  have hok : ∀ (t : CState) (t' : MState) (l : CLabel) (l' : MLabel),
      (frontEnd jpegData).Shows t t' → AnyStep t l →
        (frontEnd jpegData).label t.log l = some l' → Messages.AnyStep t' l' :=
    fun _ _ _ _ _ _ _ => trivial
  obtain ⟨s', -, hshows⟩ := FrontEnd.reaches hok hs.shows h
  exact hshows.agrees

/-- A press of the send button was over an enabled button. -/
theorem enabled_of_reaches (hs : Start s₀) (h : Reaches (step (program jpegData)) AnyStep s₀ s)
    {since before : List CEvent} {e : Env}
    (hlog : s.log = since ++ .pressed (.sendBtnPressed vc) e :: before) :
    ∃ composer, after vc before = some composer ∧ composer.isEnabled = true := by
  refine h.invariant_of_reached
    (I := fun s => ∀ since, s.log = since ++ .pressed (.sendBtnPressed vc) e :: before →
      ∃ composer, after vc before = some composer ∧ composer.isEnabled = true)
    (fun since hlog => ?_) (fun {t l u} ht ih _ hstep since hlog => ?_) since hlog
  · rw [hs.log] at hlog
    exact absurd hlog.symm (List.append_ne_nil_of_right_ne_nil _ (List.cons_ne_nil _ _))
  · have hstep := transition_of_step hstep
    cases since with
    | cons ev since =>
      obtain ⟨ev', hev'⟩ := hstep.log_cons
      rw [hev'] at hlog
      exact ih since (List.cons.inj hlog).2
    | nil =>
      have hagrees := agrees_of_reaches hs ht
      cases hstep with
      | press hkey hact =>
        obtain ⟨he, rfl⟩ := List.cons.inj hlog
        cases he
        rw [program_act] at hact
        obtain ⟨-, composer, hcomposer, henabled, -⟩ := enabled_of_send hact
        exact ⟨composer, (hagrees vc).symm.trans hcomposer, henabled⟩
      | run | apply | reject | serve | die => cases (List.cons.inj hlog).1

/-- A press of the send button sends the text that was typed last, which no press before it has
sent. -/
theorem sent_as_typed (hs : Start s₀) (h : Reaches (step (program jpegData)) AnyStep s₀ s)
    {since before : List CEvent} {e : Env}
    (hlog : s.log = since ++ .pressed (.sendBtnPressed vc) e :: before) :
    ∃ text, text ≠ "" ∧ Typed vc text before ∧
      .pressed (.sendBtnPressed vc text) e ∈ (frontEnd jpegData).shown s.log := by
  obtain ⟨composer, hafter, henabled⟩ := enabled_of_reaches hs h hlog
  refine ⟨composer.userTextMessage, composer.sendable henabled, typed_of_enabled hafter henabled, ?_⟩
  rw [hlog]
  refine FrontEnd.mem_shown _ ?_
  change (after vc before).map _ = _
  rw [hafter]
  rfl

/-- Between two presses of the send button there is an edit: no text is sent twice. -/
theorem edit_between_sends (hs : Start s₀)
    (h : Reaches (step (program jpegData)) AnyStep s₀ s) {since between before : List CEvent}
    {e e' : Env} (hlog : s.log = since ++ .pressed (.sendBtnPressed vc) e ::
      (between ++ .pressed (.sendBtnPressed vc) e' :: before)) :
    ∃ text e, text ≠ "" ∧ .pressed (.textFieldDidChanged vc text) e ∈ between := by
  obtain ⟨text, hne, ⟨since', e'', before', hsplit, huntouched⟩, -⟩ := sent_as_typed hs h hlog
  refine ⟨text, e'', hne, ?_⟩
  rcases List.append_eq_append_iff.1 hsplit with ⟨as, hsince, hrest⟩ | ⟨as, hbetween, hrest⟩
  · -- the edit is not before the first press, which it would not have survived
    cases as with
    | nil => cases (List.cons.inj hrest).1
    | cons ev as =>
      obtain rfl := (List.cons.inj hrest).1
      have htouches : Touches vc (.pressed (.sendBtnPressed vc) e') := rfl
      exact absurd htouches (huntouched _ (hsince ▸ List.mem_append_right _ List.mem_cons_self))
  · cases as with
    | nil => cases (List.cons.inj hrest).1
    | cons ev as =>
      obtain rfl := (List.cons.inj hrest).1
      exact hbetween ▸ List.mem_append_right _ List.mem_cons_self

/-! ## Delivery -/

/-- The steps of a run in which nothing fails. -/
def Delivers (s : CState) : CLabel → Prop
  | .press (.signOut _) _ | .press (.signIn ..) _ => False
  | .press a _ => (s.app.chat.currentUser a.client).isSome
  | .run _ _ | .serve _ _ => True
  | .commit _ ok => ok = true
  | .die _ => False

theorem Delivers.label {s' : MState} {l : CLabel} {l' : MLabel}
    (hshows : (frontEnd jpegData).Shows s s') (h : Delivers s l)
    (hl : (frontEnd jpegData).label s.log l = some l') : Messages.Delivers s' l' := by
  cases l with
  | press a e =>
    obtain ⟨b, hb, rfl⟩ := Option.map_eq_some_iff.1 hl
    have happ : s'.app = s.app.chat := hshows.app
    cases a with
    | viewDidAppear | pickImage | timerFired | reloadCollection =>
      cases hb
      exact ⟨rfl, happ ▸ h⟩
    | textFieldDidChanged => cases hb
    | sendBtnPressed =>
      obtain ⟨composer, -, rfl⟩ := Option.map_eq_some_iff.1 hb
      exact ⟨rfl, happ ▸ h⟩
    | signOut | signIn => cases h
  | run | serve =>
    cases hl
    trivial
  | commit =>
    cases hl
    exact h
  | die => cases h

/-- Where nothing fails, the text that was typed last before a press of the send button arrives, at
the sender and at the recipient, in every view controller of their conversation that appeared before
or after it. -/
theorem typed_arrives (hs : Start s₀) (h : Reaches (step (program jpegData)) Delivers s₀ s)
    (hq : s.Quiescent) {since before : List CEvent} {e : Env}
    (hlog : s.log = since ++ .pressed (.sendBtnPressed vc) e :: before) {vc' : MessageVC} {e' : Env}
    (hev : .pressed (.viewDidAppear vc') e' ∈ s.log) {uid uid' : UID}
    (hu : s₀.app.chat.currentUser vc.client = some uid)
    (hu' : s₀.app.chat.currentUser vc'.client = some uid')
    (hbetween : uid = uid' ∧ vc.uid = vc'.uid ∨ uid = vc'.uid ∧ vc.uid = uid') :
    ∃ text, text ≠ "" ∧ Typed vc text before ∧
      { fromId := some uid, toId := some vc.uid, timeStamp := some e.now, message := some text } ∈
        s.app.chat.messages ⟨vc', e'.key⟩ := by
  obtain ⟨s', hrun, hshows⟩ := FrontEnd.reaches
    (fun _ _ _ _ hshows hl hlabel => Delivers.label hshows hl hlabel) hs.shows h
  obtain ⟨text, hne, htyped, hsent⟩ := sent_as_typed hs (h.mono fun _ _ _ => trivial) hlog
  refine ⟨text, hne, htyped, ?_⟩
  have hev' : .pressed (.viewDidAppear vc') e' ∈ s'.log := by
    obtain ⟨since, before, hsplit⟩ := List.append_of_mem hev
    rw [hshows.log, hsplit]
    exact FrontEnd.mem_shown _ rfl
  have hperm := messages_perm_conversation hs.chat hrun (hshows.quiescent hq) hev' hu'
  have happ : s'.app = s.app.chat := hshows.app
  rw [← happ]
  refine hperm.mem_iff.2 (List.mem_map.2 ⟨⟨e.key, uid, vc.uid, e.now, .text text⟩, ?_, rfl⟩)
  refine mem_conversation.2 ⟨mem_sentMessages.2 ⟨_, hshows.log ▸ hsent, ?_⟩, hbetween⟩
  change ((conversations s₀).app.currentUser vc.client).map _ = _
  rw [show (conversations s₀).app.currentUser vc.client = some uid from hu]
  rfl

/-! ## A message that is typed -/

instance (s : CState) : DecidablePred (Delivers s)
  | .press (.signOut _) _ | .press (.signIn ..) _ | .die _ => isFalse id
  | .press (.viewDidAppear _) _ | .press (.textFieldDidChanged ..) _ | .press (.sendBtnPressed _) _
  | .press (.pickImage ..) _ | .press (.timerFired _) _ | .press (.reloadCollection _) _ =>
    inferInstanceAs (Decidable ((_ : Option UID).isSome = true))
  | .run _ _ | .serve _ _ => isTrue trivial
  | .commit _ ok => inferInstanceAs (Decidable (ok = true))

/-- Alice and Bob on a device each, with nothing on the screen yet. -/
def start : CState where
  tree := ∅
  objects := fun _ => none
  writes := []
  asks := []
  tasks := []
  childObs := []
  valueObs := []
  issued := []
  log := []
  app := ⟨Messages.start.app, fun _ => none⟩

theorem start_start : Start start where
  chat := Messages.start_start
  log := rfl
  composer _ := rfl

/-- Alice types a text letter by letter and sends it to Bob, who has their conversation open, and
then another one. -/
def typing : List CLabel := [
  .press (.viewDidAppear aliceVC) ⟨"a0", 0⟩, .serve 0 true,
  .press (.viewDidAppear bobVC) ⟨"b0", 1⟩, .serve 0 true,
  .press (.textFieldDidChanged aliceVC "h") ⟨"t1", 2⟩,
  .press (.textFieldDidChanged aliceVC "hi") ⟨"t2", 3⟩,
  .press (.sendBtnPressed aliceVC) ⟨"m1", 4⟩,
  .press (.textFieldDidChanged aliceVC "!") ⟨"t3", 5⟩,
  .press (.sendBtnPressed aliceVC) ⟨"m2", 6⟩, .commit 0 true, .commit 0 true,
  .run 0 ⟨"k1", 7⟩, .run 0 ⟨"k2", 8⟩,
  .commit 0 true, .commit 0 true, .commit 0 true, .commit 0 true,
  .run 0 ⟨"k3", 9⟩, .run 0 ⟨"k4", 10⟩, .run 0 ⟨"k5", 11⟩, .run 0 ⟨"k6", 12⟩,
  .serve 0 true, .serve 0 true, .serve 0 true, .serve 0 true,
  .run 0 ⟨"k7", 13⟩, .run 0 ⟨"k8", 14⟩, .run 0 ⟨"k9", 15⟩, .run 0 ⟨"k10", 16⟩]

theorem typing_runs :
    (exec (step (program fun _ => none)) Delivers start typing).isSome = true := by
  decide +kernel

/-- The state in which both messages have arrived. -/
def typed : CState := (exec (step (program fun _ => none)) Delivers start typing).get typing_runs

theorem typed_reached : Reaches (step (program fun _ => none)) Delivers start typed :=
  .of_exec (Option.some_get _).symm

theorem reaches_conversations_typed :
    ∃ s', Reaches (step (Messages.program fun _ => none)) Messages.AnyStep (conversations start) s' ∧
      (frontEnd fun _ => none).Shows typed s' :=
  reaches_conversations start_start (typed_reached.mono fun _ _ _ => trivial)

theorem edit_between_sends_typed :
    ∃ text e, text ≠ "" ∧
      .pressed (.textFieldDidChanged aliceVC text) e ∈ (typed.log.drop 21).take 1 :=
  edit_between_sends start_start (typed_reached.mono fun _ _ _ => trivial)
    (show typed.log = typed.log.take 20 ++ .pressed (.sendBtnPressed aliceVC) ⟨"m2", 6⟩ ::
      ((typed.log.drop 21).take 1 ++
        .pressed (.sendBtnPressed aliceVC) ⟨"m1", 4⟩ :: typed.log.drop 23) from rfl)

theorem typed_arrives_typed :
    ∃ text, text ≠ "" ∧ Typed aliceVC text (typed.log.drop 23) ∧
      { fromId := some "alice", toId := some "bob", timeStamp := some 4, message := some text } ∈
        typed.app.chat.messages ⟨bobVC, "b0"⟩ :=
  typed_arrives start_start typed_reached ⟨rfl, rfl, rfl⟩
    (show typed.log = typed.log.take 22 ++ .pressed (.sendBtnPressed aliceVC) ⟨"m1", 4⟩ ::
      typed.log.drop 23 from rfl)
    (show .pressed (.viewDidAppear bobVC) ⟨"b0", 1⟩ ∈ typed.log from
      List.mem_of_getElem? (i := 26) rfl) rfl rfl (.inr ⟨rfl, rfl⟩)

end Composer

end FLChat.Messages
