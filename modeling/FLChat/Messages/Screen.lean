import FLChat.Messages.Records

/-!
# What a view controller shows

The arrays of the observers and the shared `messagesArray` against the replies in the log, in runs
in which everything succeeds: no client is ever trapped, the array of a call is what its replies
delivered, and the view controller shows the array of the call that delivered last.
-/

namespace FLChat.Messages

open Realtime

variable {jpegData : UIImage → Option Data}

/-- The message that an event delivers to an observer, with its id. -/
def replyOf (call : Call) : MEvent → Option (String × Message)
  | .ran ⟨_, .messageRead call', .value (.messages id) (some dict)⟩ _ =>
    if call' = call then dict.decode.map fun message => (id, message) else none
  | _ => none

/-- The replies that were delivered to an observer, in the order of their delivery. -/
def replies (call : Call) (log : List MEvent) : List (String × Message) :=
  log.reverse.filterMap (replyOf call)

theorem mem_replies {call : Call} {log : List MEvent} {x : String × Message} :
    x ∈ replies call log ↔ ∃ ev ∈ log, replyOf call ev = some x := by
  simp [replies]

theorem replies_cons (call : Call) (ev : MEvent) (log : List MEvent) :
    replies call (ev :: log) = replies call log ++ (replyOf call ev).toList := by
  unfold replies
  rw [List.reverse_cons, List.filterMap_append]
  cases h : replyOf call ev <;> simp [h]

theorem replies_cons_of_none {call : Call} {ev : MEvent} (h : replyOf call ev = none)
    (log : List MEvent) : replies call (ev :: log) = replies call log := by
  rw [replies_cons, h]
  exact List.append_nil _

/-- What the view controllers show after the events of `log`. -/
structure Screen (log : List MEvent) (app : App) : Prop where
  trapped : ∀ c, app.trapped c = false
  pending : ∀ vc, app.timer vc = true ∨ app.blocks vc ≠ 0 → app.messagesArray vc ≠ []
  messages : ∀ call, app.messages call = (replies call log).map Prod.snd
  latest : ∀ vc, (∃ call, call.vc = vc ∧ app.messagesArray vc = app.messages call ∧
      app.messages call ≠ []) ∨
    app.messagesArray vc = [] ∧ ∀ call, call.vc = vc → app.messages call = []

namespace Screen

variable {log : List MEvent} {app : App}

theorem fresh (h : app.Fresh) : Screen [] app where
  trapped := h.trapped
  pending := by simp [h.timer, h.blocks]
  messages := by simp [h.messages, replies]
  latest := fun vc => .inr ⟨h.messagesArray vc, fun call _ => h.messages call⟩

/-- An event that delivers nothing changes nothing. -/
theorem skip (h : Screen log app) {ev : MEvent} (hev : ∀ call, replyOf call ev = none) :
    Screen (ev :: log) app where
  trapped := h.trapped
  pending := h.pending
  messages := fun call => by rw [replies_cons_of_none (hev call), h.messages]
  latest := h.latest

/-- A delivered message is appended and shown. -/
theorem deliver (h : Screen log app) {ev : MEvent} {call : Call} (id : String)
    {message : Message} (hev : ∀ call', replyOf call' ev =
      if call = call' then some (id, message) else none) :
    Screen (ev :: log) (app.deliver call message) where
  trapped := h.trapped
  pending := fun vc hvc => by
    by_cases hv : vc = call.vc
    · simp [App.deliver, hv]
    · simp only [App.deliver, hv, ↓reduceIte] at hvc ⊢
      exact h.pending vc hvc
  messages := fun call' => by
    rw [replies_cons, hev]
    by_cases hc : call = call'
    · simp [App.deliver, hc, h.messages]
    · have hc' : call' ≠ call := fun e => hc e.symm
      simp [App.deliver, hc, hc', h.messages]
  latest := fun vc => by
    by_cases hv : vc = call.vc
    · refine .inl ⟨call, hv.symm, ?_⟩
      simp [App.deliver, hv]
    · -- another view controller has other calls
      have other : ∀ call', call'.vc = vc →
          (app.deliver call message).messages call' = app.messages call' := by
        rintro call' rfl
        have hc : call' ≠ call := fun e => hv (congrArg Call.vc e)
        simp [App.deliver, hc]
      have harr : (app.deliver call message).messagesArray vc = app.messagesArray vc := by
        simp [App.deliver, hv]
      rw [harr]
      refine (h.latest vc).imp (fun ⟨call', hvc, hl⟩ => ⟨call', hvc, ?_⟩)
        (fun ⟨h₀, hl⟩ => ⟨h₀, fun call' hvc => ?_⟩)
      · rwa [other call' hvc]
      · rw [other call' hvc]
        exact hl call' hvc

/-- Sending changes nothing on a client that is signed in. -/
theorem handleSend_app {c : Client} {vc : MessageVC} {text : String} {url : Option DownloadURL}
    {img : Option UIImage} {e : Env} (hc : (app.currentUser c).isSome)
    (himg : url.isSome → img.isSome) : (handleSend c vc text url img e app).1 = app := by
  obtain ⟨u, hu⟩ := Option.isSome_iff_exists.1 hc
  unfold handleSend
  rw [hu]
  cases url with
  | none => rfl
  | some url =>
    obtain ⟨i, rfl⟩ := Option.isSome_iff_exists.1 (himg rfl)
    rfl

/-- A press on a client that is signed in. -/
theorem act (h : Screen log app) {a : Action} {e : Env} {c : Client} {app' : App}
    {cmds : List Command} (hact : Messages.act jpegData a e app = some (c, app', cmds))
    (hc : (app.currentUser a.client).isSome) : Screen (.pressed a e :: log) app' := by
  have hskip : Screen (.pressed a e :: log) app := h.skip fun _ => rfl
  unfold Messages.act at hact
  split at hact
  · cases hact
  cases a with
  | viewDidAppear vc =>
    cases hact
    exact hskip
  | sendBtnPressed vc text =>
    simp only at hact
    split at hact
    · cases hact
    · obtain ⟨-, hsend⟩ := Prod.mk.inj (Option.some.inj hact)
      obtain rfl : app = app' := by
        have : (handleSend vc.client vc text none none e app).1 = app :=
          handleSend_app hc (by simp)
        rw [← this, hsend]
      exact hskip
  | pickImage vc image =>
    obtain ⟨u, hu⟩ := Option.isSome_iff_exists.1 hc
    have hu : app.currentUser vc.client = some u := hu
    obtain ⟨-, hupload⟩ := Prod.mk.inj (Option.some.inj hact)
    obtain rfl : app = app' := by
      have := congrArg Prod.fst hupload
      unfold uploadToStorageUsingImage at this
      rw [hu] at this
      cases hd : jpegData image <;> simpa [hd] using this
    exact hskip
  | timerFired vc =>
    simp only at hact
    split at hact
    · next ht =>
      cases hact
      refine ⟨hskip.trapped, fun vc' hvc => ?_, hskip.messages, hskip.latest⟩
      by_cases hv : vc' = vc
      · exact hv ▸ h.pending vc (.inl ht)
      · simp only [handleReloadCollection, hv, ↓reduceIte] at hvc
        exact h.pending vc' hvc
    · cases hact
  | reloadCollection vc =>
    simp only at hact
    split at hact
    · cases hact
    · next hb =>
      -- a reload is queued only after something was delivered
      have hne := h.pending vc (.inr hb)
      cases hact
      unfold reloadAndScroll
      rw [if_neg hne]
      refine ⟨hskip.trapped, fun vc' hvc => ?_, hskip.messages, hskip.latest⟩
      by_cases hv : vc' = vc
      · exact hv ▸ hne
      · simp only [App.reload, hv, ↓reduceIte] at hvc
        exact h.pending vc' hvc
  | signOut c =>
    cases hact
    exact ⟨hskip.trapped, hskip.pending, hskip.messages, hskip.latest⟩
  | signIn c uid =>
    cases hact
    exact ⟨hskip.trapped, hskip.pending, hskip.messages, hskip.latest⟩

/-- A callback, when a picture is sent by a client that is signed in and every record that is read
is the record of a message. -/
theorem handle (h : Screen log app) (c : Client) (e : Env) (cb : Cb) (input : Input Loc)
    (hsend : ∀ vc img url, cb = .pictureURL vc img → input = .url url →
      (app.currentUser c).isSome)
    (hread : ∀ call l v, cb = .messageRead call → input = .value l v →
      ∃ m : Sent, (⟨l, v⟩ : (l : Loc) × Option (Val l)) = ⟨.messages m.id, some m.value⟩) :
    Screen (.ran ⟨c, cb, input⟩ e :: log) (Messages.handle c e cb input app).1 := by
  unfold Messages.handle
  rw [if_neg (by simp [h.trapped c])]
  split
  · exact h.skip fun _ => rfl
  · exact h.skip fun _ => rfl
  · next call id value =>
    obtain ⟨m, he⟩ := hread call _ _ rfl rfl
    cases he
    simp only [messageRead, Sent.decode_value]
    exact h.deliver m.id fun call' => by simp [replyOf, Sent.decode_value]
  · exact h.skip fun _ => rfl
  · next vc img url =>
    rw [handleSend_app (hsend vc img _ rfl rfl) fun _ => rfl]
    exact h.skip fun _ => rfl
  · rename_i h₁ h₂ hread' h₄ h₅
    refine h.skip fun call => ?_
    unfold replyOf
    split
    · next he =>
      cases he
      exact (hread' _ _ _ rfl rfl).elim
    · rfl

end Screen

end FLChat.Messages
