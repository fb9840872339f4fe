import FLChat.Messages.Integrity
import FLChat.Messages.Reload

/-!
# What ends a conversation's process

`MessageVC` unwraps the session when it sends and when it uploads, the picture of a message with a
URL, three fields of every record that it reads, and scrolls to the last row of its array. Only the
first of these can fail: a record is read as it was sent (`value_of_messageRead`), a picture comes
with its URL, and a reload that is on its way has a row to scroll to. So a device is trapped exactly
where it sends while nobody is signed in (`crashes_iff`), whatever is rejected, whichever process
ends when, and whoever signs in or out.
-/

namespace FLChat.Messages

open Realtime

variable {jpegData : UIImage → Option Data} {s₀ s s' : MState} {c : Client} {id : String}

/-! ## Records are read as they were sent -/

/-- The message was sent on some device by the account that was signed in on it. -/
def WasSent (log : List MEvent) (m : Sent) : Prop := ∃ ev ∈ log, ∃ user, sentBy user ev = some m

theorem value_of_messageRead {ok : MState → MLabel → Prop} (hs : Initial s₀) (htree : s₀.tree = ∅)
    (h : Reaches (step (program jpegData)) ok s₀ s) {call : Call} {d : MessageDict}
    (hdue : Due s ⟨c, .messageRead call, .value (.messages id) (some d)⟩) :
    ∃ m : Sent, WasSent s.log m ∧ d = m.value := by
  obtain ⟨u, hu, hus, hread⟩ := reply_of_reaches hs h hdue
  have hf := Facts.of_reaches hs htree hu
  have written : ∀ {c' cb}, Issued (program jpegData) anyApp u.log c'
      (.write (.update (.messages id) d) cb) → ∃ m : Sent, WasSent s.log m ∧ d = m.value :=
    fun hi => by
      obtain ⟨m, -, he, -, ev, hev, hsent⟩ := Facts.sent_of_write hi
      exact ⟨m, ⟨ev, (log_suffix hus).mem hev, hsent⟩, he⟩
  rcases hread with ⟨-, hv⟩ | ⟨w, -, ho, -⟩
  · have hanswered : Loc.messages id ∈ u.tree → Answered u.log (.messages id) := fun hl =>
      (hf.mem_tree_iff.1 hl).answered
    rcases hf.once.lookup_view rfl hanswered hv.symm with hv | ⟨w, hw, rfl, hop⟩
    · obtain ⟨c', hr⟩ := hf.values (.messages id) d rfl hv
      obtain ⟨cb, hi⟩ := hf.origin.log _ hr
      exact written hi
    · have hi := hf.origin.writes w hw
      rw [hop] at hi
      exact written hi
  · obtain ⟨ev, -, app, -, hi⟩ := issues_in_app (hf.origin.valueObs _ ho)
    cases hi

/-! ## The crash sites -/

/-- In this step `c` sends a text, uploads a picture, or sends the picture whose URL it gets. -/
inductive SendsOn (s : MState) (c : Client) : MLabel → Prop
  | text {vc : MessageVC} {text : String} {e : Env} (hc : vc.client = c) :
    SendsOn s c (.press (.sendBtnPressed vc text) e)
  | upload {vc : MessageVC} {image : UIImage} {e : Env} (hc : vc.client = c) :
    SendsOn s c (.press (.pickImage vc image) e)
  | picture {i : ℕ} {e : Env} {vc : MessageVC} {image : UIImage} {url : DownloadURL}
    (ht : s.tasks[i]? = some ⟨c, .pictureURL vc image, .url (some url)⟩) :
    SendsOn s c (.run i e)

section Sites

variable {app : App} (hlive : app.trapped c = false)
include hlive

theorem trapped_trap {c' : Client} : (app.trap c').trapped c = true ↔ c' = c := by
  simp [App.trap, hlive, eq_comm]

theorem trapped_handleSend {c' : Client} {vc : MessageVC} {text : String}
    {url : Option DownloadURL} {img : Option UIImage} {e : Env} (himg : url.isSome → img.isSome) :
    (handleSend c' vc text url img e app).1.trapped c = true ↔
      c' = c ∧ app.currentUser c' = none := by
  unfold handleSend
  cases hu : app.currentUser c' with
  | none => simpa using trapped_trap hlive
  | some fromId =>
    cases url with
    | none => simp [hlive]
    | some url =>
      obtain ⟨img, rfl⟩ := Option.isSome_iff_exists.1 (himg rfl)
      simp [hlive]

theorem trapped_upload {vc : MessageVC} {image : UIImage} :
    (uploadToStorageUsingImage jpegData vc image app).1.trapped c = true ↔
      vc.client = c ∧ app.currentUser vc.client = none := by
  unfold uploadToStorageUsingImage
  cases hu : app.currentUser vc.client with
  | none => simpa using trapped_trap hlive
  | some uid => cases jpegData image <;> simp [hlive]

end Sites

variable (hs : Initial s₀) (htree : s₀.tree = ∅) (happ : s₀.app.Launched)
  (h : Reaches (step (program jpegData)) AnyStep s₀ s)
include hs htree happ h

omit hs htree in
theorem trapped_press {a : Action} {e : Env} {c' : Client} {app : App} {cmds : List Command}
    (hact : act jpegData a e s.app = some (c', app, cmds)) (hlive : s.app.trapped c = false) :
    app.trapped c = true ↔ s.app.currentUser c = none ∧ SendsOn s c (.press a e) := by
  have hreloads := Reloads.of_reaches happ h
  unfold act at hact
  split at hact
  · cases hact
  cases a with
  | viewDidAppear | signOut | signIn =>
    cases hact
    exact iff_of_false (by simp [hlive]) fun h => by cases h.2
  | sendBtnPressed vc text =>
    simp only at hact
    split at hact
    · cases hact
    · obtain ⟨-, hsend⟩ := Prod.mk.inj (Option.some.inj hact)
      rw [← show _ = app from congrArg Prod.fst hsend, trapped_handleSend hlive (by simp)]
      constructor
      · rintro ⟨rfl, hu⟩
        exact ⟨hu, .text rfl⟩
      · rintro ⟨hu, ⟨rfl⟩⟩
        exact ⟨rfl, hu⟩
  | pickImage vc image =>
    obtain ⟨-, hupload⟩ := Prod.mk.inj (Option.some.inj hact)
    rw [← show _ = app from congrArg Prod.fst hupload, trapped_upload hlive]
    constructor
    · rintro ⟨rfl, hu⟩
      exact ⟨hu, .upload rfl⟩
    · rintro ⟨hu, hsends⟩
      cases hsends with
      | upload hc => exact ⟨hc, hc ▸ hu⟩
  | timerFired vc =>
    simp only at hact
    split at hact <;> cases hact
    refine iff_of_false ?_ fun h => by cases h.2
    simp [handleReloadCollection, hlive]
  | reloadCollection vc =>
    simp only at hact
    split at hact
    · cases hact
    · next hb =>
      cases hact
      refine iff_of_false ?_ fun h => by cases h.2
      rw [reloadAndScroll, if_neg (hreloads.pending vc (.inr hb))]
      simp [App.reload, hlive]

omit happ in
theorem trapped_run {i : ℕ} {t : Task Loc Client Cb} {e : Env} (ht : s.tasks[i]? = some t)
    (hlive : s.app.trapped c = false) :
    (handle t.client e t.cb t.input s.app).1.trapped c = true ↔
      s.app.currentUser c = none ∧ SendsOn s c (.run i e) := by
  have other : (∀ vc image url, t ≠ ⟨c, .pictureURL vc image, .url (some url)⟩) →
      ¬ (s.app.currentUser c = none ∧ SendsOn s c (.run i e)) := by
    rintro hne ⟨-, hsends⟩
    cases hsends with
    | picture ht' => exact hne _ _ _ (Option.some.inj (ht.symm.trans ht'))
  obtain ⟨c', cb, input⟩ := t
  simp only
  unfold handle
  split
  · next hc =>
    refine iff_of_false (by simp [hlive]) (other fun vc image url he => ?_)
    cases he
    simp [hlive] at hc
  split
  · exact iff_of_false (by simp [hlive]) (other fun _ _ _ he => by cases he)
  · exact iff_of_false (by simp [hlive]) (other fun _ _ _ he => by cases he)
  · next call id value =>
    refine iff_of_false ?_ (other fun _ _ _ he => by cases he)
    cases value with
    | none => simp [messageRead, hlive]
    | some d =>
      obtain ⟨m, -, rfl⟩ := value_of_messageRead hs htree h (.inl (List.mem_of_getElem? ht))
      simp [messageRead, m.decode_value, App.deliver, hlive]
  · exact iff_of_false (by simp [hlive]) (other fun _ _ _ he => by cases he)
  · next vc image url =>
    rw [trapped_handleSend hlive (by simp)]
    constructor
    · rintro ⟨rfl, hu⟩
      exact ⟨hu, .picture ht⟩
    · rintro ⟨hu, hsends⟩
      cases hsends with
      | picture ht' =>
        cases Option.some.inj (ht.symm.trans ht')
        exact ⟨rfl, hu⟩
  · next hpicture =>
    refine iff_of_false (by simp [hlive]) (other fun vc image url he => ?_)
    cases he
    exact hpicture _ _ _ rfl rfl

/-- A device is trapped in a step exactly if it sends in it while nobody is signed in on it. -/
theorem crashes_iff {l : MLabel} (hstep : step (program jpegData) s l = some s')
    (hlive : s.app.trapped c = false) :
    s'.app.trapped c = true ↔ s.app.currentUser c = none ∧ SendsOn s c l := by
  cases transition_of_step hstep with
  | press _ hact => exact trapped_press happ h hact hlive
  | @run i e t app cmds _ ht hrun =>
    have happ' : (handle t.client e t.cb t.input s.app).1 = app := congrArg Prod.fst hrun
    rw [State.ran_app, ← happ']
    exact trapped_run hs htree h ht hlive
  | apply | reject | serve => exact iff_of_false (by simp [hlive]) fun h => by cases h.2
  | @die c' =>
    refine iff_of_false ?_ fun h => by cases h.2
    simp [die, hlive]

omit hs htree happ h

/-- Alice signs out while a conversation is open. -/
def signingOff : List MLabel := [
  .press (.viewDidAppear aliceVC) ⟨"a0", 0⟩, .press (.signOut 0) ⟨"a1", 1⟩]

theorem signingOff_runs :
    (exec (step (program fun _ => none)) AnyStep start signingOff).isSome = true := by
  decide +kernel

def signedOff : MState :=
  (exec (step (program fun _ => none)) AnyStep start signingOff).get signingOff_runs

theorem sendSignedOff_steps :
    (step (program fun _ => none) signedOff
      (.press (.sendBtnPressed aliceVC "hi") ⟨"m1", 2⟩)).isSome = true := by
  decide +kernel

theorem crashes_iff_signedOff :
    ((step (program fun _ => none) signedOff
      (.press (.sendBtnPressed aliceVC "hi") ⟨"m1", 2⟩)).get sendSignedOff_steps).app.trapped 0 =
        true ↔
      signedOff.app.currentUser 0 = none ∧
        SendsOn signedOff 0 (.press (.sendBtnPressed aliceVC "hi") ⟨"m1", 2⟩) :=
  crashes_iff start_start.initial start_start.tree start_launched
    (.of_exec (Option.some_get _).symm) (Option.some_get _).symm rfl

end FLChat.Messages
