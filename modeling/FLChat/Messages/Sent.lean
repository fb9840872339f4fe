import FLChat.Messages.Model
import FLChat.Realtime.Progress

/-!
# What was sent

A message is sent in the step that draws its key: a press of the send button, or the reply with the
download URL of its picture. `Issues` says which step of a run issues which command. From it and the
history of the backend follows what the tree may hold: every record is the one its step wrote, and
an index entry stands only next to its record.

Everything here is about runs in which nobody signs in or out, over `user`, the account of each
device.
-/

namespace FLChat.Messages

open Realtime

/-! ## Messages -/

inductive Content
  | text (message : String)
  | picture (url : DownloadURL) (width height : ℕ)
  deriving DecidableEq

/-- A message as it was sent. -/
structure Sent where
  id : String
  fromId : UID
  toId : UID
  timeStamp : ℕ
  content : Content
  deriving DecidableEq

namespace Sent

/-- The record that is stored. -/
def value (m : Sent) : MessageDict :=
  match m.content with
  | .text message => textValue m.fromId m.toId m.timeStamp message
  | .picture url width height => {
      fromId := some m.fromId, toId := some m.toId, timeStamp := some m.timeStamp,
      imageUrl := some url, imageWidth := some width, imageHeight := some height }

/-- The message as the other side should show it: a text without an image, or an image with its
size and without a text. -/
def message (m : Sent) : Message :=
  match m.content with
  | .text message => {
      fromId := some m.fromId, toId := some m.toId, timeStamp := some m.timeStamp,
      message := some message }
  | .picture url width height => {
      fromId := some m.fromId, toId := some m.toId, timeStamp := some m.timeStamp,
      image := some url, imageWidth := some width, imageHeight := some height }

/-- The message belongs to the conversation of `u` and `v`. -/
def Between (u v : UID) (m : Sent) : Prop :=
  m.fromId = u ∧ m.toId = v ∨ m.fromId = v ∧ m.toId = u

instance (u v : UID) : DecidablePred (Between u v) := fun _ => inferInstanceAs (Decidable (_ ∨ _))

theorem Between.symm {u v : UID} {m : Sent} (h : m.Between u v) : m.Between v u := Or.symm h

theorem decode_value (m : Sent) : m.value.decode = some m.message := by
  obtain ⟨id, fromId, toId, timeStamp, content⟩ := m
  cases content <;> rfl

end Sent

theorem MessageDict.updateChildValues_self (d : MessageDict) : d.updateChildValues d = d := by
  obtain ⟨a, b, c, d, e, f, g⟩ := d
  simp [updateChildValues]

/-- The message that an event sends. -/
def sentBy (user : Client → Option UID) : MEvent → Option Sent
  | .pressed (.sendBtnPressed vc text) e =>
    (user vc.client).map fun fromId => ⟨e.key, fromId, vc.uid, e.now, .text text⟩
  | .ran ⟨c, .pictureURL vc img, .url (some url)⟩ e =>
    (user c).map fun fromId => ⟨e.key, fromId, vc.uid, e.now, .picture url img.width img.height⟩
  | _ => none

def sentMessages (user : Client → Option UID) (log : List MEvent) : List Sent :=
  log.filterMap (sentBy user)

/-- The messages sent between `u` and `v`. -/
def conversation (user : Client → Option UID) (log : List MEvent) (u v : UID) : List Sent :=
  (sentMessages user log).filter (Sent.Between u v)

theorem mem_sentMessages {user : Client → Option UID} {log : List MEvent} {m : Sent} :
    m ∈ sentMessages user log ↔ ∃ ev ∈ log, sentBy user ev = some m := List.mem_filterMap

theorem mem_conversation {user : Client → Option UID} {log : List MEvent} {u v : UID} {m : Sent} :
    m ∈ conversation user log u v ↔ m ∈ sentMessages user log ∧ m.Between u v := by
  simp [conversation]

theorem key_of_sentBy {user : Client → Option UID} {ev : MEvent} {m : Sent}
    (h : sentBy user ev = some m) : ev.key? = some m.id := by
  unfold sentBy at h
  split at h
  · obtain ⟨u, -, rfl⟩ := Option.map_eq_some_iff.1 h
    rfl
  · obtain ⟨u, -, rfl⟩ := Option.map_eq_some_iff.1 h
    rfl
  · cases h

/-! ## Who issues what -/

/-- The device of each account does not change. -/
def SignedIn (user : Client → Option UID) : Guard Loc Client Cb Data App Action :=
  fun _ app => app.currentUser = user

/-- The commands that the program issues, with the event in which it does. -/
inductive Issues (jpegData : UIImage → Option Data) (user : Client → Option UID) :
    MEvent → Client → Command → Prop
  | observe {vc e uid} (h : user vc.client = some uid) :
    Issues jpegData user (.pressed (.viewDidAppear vc) e) vc.client
      (.ask (.childAdded (userMessagesPath uid vc.uid) (.messageAdded ⟨vc, e.key⟩)))
  | send {ev c m} (h : sentBy user ev = some m) :
    Issues jpegData user ev c (.write (.update (.messages m.id) m.value)
      (some (.messageWritten m.fromId m.toId m.id)))
  | index {c fromId toId id e} :
    Issues jpegData user (.ran ⟨c, .messageWritten fromId toId id, .acked true⟩ e) c
      (.write (.update (.usersMessages fromId toId id) (1 : ℕ)) none)
  | recipientIndex {c fromId toId id e} :
    Issues jpegData user (.ran ⟨c, .messageWritten fromId toId id, .acked true⟩ e) c
      (.write (.update (.usersMessages toId fromId id) (1 : ℕ)) none)
  | read {c call id e} :
    Issues jpegData user (.ran ⟨c, .messageAdded call, .childAdded id⟩ e) c
      (.ask (.single (.messages id) (.messageRead call)))
  | upload {vc image data uid e} (hdata : jpegData image = some data)
      (h : user vc.client = some uid) :
    Issues jpegData user (.pressed (.pickImage vc image) e) vc.client
      (.ask (.putData (userPicturesPath uid) data (.pictureStored vc image uid)))
  | fetchURL {c vc image uid ok e} :
    Issues jpegData user (.ran ⟨c, .pictureStored vc image uid, .stored ok⟩ e) c
      (.ask (.downloadURL (userPicturesPath uid) (.pictureURL vc image)))

section Issued

variable {jpegData : UIImage → Option Data} {user : Client → Option UID} {log : List MEvent}
  {c : Client} {cmd : Command}

theorem handleSend_text {vc : MessageVC} {text : String} {e : Env} {app : App}
    (huser : app.currentUser = user)
    (h : cmd ∈ (handleSend vc.client vc text none none e app).2) :
    Issues jpegData user (.pressed (.sendBtnPressed vc text) e) c cmd := by
  unfold handleSend at h
  rw [huser] at h
  cases hu : user vc.client with
  | none => simp [hu] at h
  | some fromId =>
    simp only [hu, List.mem_singleton] at h
    subst h
    exact .send (m := ⟨e.key, fromId, vc.uid, e.now, .text text⟩) (by simp [sentBy, hu])

theorem handleSend_picture {vc : MessageVC} {url : DownloadURL} {img : UIImage} {e : Env}
    {app : App} (huser : app.currentUser = user)
    (h : cmd ∈ (handleSend c vc "" (some url) (some img) e app).2) :
    Issues jpegData user (.ran ⟨c, .pictureURL vc img, .url (some url)⟩ e) c cmd := by
  unfold handleSend at h
  rw [huser] at h
  cases hu : user c with
  | none => simp [hu] at h
  | some fromId =>
    simp only [hu, List.mem_singleton] at h
    subst h
    exact .send (m := ⟨e.key, fromId, vc.uid, e.now, .picture url img.width img.height⟩)
      (by simp [sentBy, hu])

/-- A press issues what `Issues` says. -/
theorem issues_of_act {a : Action} {e : Env} {app app' : App} {cmds : List Command}
    (huser : app.currentUser = user) (hact : act jpegData a e app = some (c, app', cmds))
    (h : cmd ∈ cmds) : Issues jpegData user (.pressed a e) c cmd := by
  unfold act at hact
  split at hact
  · cases hact
  cases a with
  | viewDidAppear vc =>
    cases hact
    unfold observUserMessages at h
    rw [huser] at h
    cases hu : user vc.client with
    | none => simp [hu] at h
    | some uid =>
      simp only [hu, List.mem_singleton] at h
      subst h
      exact .observe hu
  | sendBtnPressed vc text =>
    simp only at hact
    split at hact
    · cases hact
    · obtain ⟨rfl, hsend⟩ := Prod.mk.inj (Option.some.inj hact)
      exact handleSend_text huser (congrArg Prod.snd hsend ▸ h)
  | pickImage vc image =>
    obtain ⟨rfl, hupload⟩ := Prod.mk.inj (Option.some.inj hact)
    replace h : cmd ∈ (uploadToStorageUsingImage jpegData vc image app).2 :=
      congrArg Prod.snd hupload ▸ h
    unfold uploadToStorageUsingImage at h
    rw [huser] at h
    cases hu : user vc.client with
    | none => simp [hu] at h
    | some uid =>
      cases hd : jpegData image with
      | none => simp [hu, hd] at h
      | some data =>
        simp only [hu, hd, List.mem_singleton] at h
        subst h
        exact .upload hd hu
  | timerFired vc =>
    simp only at hact
    split at hact
    · cases hact
      cases h
    · cases hact
  | reloadCollection vc =>
    simp only at hact
    split at hact
    · cases hact
    · cases hact
      cases h
  | signOut | signIn =>
    cases hact
    cases h

/-- A callback issues what `Issues` says. -/
theorem issues_of_handle {e : Env} {cb : Cb} {input : Input Loc} {app : App}
    (huser : app.currentUser = user) (h : cmd ∈ (handle c e cb input app).2) :
    Issues jpegData user (.ran ⟨c, cb, input⟩ e) c cmd := by
  unfold handle at h
  split at h
  · cases h
  split at h
  · rename_i fromId toId messageId ok
    cases ok with
    | false => cases h
    | true =>
      simp only [messageWritten, ↓reduceIte, List.mem_cons, List.not_mem_nil, or_false] at h
      rcases h with rfl | rfl
      · exact .index
      · exact .recipientIndex
  · rw [List.mem_singleton.1 h]
    exact .read
  · cases h
  · rw [List.mem_singleton.1 h]
    exact .fetchURL
  · exact handleSend_picture huser h
  · cases h

/-- Whoever is signed in, what was issued was issued for the accounts of that moment. -/
theorem issues_in_app {G : Guard Loc Client Cb Data App Action}
    (h : Issued (program jpegData) G log c cmd) :
    ∃ ev ∈ log, ∃ app, G ev app ∧ Issues jpegData app.currentUser ev c cmd := by
  rcases h with ⟨a, e, app, app', cmds, hev, hG, hact, hcmd⟩ | ⟨t, e, app, hev, hG, rfl, hcmd⟩
  · exact ⟨_, hev, app, hG, issues_of_act rfl hact hcmd⟩
  · exact ⟨_, hev, app, hG, issues_of_handle rfl hcmd⟩

theorem issues_of_issued (h : Issued (program jpegData) (SignedIn user) log c cmd) :
    ∃ ev ∈ log, Issues jpegData user ev c cmd := by
  obtain ⟨ev, hev, app, rfl, hi⟩ := issues_in_app h
  exact ⟨ev, hev, hi⟩

end Issued

end FLChat.Messages
