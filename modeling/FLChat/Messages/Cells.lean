import FLChat.Messages.Crashes

/-!
# The cells of a conversation

The collection view hands out its cells again and again, and `cellForItemAt` writes over what a cell
displayed before. It sets the text, the sides and the hidden flags by the fields of the message, and
leaves the width and the text view alone where there is neither a text nor an image. No row has such
a message, nor one with both: what is in an array was sent (`sent_of_mem`), as a text or as a
picture. So a row is displayed as what it is in whichever cell it gets (`cell_displays`).

Colors are named by their use, and the width of a text is left to the font.
-/

namespace FLChat.Messages

open Realtime

inductive BubbleColor
  | unset
  | own
  | peer
  | clear
  deriving DecidableEq

/-- The constant of `bubbleWidthAnchor`. -/
inductive BubbleWidth
  | text (message : String)
  | image
  deriving DecidableEq

structure MessageCell where
  text : String
  textHidden : Bool
  backgroundColor : BubbleColor
  userImageHidden : Bool
  messageImageHidden : Bool
  rightAnchorActive : Bool
  leftAnchorActive : Bool
  bubbleWidth : BubbleWidth
  deriving DecidableEq

/-- A new cell. -/
def MessageCell.awakeFromNib : MessageCell where
  text := "userMessageText"
  textHidden := false
  backgroundColor := .unset
  userImageHidden := false
  messageImageHidden := false
  rightAnchorActive := false
  leftAnchorActive := false
  bubbleWidth := .image

/-- A call of `loadImageUsingCacheWithUrlString`. -/
inductive ImageLoad
  | userImage (urlString : String)
  | messageImageView (urlString : DownloadURL)
  deriving DecidableEq

/-- `setupCell`. `uid` is the account that is signed in. -/
def setupCell (urlImage : Option String) (uid : Option UID) (cell : MessageCell)
    (message : Message) : MessageCell × List ImageLoad :=
  match urlImage with
  | none => (cell, [])
  | some profileUserUrl =>
    let cell :=
      if message.fromId = uid then
        { cell with
          backgroundColor := .own
          userImageHidden := true
          rightAnchorActive := true
          leftAnchorActive := false }
      else
        { cell with
          backgroundColor := .peer
          userImageHidden := false
          rightAnchorActive := false
          leftAnchorActive := true }
    match message.image with
    | some messageImageUrl =>
      ({ cell with messageImageHidden := false, backgroundColor := .clear },
        [.userImage profileUserUrl, .messageImageView messageImageUrl])
    | none => ({ cell with messageImageHidden := true }, [.userImage profileUserUrl])

/-- `cellForItemAt`, over the cell that is dequeued. A text view shows no text as the empty one. -/
def cellForItemAt (urlImage : Option String) (uid : Option UID) (message : Message)
    (cell : MessageCell) : MessageCell × List ImageLoad :=
  let (cell, loads) := setupCell urlImage uid cell message
  let cell := { cell with text := message.message.getD "" }
  let cell :=
    match message.message, message.image with
    | some text, _ => { cell with bubbleWidth := .text text, textHidden := false }
    | none, some _ => { cell with bubbleWidth := .image, textHidden := true }
    | none, none => cell
  (cell, loads)

/-- What a cell is to display of a message. -/
def Sent.cell (uid : Option UID) (m : Sent) : MessageCell :=
  let own := decide (some m.fromId = uid)
  match m.content with
  | .text message => {
      text := message
      textHidden := false
      backgroundColor := if own then .own else .peer
      userImageHidden := own
      messageImageHidden := true
      rightAnchorActive := own
      leftAnchorActive := !own
      bubbleWidth := .text message }
  | .picture .. => {
      text := ""
      textHidden := true
      backgroundColor := .clear
      userImageHidden := own
      messageImageHidden := false
      rightAnchorActive := own
      leftAnchorActive := !own
      bubbleWidth := .image }

/-- The pictures that a cell is to load for a message. -/
def Sent.loads (profileUserUrl : String) (m : Sent) : List ImageLoad :=
  match m.content with
  | .text _ => [.userImage profileUserUrl]
  | .picture url _ _ => [.userImage profileUserUrl, .messageImageView url]

/-- Nothing is left of what the cell displayed before. -/
theorem cellForItemAt_message (profileUserUrl : String) (uid : Option UID) (m : Sent)
    (cell : MessageCell) : cellForItemAt (some profileUserUrl) uid m.message cell =
      (m.cell uid, m.loads profileUserUrl) := by
  obtain ⟨id, fromId, toId, timeStamp, content⟩ := m
  by_cases hown : some fromId = uid
  · cases content <;> simp [cellForItemAt, setupCell, Sent.message, Sent.cell, Sent.loads, hown]
  · cases content <;> simp [cellForItemAt, setupCell, Sent.message, Sent.cell, Sent.loads, hown]

/-! ## What is in an array was sent -/

variable {jpegData : UIImage → Option Data} {s₀ s s' : MState} {log : List MEvent} {app : App}

/-- Every message of an array was sent. -/
structure AllSent (log : List MEvent) (app : App) : Prop where
  messages : ∀ call, ∀ message ∈ app.messages call, ∃ m, WasSent log m ∧ message = m.message
  messagesArray : ∀ vc, ∀ message ∈ app.messagesArray vc, ∃ m, WasSent log m ∧ message = m.message

namespace AllSent

theorem congr {app' : App} (h : AllSent log app) (hsame : SameScreen app app') :
    AllSent log app' where
  messages := hsame.messages ▸ h.messages
  messagesArray := hsame.messagesArray ▸ h.messagesArray

theorem mono {log' : List MEvent} (h : AllSent log app) (hlog : log ⊆ log') : AllSent log' app where
  messages call message hmem := by
    obtain ⟨m, ⟨ev, hev, hsent⟩, he⟩ := h.messages call message hmem
    exact ⟨m, ⟨ev, hlog hev, hsent⟩, he⟩
  messagesArray vc message hmem := by
    obtain ⟨m, ⟨ev, hev, hsent⟩, he⟩ := h.messagesArray vc message hmem
    exact ⟨m, ⟨ev, hlog hev, hsent⟩, he⟩

theorem deliver (h : AllSent log app) (call : Call) {m : Sent} (hm : WasSent log m) :
    AllSent log (app.deliver call m.message) := by
  have hnew : ∀ message ∈ app.messages call ++ [m.message],
      ∃ m, WasSent log m ∧ message = m.message := by
    intro message hmem
    rcases List.mem_append.1 hmem with hmem | hmem
    · exact h.messages call message hmem
    · exact ⟨m, hm, List.mem_singleton.1 hmem⟩
  constructor
  · intro call' message hmem
    simp only [App.deliver] at hmem
    split at hmem
    · exact hnew message hmem
    · exact h.messages call' message hmem
  · intro vc message hmem
    simp only [App.deliver] at hmem
    split at hmem
    · exact hnew message hmem
    · exact h.messagesArray vc message hmem

theorem die (h : AllSent log app) (c : Client) : AllSent log (Messages.die c app) := by
  constructor
  · intro call message hmem
    simp only [Messages.die] at hmem
    split at hmem
    · cases hmem
    · exact h.messages call message hmem
  · intro vc message hmem
    simp only [Messages.die] at hmem
    split at hmem
    · cases hmem
    · exact h.messagesArray vc message hmem

end AllSent

section Run

variable (hs : Initial s₀) (htree : s₀.tree = ∅)
  (h : Reaches (step (program jpegData)) AnyStep s₀ s)
include hs htree h

/-- What is delivered was read as it was sent. -/
theorem sent_of_deliveryIn {l : MLabel} {call : Call} {message : Message}
    (hl : deliveryIn s l = some (call, message)) :
    ∃ m, WasSent s.log m ∧ message = m.message := by
  cases l with
  | run i e =>
    obtain ⟨t, ht, hl⟩ := Option.bind_eq_some_iff.1 hl
    obtain ⟨c, cb, input⟩ := t
    unfold delivery at hl
    split at hl
    · next call' id dict hcb hinput =>
      obtain rfl : cb = _ := hcb
      obtain rfl : input = _ := hinput
      obtain ⟨m, hm, rfl⟩ := value_of_messageRead hs htree h (.inl (List.mem_of_getElem? ht))
      split at hl
      · cases hl
      · rw [m.decode_value] at hl
        cases hl
        exact ⟨m, hm, rfl⟩
    · cases hl
  | press | commit | serve | die => cases hl

theorem AllSent.step (hall : AllSent s.log s.app) {l : MLabel} {app' : App}
    (hshows : Shows s l app') : AllSent s.log app' := by
  cases hshows with
  | same _ hsame => exact hall.congr hsame
  | delivered hl =>
    obtain ⟨m, hm, rfl⟩ := sent_of_deliveryIn hs htree h hl
    exact hall.deliver _ hm
  | fired => exact ⟨hall.messages, hall.messagesArray⟩
  | @reloaded vc _ _ _ he =>
    have hreload : AllSent s.log (s.app.reload vc) := ⟨hall.messages, hall.messagesArray⟩
    exact he ▸ hreload.congr (sameScreen_reloadAndScroll _ _)
  | died => exact hall.die _

theorem allSent_of_reaches (happ : s₀.app.Fresh) : AllSent s.log s.app := by
  refine h.invariant_of_reached (I := fun s => AllSent s.log s.app) ?_ fun ht ih _ hstep => ?_
  · constructor
    · simp [happ.messages]
    · simp [happ.messagesArray]
  · have hstep := transition_of_step hstep
    exact (ih.step hs htree ht (shows_of_transition hstep)).mono hstep.log_mono

/-- Whatever happened before, and whatever the cell displayed, a row of a conversation is displayed
as the text or the picture that was sent. -/
theorem cell_displays (happ : s₀.app.Fresh) {vc : MessageVC} {row : ℕ} {message : Message}
    (hrow : (s.app.messagesArray vc)[row]? = some message) :
    ∃ m, WasSent s.log m ∧ message = m.message ∧ ∀ profileUserUrl uid cell,
      cellForItemAt (some profileUserUrl) uid message cell =
        (m.cell uid, m.loads profileUserUrl) := by
  obtain ⟨m, hm, rfl⟩ := (allSent_of_reaches hs htree h happ).messagesArray vc message
    (List.mem_of_getElem? hrow)
  exact ⟨m, hm, rfl, fun profileUserUrl uid cell => cellForItemAt_message profileUserUrl uid m cell⟩

end Run

theorem cell_displays_exchanged :
    ∃ m, WasSent exchanged.log m ∧
      (exchanged.app.messagesArray bobVC).head (by decide +kernel) = m.message ∧
        ∀ profileUserUrl uid cell, cellForItemAt (some profileUserUrl) uid
          ((exchanged.app.messagesArray bobVC).head (by decide +kernel)) cell =
            (m.cell uid, m.loads profileUserUrl) :=
  cell_displays start_start.initial start_start.tree
    (exchanged_reached.mono fun _ _ _ => trivial) start_start.app
    (show (exchanged.app.messagesArray bobVC)[0]? = _ from rfl)

end FLChat.Messages
