import FLChat.Realtime.Machine

/-!
# Conversations

`MessageVC` and the part of the database it works on: a message is a record `messages/<id>` and an
entry `users_messages/<u>/<v>/<id>` on both sides, a picture is an object `user_pictures/<uid>`.

What a view controller keeps between callbacks is in `App`, its captured variables included: each
`observUserMessages` has an array of its own (`App.messages`), and all those of one view controller
overwrite its `messagesArray`. A forced unwrap of `nil` and a scroll to a row that is not there
end the process: the client is trapped and does nothing more.
-/

namespace FLChat.Messages

open Realtime

abbrev UID := String

/-- A device. -/
abbrev Client := ℕ

inductive Loc
  | messages (id : String)
  | usersMessages (owner peer : UID) (id : String)
  deriving DecidableEq

/-- A record of `messages`. Any field of a stored record may be missing. The string of a download
URL stands for what it designates, and the sizes are in whole points. -/
structure MessageDict where
  fromId : Option UID := none
  toId : Option UID := none
  timeStamp : Option ℕ := none
  message : Option String := none
  imageUrl : Option DownloadURL := none
  imageWidth : Option ℕ := none
  imageHeight : Option ℕ := none
  deriving DecidableEq

/-- `updateChildValues` keeps the fields it is not given. -/
def MessageDict.updateChildValues (new old : MessageDict) : MessageDict where
  fromId := new.fromId <|> old.fromId
  toId := new.toId <|> old.toId
  timeStamp := new.timeStamp <|> old.timeStamp
  message := new.message <|> old.message
  imageUrl := new.imageUrl <|> old.imageUrl
  imageWidth := new.imageWidth <|> old.imageWidth
  imageHeight := new.imageHeight <|> old.imageHeight

instance : Schema Loc where
  Val
    | .messages _ => MessageDict
    | .usersMessages .. => ℕ
  path
    | .messages id => ["messages", id]
    | .usersMessages owner peer id => ["users_messages", owner, peer, id]
  merge
    | .messages _ => MessageDict.updateChildValues
    | .usersMessages .. => fun new _ => new

abbrev Data := String

structure UIImage where
  pixels : String
  width : ℕ
  height : ℕ
  deriving DecidableEq

/-- The view controller `number` that a device has open on the user `uid`. -/
structure MessageVC where
  client : Client
  uid : UID
  number : ℕ
  deriving DecidableEq

/-- One call of `observUserMessages`, named by a key that nothing else has. -/
structure Call where
  vc : MessageVC
  id : String
  deriving DecidableEq

structure Message where
  fromId : Option UID := none
  toId : Option UID := none
  timeStamp : Option ℕ := none
  message : Option String := none
  image : Option DownloadURL := none
  imageWidth : Option ℕ := none
  imageHeight : Option ℕ := none
  deriving DecidableEq

/-- The callbacks, with what they capture. -/
inductive Cb
  | messageWritten (fromId toId : UID) (messageId : String)
  | messageAdded (call : Call)
  | messageRead (call : Call)
  | pictureStored (vc : MessageVC) (image : UIImage) (uid : UID)
  | pictureURL (vc : MessageVC) (image : UIImage)
  deriving DecidableEq

inductive Action
  | viewDidAppear (vc : MessageVC)
  | sendBtnPressed (vc : MessageVC) (text : String)
  | pickImage (vc : MessageVC) (image : UIImage)
  | timerFired (vc : MessageVC)
  | reloadCollection (vc : MessageVC)
  | signOut (c : Client)
  | signIn (c : Client) (uid : UID)

def Action.client : Action → Client
  | .viewDidAppear vc | .sendBtnPressed vc _ | .pickImage vc _ | .timerFired vc
  | .reloadCollection vc => vc.client
  | .signOut c | .signIn c _ => c

structure App where
  currentUser : Client → Option UID
  messages : Call → List Message
  messagesArray : MessageVC → List Message
  timer : MessageVC → Bool
  blocks : MessageVC → ℕ
  itemCount : MessageVC → ℕ
  trapped : Client → Bool

/-- Nothing has been shown yet. -/
structure App.Fresh (app : App) : Prop where
  messages : ∀ call, app.messages call = []
  messagesArray : ∀ vc, app.messagesArray vc = []
  timer : ∀ vc, app.timer vc = false
  blocks : ∀ vc, app.blocks vc = 0
  trapped : ∀ c, app.trapped c = false

abbrev Command := Cmd Loc Cb Data

/-! ## The functions of the view controller -/

def userMessagesPath (uid toId : UID) : Path := ["users_messages", uid, toId]

def userPicturesPath (uid : UID) : Path := ["user_pictures", uid]

def App.trap (app : App) (c : Client) : App :=
  { app with trapped := fun c' => if c' = c then true else app.trapped c' }

/-- The record of a message, without a picture and with one. -/
def textValue (fromId toId : UID) (timeStamp : ℕ) (message : String) : MessageDict :=
  { fromId := some fromId, toId := some toId, timeStamp := some timeStamp, message := some message }

def imageValue (fromId toId : UID) (timeStamp : ℕ) (imageUrl : DownloadURL) (img : UIImage) :
    MessageDict :=
  { fromId := some fromId, toId := some toId, timeStamp := some timeStamp,
    imageUrl := some imageUrl, imageWidth := some img.width, imageHeight := some img.height }

/-- `handleSend` on client `c`. The id of the message is the key drawn in this step. -/
def handleSend (c : Client) (vc : MessageVC) (text : String) (imageUrl : Option DownloadURL)
    (img : Option UIImage) (e : Env) (app : App) : App × List Command :=
  match app.currentUser c with
  | none => (app.trap c, [])
  | some fromId =>
    match imageUrl, img with
    | some _, none => (app.trap c, [])
    | some url, some img =>
      (app, [.write (.update (.messages e.key) (imageValue fromId vc.uid e.now url img))
        (some (.messageWritten fromId vc.uid e.key))])
    | none, _ =>
      (app, [.write (.update (.messages e.key) (textValue fromId vc.uid e.now text))
        (some (.messageWritten fromId vc.uid e.key))])

/-- The completion of the record: a rejected record gets no index entries. -/
def messageWritten (fromId toId : UID) (messageId : String) (ok : Bool) : List Command :=
  if ok then
    [.write (.update (.usersMessages fromId toId messageId) (1 : ℕ)) none,
     .write (.update (.usersMessages toId fromId messageId) (1 : ℕ)) none]
  else []

def observUserMessages (vc : MessageVC) (e : Env) (app : App) : List Command :=
  match app.currentUser vc.client with
  | none => []
  | some uid => [.ask (.childAdded (userMessagesPath uid vc.uid) (.messageAdded ⟨vc, e.key⟩))]

/-- What `observUserMessages` makes of a record. `none` is a forced unwrap of `nil`. -/
def MessageDict.decode (dict : MessageDict) : Option Message :=
  match dict.fromId, dict.toId, dict.timeStamp with
  | some fromId, some toId, some timeStamp =>
    some {
      fromId := some fromId
      toId := some toId
      timeStamp := some timeStamp
      message := dict.message
      image := dict.imageUrl
      imageWidth := if dict.imageUrl.isSome then dict.imageWidth else none
      imageHeight := if dict.imageUrl.isSome then dict.imageHeight else none }
  | _, _, _ => none

/-- `messages.append(message)`, `complete(messages)` and `attemptReloadOfCollection()`. -/
def App.deliver (app : App) (call : Call) (message : Message) : App :=
  let messages := app.messages call ++ [message]
  { app with
    messages := fun call' => if call' = call then messages else app.messages call'
    messagesArray := fun vc => if vc = call.vc then messages else app.messagesArray vc
    timer := fun vc => if vc = call.vc then true else app.timer vc }

/-- The reply to the single read of a message. -/
def messageRead (c : Client) (call : Call) (value : Option MessageDict) (app : App) : App :=
  match value with
  | none => app
  | some dict =>
    match dict.decode with
    | none => app.trap c
    | some message => app.deliver call message

/-- `uploadToStorageUsingImage`. -/
def uploadToStorageUsingImage (jpegData : UIImage → Option Data) (vc : MessageVC)
    (image : UIImage) (app : App) : App × List Command :=
  match app.currentUser vc.client with
  | none => (app.trap vc.client, [])
  | some uid =>
    match jpegData image with
    | none => (app, [])
    | some data =>
      (app, [.ask (.putData (userPicturesPath uid) data (.pictureStored vc image uid))])

/-- The timer fires: the reload goes to the main queue. -/
def handleReloadCollection (vc : MessageVC) (app : App) : App :=
  { app with
    timer := fun vc' => if vc' = vc then false else app.timer vc'
    blocks := fun vc' => if vc' = vc then app.blocks vc + 1 else app.blocks vc' }

/-- `collectionView.reloadData()`: the collection view takes the number of rows. -/
def App.reload (app : App) (vc : MessageVC) : App :=
  { app with
    blocks := fun vc' => if vc' = vc then app.blocks vc - 1 else app.blocks vc'
    itemCount := fun vc' => if vc' = vc then (app.messagesArray vc).length else app.itemCount vc' }

/-- A queued reload: after `reloadData`, `scrollMessage` goes to the last row, which must be
there. -/
def reloadAndScroll (vc : MessageVC) (app : App) : App :=
  if app.messagesArray vc = [] then (app.reload vc).trap vc.client else app.reload vc

/-! ## The program -/

/-- A press. The send button is only enabled over a text. -/
def act (jpegData : UIImage → Option Data) (a : Action) (e : Env) (app : App) :
    Option (Client × App × List Command) :=
  if app.trapped a.client then none
  else match a with
  | .viewDidAppear vc => some (vc.client, app, observUserMessages vc e app)
  | .sendBtnPressed vc text =>
    if text = "" then none else some (vc.client, handleSend vc.client vc text none none e app)
  | .pickImage vc image =>
    some (vc.client, uploadToStorageUsingImage jpegData vc image app)
  | .timerFired vc =>
    if app.timer vc then some (vc.client, handleReloadCollection vc app, []) else none
  | .reloadCollection vc =>
    if app.blocks vc = 0 then none else some (vc.client, reloadAndScroll vc app, [])
  | .signOut c =>
    some (c, { app with currentUser := fun c' => if c' = c then none else app.currentUser c' }, [])
  | .signIn c uid =>
    some (c, { app with currentUser := fun c' => if c' = c then some uid else app.currentUser c' },
      [])

/-- A callback. After a failed upload `downloadURL` is asked for all the same, and no URL means no
message. -/
def handle (c : Client) (e : Env) (cb : Cb) (input : Input Loc) (app : App) :
    App × List Command :=
  if app.trapped c then (app, [])
  else match cb, input with
  | .messageWritten fromId toId messageId, .acked ok =>
    (app, messageWritten fromId toId messageId ok)
  | .messageAdded call, .childAdded messageId =>
    (app, [.ask (.single (.messages messageId) (.messageRead call))])
  | .messageRead call, .value (.messages _) value => (messageRead c call value app, [])
  | .pictureStored vc image uid, .stored _ =>
    (app, [.ask (.downloadURL (userPicturesPath uid) (.pictureURL vc image))])
  | .pictureURL vc image, .url (some url) => handleSend c vc "" (some url) (some image) e app
  | _, _ => (app, [])

/-- The process ends and with it everything its view controllers hold. -/
def die (c : Client) (app : App) : App :=
  { app with
    messages := fun call => if call.vc.client = c then [] else app.messages call
    messagesArray := fun vc => if vc.client = c then [] else app.messagesArray vc
    timer := fun vc => if vc.client = c then false else app.timer vc
    blocks := fun vc => if vc.client = c then 0 else app.blocks vc
    itemCount := fun vc => if vc.client = c then 0 else app.itemCount vc
    trapped := fun c' => if c' = c then false else app.trapped c' }

@[simps] def program (jpegData : UIImage → Option Data) :
    Program Loc Client Cb Data App Action where
  act := act jpegData
  handle := handle
  die := die

abbrev MState := State Loc Client Cb Data App Action

abbrev MEvent := Event Loc Client Cb Data Action

abbrev MLabel := Label Client Action

end FLChat.Messages
