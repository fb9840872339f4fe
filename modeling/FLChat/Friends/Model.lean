import FLChat.Realtime.Machine

/-!
# Friend requests and friends

The part of `DataService` that view controllers use to make friends. A request is a record
`friend_request/<k>` and an entry `user_friend_request/<u>/<v>/<k>` on both sides; a friendship is a
record `friends/<k>` and an entry `user_friends/<u>/<k>` for both. Sending and accepting are chains
of writes, each issued by the completion of the one before it. The completions print an error and go
on, so none of them looks at whether the server accepted the write.

Every account may be signed in on several devices. The e-mail of an account is a parameter, as
`Auth` knows it, and the singleton `User.instance` of a device is set when its profile is loaded.
-/

namespace FLChat.Friends

open Realtime

abbrev UID := String

/-- A device on which the account `uid` is signed in. -/
structure Client where
  uid : UID
  device : ℕ
  deriving DecidableEq

inductive Loc
  | friendRequest (key : String)
  | userFriendRequest (owner peer : UID) (key : String)
  | friends (key : String)
  | userFriends (owner : UID) (key : String)
  deriving DecidableEq

/-- The dictionary that stands for a user inside a record. -/
structure UserParams where
  uid : UID
  name : String
  image : String
  email : String
  phone : String
  online : Bool
  deriving DecidableEq

/-- A record of `friend_request`. -/
structure RequestDict where
  fromId : UID
  fromIdUser : UserParams
  toId : UID
  toIdUser : UserParams
  timeStamp : ℕ
  message : String
  confirmReques : Bool
  deriving DecidableEq

/-- A record of `friends`. -/
structure FriendDict where
  fromId : UID
  fromIdUser : UserParams
  toId : UID
  toIdUser : UserParams
  timeStamp : ℕ
  confirmReques : Bool
  deriving DecidableEq

/-- Records are only ever written with all their fields, so a write replaces what was there. -/
instance : Schema Loc where
  Val
    | .friendRequest _ => RequestDict
    | .friends _ => FriendDict
    | .userFriendRequest .. | .userFriends .. => ℕ
  path
    | .friendRequest key => ["friend_request", key]
    | .userFriendRequest owner peer key => ["user_friend_request", owner, peer, key]
    | .friends key => ["friends", key]
    | .userFriends owner key => ["user_friends", owner, key]
  merge
    | .friendRequest _ | .friends _ | .userFriendRequest .. | .userFriends .. => fun new _ => new

/-- The singleton `User.instance`, with its placeholders. -/
structure User where
  name : String := "User name"
  image : String := "User image"
  phone : String := "User phone"
  email : String := "User email"
  online : Bool := true
  deriving DecidableEq

/-- An entry of a list on the screen. The list of sent requests has no ids. -/
structure Users where
  userId : Option UID
  userName : String
  userImage : String
  userEmail : String
  userPhone : String
  userStatus : Bool
  deriving DecidableEq

def UserParams.users (user : UserParams) : Users :=
  ⟨some user.uid, user.name, user.image, user.email, user.phone, user.online⟩

/-- The live lists: `HomeVC`, `AllRequestFriendsVC` and `MyRequestFriendsVC`. -/
inductive FriendList
  | friends
  | incoming
  | sent
  deriving DecidableEq

/-- One call of a list function, named by a key that nothing else has. -/
structure Call where
  client : Client
  list : FriendList
  query : String
  id : String
  deriving DecidableEq

/-- The user of a record that a list shows. -/
inductive Side
  | fromIdUser
  | toIdUser
  deriving DecidableEq

/-- The callbacks, with what they capture. -/
inductive Cb
  | requestSend (key : String) (toId : UID) (userName : String)
  | recipientAdded
  | userFriendAdded (key : String) (fromId : UID) (userName : String)
  | recipientFriendAdded (fromId : UID) (userName : String)
  | removeOuter (toId fromId : UID) (userName : String)
  | removeInner (toId fromId : UID) (userName : String)
  | peerAdded (call : Call)
  | entryAdded (call : Call)
  | recordRead (call : Call)
  | userRead (call : Call) (side : Side)
  deriving DecidableEq

/-- A press. `peer` is what the view controller shows: a user found in the search, or the sender of
an incoming request. -/
inductive Action
  | sendFrienRequestBtnPressed (c : Client) (peer : UserParams)
  | addUsertoFriendsBtnPressed (c : Client) (peer : UserParams)
  | search (c : Client) (list : FriendList) (query : String)
  | didSelectItemAt (c : Client) (i : ℕ)
  | profileLoaded (c : Client) (user : User)

structure App where
  user : Client → User
  arrayUsers : Call → List Users
  usersArray : Client → FriendList → List Users
  selected : Client → Option Users
  alerts : List (Client × String)

/-- Nothing has been shown yet. -/
structure App.Fresh (app : App) : Prop where
  arrayUsers : ∀ call, app.arrayUsers call = []
  usersArray : ∀ c list, app.usersArray c list = []
  selected : ∀ c, app.selected c = none

abbrev Command := Cmd Loc Cb Unit

def App.alert (app : App) (c : Client) (title : String) : App :=
  { app with alerts := (c, title) :: app.alerts }

/-- The singleton as a dictionary: `getParamsUserFrom` of a sender, `getParamsUserTo` of the one
who accepts. -/
def App.params (app : App) (c : Client) : UserParams :=
  let user := app.user c
  ⟨c.uid, user.name, user.image, user.email, user.phone, user.online⟩

/-! ## Sending a request -/

def friendRequestsOf (uid : UID) : Path := ["user_friend_request", uid]

def friendRequestsWith (uid peer : UID) : Path := ["user_friend_request", uid, peer]

def friendRequestIntoDB (key : String) (fromId : UID) (userFromId : UserParams) (toId : UID)
    (userToId : UserParams) (time : ℕ) (msg : String) (confirmReques : Bool) : Command :=
  .write (.update (.friendRequest key)
    (⟨fromId, userFromId, toId, userToId, time, msg, confirmReques⟩ : RequestDict)) none

def userFriendRequestIntoDB (c : Client) (key : String) (recipientId : UID) (requestSend : Cb) :
    Command :=
  .write (.update (.userFriendRequest c.uid recipientId key) (1 : ℕ)) (some requestSend)

def recipientsUserFriendRequestIntoDB (c : Client) (key : String) (recipientId : UID)
    (recipientAddedIntoDatabase : Cb) : Command :=
  .write (.update (.userFriendRequest recipientId c.uid key) (1 : ℕ))
    (some recipientAddedIntoDatabase)

def sendFrienRequestBtnPressed (c : Client) (peer : UserParams) (e : Env) (app : App) :
    List Command :=
  [friendRequestIntoDB e.key c.uid (app.params c) peer.uid peer e.now
      "Hi! I want to be your friend" false,
    userFriendRequestIntoDB c e.key peer.uid (.requestSend e.key peer.uid peer.name)]

def requestSentTitle (userName : String) : String :=
  "Your friend request was successfully sent to the \"" ++ userName ++ "\""

/-! ## Accepting a request -/

def friendIntoDB (key : String) (fromId : UID) (userFromId : UserParams) (toId : UID)
    (userToId : UserParams) (time : ℕ) (confirmReques : Bool) : Command :=
  .write (.update (.friends key)
    (⟨fromId, userFromId, toId, userToId, time, confirmReques⟩ : FriendDict)) none

def userFriendIntoDB (c : Client) (key : String) (refSend : Cb) : Command :=
  .write (.update (.userFriends c.uid key) (1 : ℕ)) (some refSend)

def recipientsUserFriendIntoDB (key : String) (recipientId : UID) (refSend : Cb) : Command :=
  .write (.update (.userFriends recipientId key) (1 : ℕ)) (some refSend)

/-- The outer observer. It is never removed. -/
def removeFriendRequestsFromDatabase (toId fromId : UID) (userName : String) : Command :=
  .ask (.childAdded (friendRequestsWith toId fromId) (.removeOuter toId fromId userName))

/-- An event of the outer observer attaches another inner one. -/
def removeOuter (toId fromId : UID) (userName : String) : Command :=
  .ask (.childAdded (friendRequestsWith fromId toId) (.removeInner toId fromId userName))

/-- An event of an inner observer removes the record it names and both index subtrees. -/
def removeInner (toId fromId : UID) (key : String) : List Command :=
  [.write (.remove ["friend_request", key]) none,
    .write (.remove (friendRequestsWith toId fromId)) none,
    .write (.remove (friendRequestsWith fromId toId)) none]

def addUsertoFriendsBtnPressed (c : Client) (peer : UserParams) (e : Env) (app : App) :
    List Command :=
  [friendIntoDB e.key peer.uid peer c.uid (app.params c) e.now true,
    userFriendIntoDB c e.key (.userFriendAdded e.key peer.uid peer.name)]

def friendAddedTitle (userName : String) : String :=
  "You have successfully added the user: \"" ++ userName ++ "\" to your friends list."

/-! ## The live lists -/

/-- The text contains the query. -/
def containsText (text query : String) : Bool :=
  text.toList.tails.any (query.toList.isPrefixOf ·)

/-- The filter of the lists: the query, and never the signed-in user. -/
def matchesQuery (query email own : String) : Bool :=
  if query = "" then decide (email ≠ own) else containsText email query && decide (email ≠ own)

def getAllFrinds (c : Client) (query : String) (id : String) : Command :=
  .ask (.childAdded ["user_friends", c.uid] (.entryAdded ⟨c, .friends, query, id⟩))

def getUsersWhomFriendRequestBeenSend (c : Client) (query : String) (id : String) : Command :=
  .ask (.childAdded (friendRequestsOf c.uid) (.peerAdded ⟨c, .sent, query, id⟩))

def getUsersWhoSendRequestToFriends (c : Client) (query : String) (id : String) : Command :=
  .ask (.childAdded (friendRequestsOf c.uid) (.peerAdded ⟨c, .incoming, query, id⟩))

/-- A list observes the index of its user. -/
def searchList (c : Client) (list : FriendList) (query : String) (id : String) : Command :=
  match list with
  | .friends => getAllFrinds c query id
  | .sent => getUsersWhomFriendRequestBeenSend c query id
  | .incoming => getUsersWhoSendRequestToFriends c query id

/-- The record that an index entry of a list names. -/
def FriendList.record (list : FriendList) (key : String) : Loc :=
  match list with
  | .friends => .friends key
  | .sent | .incoming => .friendRequest key

/-- The side of a record that a list shows. Only the list of friends looks at the record, and
shows nothing if there is none; the lists of requests go on without one. -/
def shownSide (c : Client) (list : FriendList) (dict : Option FriendDict) : Option Side :=
  match list with
  | .friends => dict.map fun dict => if c.uid = dict.fromId then .toIdUser else .fromIdUser
  | .sent => some .toIdUser
  | .incoming => some .fromIdUser

def RequestDict.side (dict : RequestDict) : Side → UserParams
  | .fromIdUser => dict.fromIdUser
  | .toIdUser => dict.toIdUser

def FriendDict.side (dict : FriendDict) : Side → UserParams
  | .fromIdUser => dict.fromIdUser
  | .toIdUser => dict.toIdUser

/-- `arrayUsers.append` and the completion, which shows the array. -/
def App.deliver (app : App) (call : Call) (users : Users) : App :=
  let array := app.arrayUsers call ++ [users]
  { app with
    arrayUsers := fun call' => if call' = call then array else app.arrayUsers call'
    usersArray := fun c list =>
      if c = call.client ∧ list = call.list then array else app.usersArray c list }

/-- The reply with the user of a record. -/
def userRead (email : UID → String) (call : Call) (user : Option UserParams) (app : App) : App :=
  match user with
  | none => app
  | some user =>
    if matchesQuery call.query user.email (email call.client.uid) then
      app.deliver call
        (match call.list with
          | .sent => { user.users with userId := none }
          | .friends | .incoming => user.users)
    else app

/-! ## The program -/

/-- A press. The search for new friends leaves out the signed-in user, and a request is accepted in
the view controller that was opened on it. -/
def act (email : UID → String) (a : Action) (e : Env) (app : App) :
    Option (Client × App × List Command) :=
  match a with
  | .sendFrienRequestBtnPressed c peer =>
    if peer.email = email c.uid then none
    else some (c, app, sendFrienRequestBtnPressed c peer e app)
  | .addUsertoFriendsBtnPressed c peer =>
    if app.selected c = some peer.users then some (c, app, addUsertoFriendsBtnPressed c peer e app)
    else none
  | .search c list query => some (c, app, [searchList c list query e.key])
  | .didSelectItemAt c i =>
    (app.usersArray c .incoming)[i]?.map fun users =>
      (c, { app with selected := fun c' => if c' = c then some users else app.selected c' }, [])
  | .profileLoaded c user =>
    some (c, { app with user := fun c' => if c' = c then user else app.user c' }, [])

def handle (email : UID → String) (c : Client) (cb : Cb) (input : Input Loc) (app : App) :
    App × List Command :=
  match cb, input with
  | .requestSend key toId userName, .acked _ =>
    (app.alert c (requestSentTitle userName),
      [recipientsUserFriendRequestIntoDB c key toId .recipientAdded])
  | .userFriendAdded key fromId userName, .acked _ =>
    (app, [recipientsUserFriendIntoDB key fromId (.recipientFriendAdded fromId userName)])
  | .recipientFriendAdded fromId userName, .acked _ =>
    (app, [removeFriendRequestsFromDatabase c.uid fromId userName])
  | .removeOuter toId fromId userName, .childAdded _ => (app, [removeOuter toId fromId userName])
  | .removeInner toId fromId userName, .childAdded key =>
    (app.alert c (friendAddedTitle userName), removeInner toId fromId key)
  | .peerAdded call, .childAdded peer =>
    (app, [.ask (.childAdded (friendRequestsWith c.uid peer) (.entryAdded call))])
  | .entryAdded call, .childAdded key =>
    (app, [.ask (.single (call.list.record key) (.recordRead call))])
  | .recordRead call, .value (.friends key) dict =>
    (app, ((shownSide c call.list dict).toList).map fun side =>
      .ask (.value (.friends key) (.userRead call side)))
  | .recordRead call, .value (.friendRequest key) _ =>
    (app, ((shownSide c call.list none).toList).map fun side =>
      .ask (.value (.friendRequest key) (.userRead call side)))
  | .userRead call side, .value (.friends _) dict =>
    (userRead email call (dict.map (·.side side)) app, [])
  | .userRead call side, .value (.friendRequest _) dict =>
    (userRead email call (dict.map (·.side side)) app, [])
  | _, _ => (app, [])

/-- The process ends and with it everything it shows. -/
def die (c : Client) (app : App) : App :=
  { app with
    user := fun c' => if c' = c then {} else app.user c'
    arrayUsers := fun call => if call.client = c then [] else app.arrayUsers call
    usersArray := fun c' list => if c' = c then [] else app.usersArray c' list
    selected := fun c' => if c' = c then none else app.selected c' }

@[simps] def program (email : UID → String) : Program Loc Client Cb Unit App Action where
  act := act email
  handle c _ := handle email c
  die := die

abbrev FState := State Loc Client Cb Unit App Action

abbrev FEvent := Event Loc Client Cb Unit Action

abbrev FLabel := Label Client Action

end FLChat.Friends
