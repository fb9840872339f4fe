import FLChat.Accounts.Directory

/-!
# Accounts and friends in one process

`User.instance` belongs to the process, not to an account: the replies of
`getUserCredentialsFromDatabase` fill it, `SignOutPressed` resets it, and `registrationUserIntoDB`,
`getParamsUserFrom` and `getParamsUserTo` copy what is in it. Here the accounts of a device and the
friends of whoever is signed in on it run in one process: `AppDelegate`, `LoginVC`, `HomeVC` and
`SettingsVC` are those of the accounts, and sending, accepting and listing are those of the friends,
with the account that `Auth` knows by the time each part of them runs.

All of `users` is one location, and a write to a profile merges into it. So
`getUsersFromDatabase` reads all profiles at once. The alerts are left out.
-/

namespace FLChat.Sessions

open Realtime
open FLChat.Messages (Data)
open FLChat.Accounts (UID Dict Device)
open FLChat.Friends (Call FriendList Side UserParams Users RequestDict FriendDict)

/-- A device. -/
abbrev Client := ℕ

/-- The profiles. -/
abbrev Directory := Realtime.Tree Accounts.Loc

namespace Directory

def profile (directory : Directory) (uid : UID) : Option Dict := directory.lookup (.users uid)

/-- One profile. -/
def single (uid : UID) (userData : Dict) : Directory := Tree.update ∅ (.users uid) userData

/-- `updateChildValues` of profiles. -/
def updateChildValues (new old : Directory) : Directory :=
  new.entries.foldl (fun directory user => directory.update user.1 user.2) old

end Directory

inductive Loc
  | users
  | friend (l : Friends.Loc)
  deriving DecidableEq

instance : Schema Loc where
  Val
    | .users => Directory
    | .friend l => Val l
  path
    | .users => ["users"]
    | .friend l => path l
  merge
    | .users => Directory.updateChildValues
    | .friend l => Schema.merge l

/-- What is outside of the sources. `parses` is whether `URL(string:)` takes a string: it takes the
download URLs. -/
structure Platform extends Accounts.Platform where
  parses : String → Bool
  parses_absoluteString : ∀ url, parses (absoluteString url) = true

/-- The callbacks, with what they capture. `profileRead` is told the profile of `uid`, and `friend`
was issued by a chain that began with `uid` signed in. -/
inductive Cb
  | account (cb : Accounts.Cb)
  | profileRead (uid : UID) (cb : Accounts.Cb)
  | usersRead (query : String)
  | friend (uid : UID) (cb : Friends.Cb)
  deriving DecidableEq

inductive Press
  | account (press : Accounts.Press)
  | getUsersFromDatabase (query : String)
  | newFriendSelected (i : ℕ)
  | sendFrienRequestBtnPressed
  | search (list : FriendList) (query : String)
  | didSelectItemAt (list : FriendList) (i : ℕ)
  | addUsertoFriendsBtnPressed

structure Action where
  client : Client
  press : Press

/-- What is in memory: the devices, the arrays of the calls, what the lists and `AddNewFriendsVC`
show, and the users of `SelectNewUserFriendVC` and `SelectAllRequestFriendsVC`. -/
structure App where
  device : Client → Device
  arrayUsers : Client → Call → List Users
  usersArray : Client → FriendList → List Users
  found : Client → List Users
  chosen : Client → Option Users
  selected : Client → Option Users

abbrev Command := Cmd Loc Cb Data

/-! ## The parts -/

/-- A command of the accounts. -/
def accountCommand : Accounts.Command → Command
  | .write (.update (.users uid) userData) completion =>
    .write (.update .users (Directory.single uid userData)) (completion.map .account)
  | .write (.remove p) completion => .write (.remove p) (completion.map .account)
  | .ask (.single (.users uid) cb) => .ask (.single .users (.profileRead uid cb))
  | .ask (.value (.users uid) cb) => .ask (.value .users (.profileRead uid cb))
  | .ask (.childAdded p cb) => .ask (.childAdded p (.account cb))
  | .ask (.putData p data cb) => .ask (.putData p data (.account cb))
  | .ask (.downloadURL p cb) => .ask (.downloadURL p (.account cb))

/-- A command of the friends of `uid`. They upload nothing. -/
def friendCommand (uid : UID) : Friends.Command → Option Command
  | .write (.update l v) completion =>
    some (.write (.update (.friend l) v) (completion.map (.friend uid)))
  | .write (.remove p) completion => some (.write (.remove p) (completion.map (.friend uid)))
  | .ask (.childAdded p cb) => some (.ask (.childAdded p (.friend uid cb)))
  | .ask (.value l cb) => some (.ask (.value (.friend l) (.friend uid cb)))
  | .ask (.single l cb) => some (.ask (.single (.friend l) (.friend uid cb)))
  | .ask (.putData ..) | .ask (.downloadURL ..) => none

def friendCommands (uid : UID) (cmds : List Friends.Command) : List Command :=
  cmds.filterMap (friendCommand uid)

namespace App

def currentUser (app : App) (c : Client) : Option UID := (app.device c).currentUser

def setDevice (app : App) (c : Client) (d : Device) : App :=
  { app with device := Function.update app.device c d }

/-- A forced unwrap of `nil`. -/
def trap (app : App) (c : Client) : App :=
  app.setDevice c { app.device c with trapped := true }

/-- The view controllers over `LoginVC` go away. -/
def dismiss (app : App) (c : Client) : App :=
  { app with
    usersArray := Function.update app.usersArray c fun _ => []
    found := Function.update app.found c []
    chosen := Function.update app.chosen c none
    selected := Function.update app.selected c none }

end App

/-- The pictures of a list are loaded, each with `URL(string:)!`. -/
def loadImages (P : Platform) (c : Client) (users : List Users) (app : App) : App :=
  if users.all fun user => P.parses user.userImage then app else app.trap c

/-- `currentUID` and the other fields of a `Select…VC`, as a dictionary. -/
def paramsOf (users : Users) : Option UserParams :=
  users.userId.map fun uid =>
    ⟨uid, users.userName, users.userImage, users.userEmail, users.userPhone, users.userStatus⟩

/-- The singleton as a dictionary: `getParamsUserFrom` of a sender, `getParamsUserTo` of the one who
accepts. -/
def params (uid : UID) (user : Accounts.User) : UserParams :=
  ⟨uid, user.name, user.image, user.email, user.phone, user.online⟩

/-! ## Sending and accepting -/

def sendFrienRequestBtnPressed (c : Client) (uid : UID) (user : Accounts.User) (peer : UserParams)
    (e : Env) : List Friends.Command :=
  [Friends.friendRequestIntoDB e.key uid (params uid user) peer.uid peer e.now
      "Hi! I want to be your friend" false,
    Friends.userFriendRequestIntoDB ⟨uid, c⟩ e.key peer.uid (.requestSend e.key peer.uid peer.name)]

def addUsertoFriendsBtnPressed (c : Client) (uid : UID) (user : Accounts.User) (peer : UserParams)
    (e : Env) : List Friends.Command :=
  [Friends.friendIntoDB e.key peer.uid peer uid (params uid user) e.now true,
    Friends.userFriendIntoDB ⟨uid, c⟩ e.key (.userFriendAdded e.key peer.uid peer.name)]

/-- A press on the button of a user that is shown: the session and the user are unwrapped. -/
def withPeer (c : Client) (users : Users) (app : App)
    (cmds : UID → Accounts.User → UserParams → List Friends.Command) : App × List Command :=
  match app.currentUser c, paramsOf users with
  | some uid, some peer => (app, friendCommands uid (cmds uid (app.device c).user peer))
  | _, _ => (app.trap c, [])

/-! ## The lists -/

def ownEmail (P : Platform) (app : App) (c : Client) : Option String :=
  (app.currentUser c).map P.email

def matchesQuery (query email : String) (own : Option String) : Bool :=
  if query = "" then decide (some email ≠ own)
  else Friends.containsText email query && decide (some email ≠ own)

/-- A list function. Only the one for incoming requests unwraps the session. -/
def searchList (c : Client) (list : FriendList) (query : String) (e : Env) (app : App) :
    App × List Command :=
  match app.currentUser c with
  | none => if list = .incoming then (app.trap c, []) else (app, [])
  | some uid => (app, friendCommands uid [Friends.searchList ⟨uid, c⟩ list query e.key])

def shownSide (own : Option UID) (list : FriendList) (dict : Option FriendDict) : Option Side :=
  match list with
  | .friends => dict.map fun dict => if own = some dict.fromId then .toIdUser else .fromIdUser
  | .sent => some .toIdUser
  | .incoming => some .fromIdUser

/-- `arrayUsers.append` and the completion. The view controller of the call is on the screen as long
as its session lasts. -/
def deliver (P : Platform) (c : Client) (call : Call) (users : Users) (app : App) : App :=
  let array := app.arrayUsers c call ++ [users]
  let app := { app with
    arrayUsers := Function.update app.arrayUsers c
      (Function.update (app.arrayUsers c) call array) }
  if app.currentUser c = some call.client.uid then
    loadImages P c array { app with
      usersArray := Function.update app.usersArray c
        (Function.update (app.usersArray c) call.list array) }
  else app

/-- The reply with the user of a record. -/
def userRead (P : Platform) (c : Client) (call : Call) (user : Option UserParams) (app : App) :
    App :=
  match user with
  | none => app
  | some user =>
    if matchesQuery call.query user.email (ownEmail P app c) then
      deliver P c call
        (match call.list with
          | .sent => { user.users with userId := none }
          | .friends | .incoming => user.users) app
    else app

/-- The reply of `getUsersFromDatabase`. A forced cast may fail. -/
def usersRead (P : Platform) (c : Client) (query : String) (directory : Option Directory)
    (app : App) : App :=
  match Accounts.getUsersFromDatabase query (ownEmail P app c)
      (Accounts.allUserSnapshot (directory.getD ∅)) with
  | none => app.trap c
  | some users => loadImages P c users { app with found := Function.update app.found c users }

/-- `didSelectItemAt` of `AddNewFriendsVC` and of the lists, with `URL(string:)!`. -/
def select (P : Platform) (c : Client) (users : Users) (app chosen : App) : App :=
  if P.parses users.userImage then chosen else app.trap c

/-! ## The program -/

def press (P : Platform) (c : Client) (p : Press) (e : Env) (app : App) :
    Option (App × List Command) :=
  match p with
  | .account p =>
    (Accounts.press P.toPlatform p (app.device c)).map fun (d, cmds) =>
      let app := app.setDevice c d
      (if p = .signOutPressed then app.dismiss c else app, cmds.map accountCommand)
  | p =>
    if (app.device c).trapped || !(app.device c).home then none
    else match p with
    | .account _ => none
    | .getUsersFromDatabase query => some (app, [.ask (.single .users (.usersRead query))])
    | .newFriendSelected i =>
      (app.found c)[i]?.map fun users =>
        (select P c users app { app with chosen := Function.update app.chosen c (some users) }, [])
    | .sendFrienRequestBtnPressed =>
      (app.chosen c).map fun users =>
        withPeer c users app fun uid user peer => sendFrienRequestBtnPressed c uid user peer e
    | .search list query => some (searchList c list query e app)
    | .didSelectItemAt list i =>
      (app.usersArray c list)[i]?.map fun users =>
        (select P c users app (if list = .incoming then
          { app with selected := Function.update app.selected c (some users) } else app), [])
    | .addUsertoFriendsBtnPressed =>
      (app.selected c).map fun users =>
        withPeer c users app fun uid user peer => addUsertoFriendsBtnPressed c uid user peer e

/-- A callback of the accounts. `SettingsVC` loads the picture of the profile. -/
def accountCallback (P : Platform) (c : Client) (cb : Accounts.Cb) (input : Input Accounts.Loc)
    (app : App) : App × List Command :=
  let (d, cmds) := Accounts.callback P.toPlatform cb input (app.device c)
  let d := if cb = .credentialsRead .setUserSettings ∧ P.parses d.user.image = false then
    { d with trapped := true } else d
  (app.setDevice c d, cmds.map accountCommand)

/-- A callback of the friends of `uid`. The second entry of a request is written for whoever is
signed in by then. -/
def friendCallback (P : Platform) (c : Client) (uid : UID) (cb : Friends.Cb) (input : Input Loc)
    (app : App) : App × List Command :=
  match cb, input with
  | .requestSend key toId _, .acked _ =>
    match app.currentUser c with
    | none => (app.trap c, [])
    | some fromId =>
      (app, friendCommands fromId
        [Friends.recipientsUserFriendRequestIntoDB ⟨fromId, c⟩ key toId .recipientAdded])
  | .userFriendAdded key fromId userName, .acked _ =>
    (app, friendCommands uid
      [Friends.recipientsUserFriendIntoDB key fromId (.recipientFriendAdded fromId userName)])
  | .recipientFriendAdded fromId userName, .acked _ =>
    (app, friendCommands uid [Friends.removeFriendRequestsFromDatabase uid fromId userName])
  | .removeOuter toId fromId userName, .childAdded _ =>
    (app, friendCommands uid [Friends.removeOuter toId fromId userName])
  | .removeInner toId fromId _, .childAdded key =>
    (app, friendCommands uid (Friends.removeInner toId fromId key))
  | .peerAdded call, .childAdded peer =>
    (app, friendCommands uid
      [.ask (.childAdded (Friends.friendRequestsWith call.client.uid peer) (.entryAdded call))])
  | .entryAdded call, .childAdded key =>
    (app, friendCommands uid [.ask (.single (call.list.record key) (.recordRead call))])
  | .recordRead call, .value (.friend (.friends key)) dict =>
    (app, friendCommands uid ((shownSide (app.currentUser c) call.list dict).toList.map fun side =>
      .ask (.value (.friends key) (.userRead call side))))
  | .recordRead call, .value (.friend (.friendRequest key)) _ =>
    (app, friendCommands uid ((shownSide (app.currentUser c) call.list none).toList.map fun side =>
      .ask (.value (.friendRequest key) (.userRead call side))))
  | .userRead call side, .value (.friend (.friends _)) dict =>
    (userRead P c call (dict.map fun dict => FriendDict.side dict side) app, [])
  | .userRead call side, .value (.friend (.friendRequest _)) dict =>
    (userRead P c call (dict.map fun dict => RequestDict.side dict side) app, [])
  | _, _ => (app, [])

def callback (P : Platform) (c : Client) (cb : Cb) (input : Input Loc) (app : App) :
    App × List Command :=
  if (app.device c).trapped then (app, [])
  else match cb, input with
  | .account cb, .stored ok => accountCallback P c cb (.stored ok) app
  | .account cb, .url url => accountCallback P c cb (.url url) app
  | .profileRead uid cb, .value .users directory =>
    accountCallback P c cb
      (.value (.users uid) (directory.bind fun directory => Directory.profile directory uid)) app
  | .usersRead query, .value .users directory => (usersRead P c query directory app, [])
  | .friend uid cb, input => friendCallback P c uid cb input app
  | _, _ => (app, [])

/-- The process ends, and with it everything in memory. -/
def die (c : Client) (app : App) : App :=
  { (app.setDevice c (Accounts.relaunched (app.device c))).dismiss c with
    arrayUsers := Function.update app.arrayUsers c fun _ => [] }

@[simps] def program (P : Platform) : Program Loc Client Cb Data App Action where
  act a e app := (press P a.client a.press e app).map fun (app, cmds) => (a.client, app, cmds)
  handle c _ cb input app := callback P c cb input app
  die := die

abbrev SState := State Loc Client Cb Data App Action

abbrev SEvent := Event Loc Client Cb Data Action

abbrev SLabel := Label Client Action

end FLChat.Sessions
