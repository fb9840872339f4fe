import FLChat.Messages.Model
import Mathlib.Data.Fintype.Basic

/-!
# Accounts

Signing in, signing up and out, the profile `users/<uid>` with its picture `profile_images/<uid>`,
and the settings that change it. `AppDelegate`, `LoginVC`, `HomeVC` and `SettingsVC` work on the
session of `Auth`, on the flag `isLoggedIn` of `UserDefaults` and on the singleton `User.instance`:
the first two outlive the process, the third does not.

`getUserCredentialsFromDatabase` unwraps seven fields of the profile. Where one is missing the
process ends: the device is trapped and does nothing until it is launched again.
-/

namespace FLChat.Accounts

open Realtime
open FLChat.Messages (Data UIImage)

abbrev UID := String

/-- A device. -/
abbrev Client := ℕ

/-! ## Profiles -/

/-- The fields of a profile. -/
inductive Field
  | phone
  | name
  | email
  | image
  | online
  | notificationOn
  | notificationSound
  deriving DecidableEq

instance : Fintype Field where
  elems := {.phone, .name, .email, .image, .online, .notificationOn, .notificationSound}
  complete f := by cases f <;> decide

/-- The value of a field. `other` is a list or a dictionary. -/
inductive Any
  | string (s : String)
  | bool (b : Bool)
  | number (n : ℤ)
  | other
  deriving DecidableEq

/-- `as? String`. -/
def Any.asString : Any → Option String
  | .string s => some s
  | .bool _ | .number _ | .other => none

/-- `as? Bool`, which takes the numbers 0 and 1 as well. -/
def Any.asBool : Any → Option Bool
  | .bool b => some b
  | .number n => if n = 0 then some false else if n = 1 then some true else none
  | .string _ | .other => none

/-- A dictionary with some of the fields. -/
abbrev Dict := Field → Option Any

/-- `updateChildValues` keeps the fields it is not given. -/
def Dict.updateChildValues (new old : Dict) : Dict := fun f => (new f).or (old f)

inductive Loc
  | users (uid : UID)
  deriving DecidableEq

instance : Schema Loc where
  Val _ := Dict
  path
    | .users uid => ["users", uid]
  merge _ := Dict.updateChildValues

/-- The singleton `User.instance`, with its placeholders. -/
structure User where
  name : String := "User name"
  image : String := "User image"
  phone : String := "User phone"
  email : String := "User email"
  online : Bool := true
  notificationOn : Bool := true
  notificationSoundOn : Bool := true
  deriving DecidableEq

def stringAt (value : Option Dict) (f : Field) : Option String :=
  (value.bind (· f)).bind Any.asString

def boolAt (value : Option Dict) (f : Field) : Option Bool := (value.bind (· f)).bind Any.asBool

/-- What `getUserCredentialsFromDatabase` makes of the reply. `none` is a forced unwrap of `nil`. -/
def credentials (value : Option Dict) : Option User := do
  let phone ← stringAt value .phone
  let name ← stringAt value .name
  let email ← stringAt value .email
  let image ← stringAt value .image
  let online ← boolAt value .online
  let notificationOn ← boolAt value .notificationOn
  let notificationSoundOn ← boolAt value .notificationSound
  some { name, image, phone, email, online, notificationOn, notificationSoundOn }

def userData (email phone name image : String) (online notificationOn notificationSound : Bool) :
    Dict
  | .phone => some (.string phone)
  | .name => some (.string name)
  | .email => some (.string email)
  | .image => some (.string image)
  | .online => some (.bool online)
  | .notificationOn => some (.bool notificationOn)
  | .notificationSound => some (.bool notificationSound)

/-- A dictionary with one field. -/
def Dict.single (f : Field) (v : Any) : Dict := fun f' => if f' = f then some v else none

def changeUserName (userName : String) : Dict := .single .name (.string userName)

def changeUserPhone (userPhone : String) : Dict := .single .phone (.string userPhone)

def changeUserImage (userImage : String) : Dict := .single .image (.string userImage)

def changeUsserNotificationSound (userNotificationSound : Bool) : Dict :=
  .single .notificationSound (.bool userNotificationSound)

def changeUserPushNotification (userPushNotification : Bool) : Dict :=
  .single .notificationOn (.bool userPushNotification)

/-! ## Devices -/

/-- What `setUserSettings` shows. -/
structure SettingsScreen where
  userNameLabel : String
  userPhoneLabel : String
  userImage : String
  switchValueSound : Bool
  switchValueNotification : Bool
  deriving DecidableEq

/-- A device: the session of `Auth`, the flag of `UserDefaults`, and what is in memory. `home` says
that `HomeVC` is presented. -/
structure Device where
  currentUser : Option UID
  isLoggedIn : Bool
  user : User := {}
  home : Bool := false
  settings : Option SettingsScreen := none
  trapped : Bool := false
  deriving DecidableEq

abbrev App := Client → Device

/-- What is outside of the sources: the e-mail of an account, the encoding of images, the string of
a download URL, and the picture `defaultImage` of the bundle. -/
structure Platform where
  email : UID → String
  jpegData : UIImage → Option Data
  absoluteString : DownloadURL → String
  defaultImage : UIImage
  isSome_defaultImage : (jpegData defaultImage).isSome

/-- What the caller of `getUserCredentialsFromDatabase` does afterwards: `LoginVC` and `AppDelegate`
go to `HomeVC`, `HomeVC` prints, and `SettingsVC` shows the settings. -/
inductive Response
  | goToHome
  | printed
  | setUserSettings
  deriving DecidableEq

/-- The callbacks, with what they capture. -/
inductive Cb
  | credentialsRead (completeResponce : Response)
  | imageStored (uid : UID) (email : String)
  | urlFetched (uid : UID) (email : String)
  | newImageStored (uid : UID)
  | newURLFetched (uid : UID)
  deriving DecidableEq

/-- What happens on a device. The first four are the completions of a sign-in that `Auth` accepted
for the account `uid`. -/
inductive Press
  | loginBtnPressed (uid : UID)
  | registrateUserAndLogIn (uid : UID)
  | facebookAuth (uid : UID)
  | didSignInFor (uid : UID)
  | signOutPressed
  | loginDidAppear
  | homeDidAppear
  | settingsDidAppear
  | changeNameBtnPressed (text : String)
  | changePhoneBtnPressed (text : String)
  | pushNotificationSoundBtnPressed (isOn : Bool)
  | pushNotificationBtnPressed (isOn : Bool)
  | didFinishPickingMediaWithInfo (image : UIImage)
  deriving DecidableEq

structure Action where
  client : Client
  press : Press

abbrev Command := Cmd Loc Cb Data

/-! ## `DataService` -/

def profileImagesPath (uid : UID) : Path := ["profile_images", uid]

def getUserCredentialsFromDatabase (completeResponce : Response) (d : Device) : List Command :=
  match d.currentUser with
  | none => []
  | some uid => [.ask (.single (.users uid) (.credentialsRead completeResponce))]

def updateUserIntoDatabaseWithUID (uid : UID) (userData : Dict) : Command :=
  .write (.update (.users uid) userData) none

/-- The default picture is uploaded first. -/
def registrationUserIntoDB (P : Platform) (uid : UID) (email : String) : List Command :=
  match P.jpegData P.defaultImage with
  | none => []
  | some uploadImage =>
    [.ask (.putData (profileImagesPath uid) uploadImage (.imageStored uid email))]

/-- The completion of `downloadURL` in `registrationUserIntoDB`, and `completedUserRegistration`:
without a URL nothing is written, and with one `HomeVC` is next. -/
def urlFetched (P : Platform) (uid : UID) (email : String) (url : Option DownloadURL) (d : Device) :
    Device × List Command :=
  match url with
  | none => (d, [])
  | some url =>
    ({ d with home := true },
      [updateUserIntoDatabaseWithUID uid (userData email d.user.phone d.user.name
        (P.absoluteString url) d.user.online d.user.notificationOn d.user.notificationSoundOn)])

/-! ## The view controllers -/

/-- `Auth` has signed in `uid`, and `setIsLoggedIn(value: true)`. -/
def Device.signIn (d : Device) (uid : UID) : Device :=
  { d with currentUser := some uid, isLoggedIn := true }

def loginBtnPressed (uid : UID) (d : Device) : Device × List Command :=
  let d := d.signIn uid
  if d.isLoggedIn then (d, getUserCredentialsFromDatabase .goToHome d) else (d, [])

def registrateUserAndLogIn (P : Platform) (uid : UID) (d : Device) : Device × List Command :=
  let d := d.signIn uid
  if d.isLoggedIn then (d, registrationUserIntoDB P uid (P.email uid)) else (d, [])

def facebookAuth (P : Platform) (uid : UID) (d : Device) : Device × List Command :=
  let d := d.signIn uid
  if d.isLoggedIn then (d, registrationUserIntoDB P uid (P.email uid)) else (d, [])

/-- The sign-in with Google: `sign(_:didSignInFor:withError:)`. -/
def didSignInFor (P : Platform) (uid : UID) (d : Device) : Device × List Command :=
  let d := d.signIn uid
  if d.currentUser ≠ none then (d, getUserCredentialsFromDatabase .goToHome d)
  else (d, registrationUserIntoDB P uid (P.email uid))

/-- `SettingsVC` goes away with `HomeVC`. -/
def signOutPressed (d : Device) : Device :=
  { d with currentUser := none, isLoggedIn := false, user := {}, home := false, settings := none }

/-- `LoginVC.viewDidAppear`. -/
def loginDidAppear (d : Device) : Device := if d.isLoggedIn then { d with home := true } else d

/-- `HomeVC.viewDidAppear`. -/
def homeDidAppear (d : Device) : List Command := getUserCredentialsFromDatabase .printed d

def setUserSettings (d : Device) : List Command :=
  getUserCredentialsFromDatabase .setUserSettings d

def User.settings (user : User) : SettingsScreen where
  userNameLabel := user.name
  userPhoneLabel := user.phone
  userImage := user.image
  switchValueSound := user.notificationSoundOn
  switchValueNotification := user.notificationOn

/-- The reply of `getUserCredentialsFromDatabase`. -/
def credentialsRead (completeResponce : Response) (value : Option Dict) (d : Device) : Device :=
  match credentials value with
  | none => { d with trapped := true }
  | some user =>
    match completeResponce with
    | .goToHome => { d with user, home := true }
    | .printed => { d with user }
    | .setUserSettings => { d with user, settings := some user.settings }

def checkTextFieldForEpties (textField defaultTitle : String) : String :=
  if textField = "" then defaultTitle else textField

/-- A change in `SettingsVC`: it is written and the settings are read again. -/
def changeUser (userData : Dict) (d : Device) : Device × List Command :=
  match d.currentUser with
  | none => ({ d with trapped := true }, [])
  | some uid => (d, updateUserIntoDatabaseWithUID uid userData :: setUserSettings d)

def changeNameBtnPressed (text : String) (d : Device) : Device × List Command :=
  changeUser (changeUserName (checkTextFieldForEpties text "User name")) d

def changePhoneBtnPressed (text : String) (d : Device) : Device × List Command :=
  changeUser (changeUserPhone (checkTextFieldForEpties text "User phone number")) d

def pushNotificationSoundBtnPressed (isOn : Bool) (d : Device) : Device × List Command :=
  changeUser (changeUsserNotificationSound isOn) d

def pushNotificationBtnPressed (isOn : Bool) (d : Device) : Device × List Command :=
  changeUser (changeUserPushNotification isOn) d

def uploadNewUserImageIntoDB (P : Platform) (image : UIImage) (d : Device) :
    Device × List Command :=
  match d.currentUser with
  | none => ({ d with trapped := true }, [])
  | some uid =>
    match P.jpegData image with
    | none => (d, [])
    | some uploadData =>
      (d, [.ask (.putData (profileImagesPath uid) uploadData (.newImageStored uid))])

/-- The completion of `downloadURL` in `uploadNewUserImageIntoDB`. -/
def newURLFetched (P : Platform) (uid : UID) (url : Option DownloadURL) (d : Device) :
    List Command :=
  match url with
  | none => []
  | some url =>
    updateUserIntoDatabaseWithUID uid (changeUserImage (P.absoluteString url)) :: setUserSettings d

/-! ## The program -/

/-- `SettingsVC` is presented over `HomeVC`, and `LoginVC` appears where that is not presented. -/
def press (P : Platform) (p : Press) (d : Device) : Option (Device × List Command) :=
  if d.trapped then none
  else match p with
  | .loginBtnPressed uid => some (loginBtnPressed uid d)
  | .registrateUserAndLogIn uid => some (registrateUserAndLogIn P uid d)
  | .facebookAuth uid => some (facebookAuth P uid d)
  | .didSignInFor uid => some (didSignInFor P uid d)
  | .loginDidAppear => if d.home then none else some (loginDidAppear d, [])
  | .signOutPressed => if d.home then some (signOutPressed d, []) else none
  | .homeDidAppear => if d.home then some (d, homeDidAppear d) else none
  | .settingsDidAppear => if d.home then some (d, setUserSettings d) else none
  | .changeNameBtnPressed text => if d.home then some (changeNameBtnPressed text d) else none
  | .changePhoneBtnPressed text => if d.home then some (changePhoneBtnPressed text d) else none
  | .pushNotificationSoundBtnPressed isOn =>
    if d.home then some (pushNotificationSoundBtnPressed isOn d) else none
  | .pushNotificationBtnPressed isOn =>
    if d.home then some (pushNotificationBtnPressed isOn d) else none
  | .didFinishPickingMediaWithInfo image =>
    if d.home then some (uploadNewUserImageIntoDB P image d) else none

/-- A callback. After a failed upload `downloadURL` is asked for all the same. -/
def callback (P : Platform) (cb : Cb) (input : Input Loc) (d : Device) : Device × List Command :=
  if d.trapped then (d, [])
  else match cb, input with
  | .credentialsRead completeResponce, .value (.users _) value =>
    (credentialsRead completeResponce value d, [])
  | .imageStored uid email, .stored _ =>
    (d, [.ask (.downloadURL (profileImagesPath uid) (.urlFetched uid email))])
  | .urlFetched uid email, .url url => urlFetched P uid email url d
  | .newImageStored uid, .stored _ =>
    (d, [.ask (.downloadURL (profileImagesPath uid) (.newURLFetched uid))])
  | .newURLFetched uid, .url url => (d, newURLFetched P uid url d)
  | _, _ => (d, [])

/-- A new process finds the session and the flag as they were. -/
def relaunched (d : Device) : Device where
  currentUser := d.currentUser
  isLoggedIn := d.isLoggedIn

@[simps] def program (P : Platform) : Program Loc Client Cb Data App Action where
  act a _ app := (press P a.press (app a.client)).map fun (d, cmds) =>
    (a.client, Function.update app a.client d, cmds)
  handle c _ cb input app :=
    let (d, cmds) := callback P cb input (app c)
    (Function.update app c d, cmds)
  die c app := Function.update app c (relaunched (app c))

abbrev AState := State Loc Client Cb Data App Action

abbrev AEvent := Event Loc Client Cb Data Action

abbrev ALabel := Label Client Action

end FLChat.Accounts
