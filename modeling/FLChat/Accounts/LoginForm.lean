import FLChat.Accounts.Home
import FLChat.Realtime.Relabel

/-!
# The login form

The accounts take the sign-ins that `Auth` accepted. Here is how `LoginVC` gets there: its two fields,
what it has asked of `Auth` and of the SDK of Facebook, and its alerts. Answers come in any order. A
sign-in that fails because there is no such user raises an alert that offers a new account, and what
that registers is what the fields hold by then.

A view controller presents one other at a time. An alert is not shown over `HomeVC` therefore, and
while an alert is shown the segue to `HomeVC` does nothing. But for this, every run of the form is a
run of the accounts (`reaches_accounts`).
-/

namespace FLChat.Accounts

open Realtime
open FLChat.Messages (Data)

def NOT_FIND_THIS_USER : String :=
  "There is no user record corresponding to this identifier. The user may have been deleted."

def PASSWORD_LESS : String := "The password must be 6 characters long or more."

def EMAIL_LESS : String := "The email must be 6 characters long or more."

def DO_YOU_NEED_NEW_ACCOUNT : String := "Do you want to create a new account?"

/-- An alert of `LoginVC`. `customErrors` has the buttons "Yes" and "Try again". -/
inductive Alert
  | standartErrors (message : String)
  | customErrors (message : String)
  deriving DecidableEq

/-- What `Auth` was asked, and with `facebookLogin` the SDK of Facebook. -/
inductive Call
  | signIn (email password : String)
  | createUser (email password : String)
  | facebookLogin
  | facebookAuth
  | googleAuth
  deriving DecidableEq

/-- What a completion is called with. -/
inductive Answer
  | user (uid : UID)
  | token
  | isCancelled
  | error (localizedDescription : String)
  deriving DecidableEq

/-- The fields, the alert that is shown, and what was not yet answered. -/
structure LoginForm where
  emailField : String := ""
  passwordField : String := ""
  alert : Option Alert := none
  calls : List Call := []

namespace LoginForm

/-- What is outside of the sources, with the number of characters of a text. -/
structure Platform extends Accounts.Platform where
  count : String → ℕ
  count_empty : count "" = 0

/-- A callback of the accounts. `toLogin` says that `LoginVC` is called back when it is done. -/
structure Cb where
  cb : Accounts.Cb
  toLogin : Bool
  deriving DecidableEq

/-- What happens on a device. Each call is answered once. With `didSignInFor` the SDK of Google is
done, and `other` is what the accounts take as it is. -/
inductive Press
  | editEmail (text : String)
  | editPassword (text : String)
  | loginBtnPressed
  | facebookBtnPressed
  | didSignInFor (authentication : Bool)
  | answered (call : Call) (answer : Answer)
  | yes
  | tryAgain
  | ok
  | other (p : Accounts.Press)
  deriving DecidableEq

structure Action where
  client : Client
  press : Press

structure App where
  device : Accounts.App
  form : Client → LoginForm

abbrev Command := Cmd Loc Cb Data

/-! ## `LoginVC` -/

/-- `LoginVC` presents nothing, so its fields and buttons take touches. -/
def front (d : Device) (f : LoginForm) : Bool := !d.home && f.alert.isNone

def present (d : Device) (alert : Alert) (f : LoginForm) : LoginForm :=
  if f.front d then { f with alert := some alert } else f

def standartErrors (d : Device) (message : String) (f : LoginForm) : LoginForm :=
  f.present d (.standartErrors message)

def customErrors (d : Device) (message : String) (f : LoginForm) : LoginForm :=
  f.present d (.customErrors message)

/-- A step of the accounts from `d` to `d'` with its `performSegue`: under an alert it is not
performed. -/
def performSegue (f : LoginForm) (d d' : Device) : Device :=
  { d' with home := d'.home && (d.home || f.alert.isNone) }

def clearEmailAndPassFieldsAfterLogin (f : LoginForm) : LoginForm :=
  { f with emailField := "", passwordField := "" }

def call (f : LoginForm) (call : Call) : LoginForm := { f with calls := f.calls ++ [call] }

/-- What the accounts issue. -/
def issued (toLogin : Bool) (cmds : List Accounts.Command) : List Command :=
  cmds.map (Cmd.map (⟨·, toLogin⟩))

def completed (toLogin : Bool) (f : LoginForm) (r : Device × List Accounts.Command) :
    Device × LoginForm × List Command :=
  (r.1, f, issued toLogin r.2)

/-- The completion of `signIn(withEmail:password:)` with an error. -/
def signInFailed (d : Device) (localizedDescription : String) (f : LoginForm) : LoginForm :=
  if localizedDescription = NOT_FIND_THIS_USER then
    f.customErrors d (localizedDescription ++ " " ++ DO_YOU_NEED_NEW_ACCOUNT)
  else f.standartErrors d localizedDescription

/-- The completions. The errors of Google are printed. -/
def answered (P : Platform) (d : Device) (f : LoginForm) :
    Call → Answer → Option (Device × LoginForm × List Command)
  | .signIn .., .user uid => some (completed true f (Accounts.loginBtnPressed uid d))
  | .signIn .., .error description => some (d, f.signInFailed d description, [])
  | .createUser .., .user uid =>
    some (completed true f (registrateUserAndLogIn P.toPlatform uid d))
  | .facebookAuth, .user uid => some (completed true f (facebookAuth P.toPlatform uid d))
  | .createUser .., .error description | .facebookAuth, .error description
  | .facebookLogin, .error description => some (d, f.standartErrors d description, [])
  | .facebookLogin, .isCancelled => some (d, f, [])
  | .facebookLogin, .token => some (d, f.call .facebookAuth, [])
  | .googleAuth, .user uid => some (completed false f (Accounts.didSignInFor P.toPlatform uid d))
  | .googleAuth, .error _ => some (d, f, [])
  | _, _ => none

/-- The handler of "Yes", after which the alert is gone. -/
def yes (P : Platform) (d : Device) (f : LoginForm) : LoginForm :=
  let f := { f with alert := none }
  if P.count f.passwordField < 6 then f.standartErrors d PASSWORD_LESS
  else if P.count f.emailField < 6 then f.standartErrors d EMAIL_LESS
  else f.call (.createUser f.emailField f.passwordField)

/-- What else happens on a device: `LoginVC` appears, or `HomeVC` and `SettingsVC` are used. -/
def other (P : Platform) (d : Device) (f : LoginForm) :
    Accounts.Press → Option (Device × LoginForm × List Command)
  | .loginBtnPressed _ | .registrateUserAndLogIn _ | .facebookAuth _ | .didSignInFor _ => none
  | p => (Accounts.press P.toPlatform p d).map fun (d', cmds) =>
    (f.performSegue d d', f, issued false cmds)

def press (P : Platform) (p : Press) (d : Device) (f : LoginForm) :
    Option (Device × LoginForm × List Command) :=
  if d.trapped then none
  else match p with
  | .editEmail text => if f.front d then some (d, { f with emailField := text }, []) else none
  | .editPassword text => if f.front d then some (d, { f with passwordField := text }, []) else none
  | .loginBtnPressed =>
    if f.front d then some (d, f.call (.signIn f.emailField f.passwordField), []) else none
  | .facebookBtnPressed => if f.front d then some (d, f.call .facebookLogin, []) else none
  | .didSignInFor authentication =>
    some (d, if authentication then f.call .googleAuth else f, [])
  | .answered call answer =>
    if call ∈ f.calls then answered P d { f with calls := f.calls.erase call } call answer else none
  | .yes =>
    match f.alert with
    | some (.customErrors _) => some (d, f.yes P d, [])
    | _ => none
  | .tryAgain =>
    match f.alert with
    | some (.customErrors _) => some (d, { f with alert := none }, [])
    | _ => none
  | .ok =>
    match f.alert with
    | some (.standartErrors _) => some (d, { f with alert := none }, [])
    | _ => none
  | .other p => f.other P d p

/-- The callback is the last of a sign-in or a registration, and that succeeded. -/
def completes (cb : Accounts.Cb) (input : Input Loc) : Bool :=
  match cb, input with
  | .credentialsRead .goToHome, .value (.users _) value => (credentials value).isSome
  | .urlFetched .., .url url => url.isSome
  | _, _ => false

/-- `LoginVC` clears its fields before it goes to `HomeVC`. -/
def callback (P : Platform) (cb : Cb) (input : Input Loc) (d : Device) (f : LoginForm) :
    Device × LoginForm × List Command :=
  let (d', cmds) := Accounts.callback P.toPlatform cb.cb input d
  (f.performSegue d d',
    if !d.trapped && cb.toLogin && completes cb.cb input then f.clearEmailAndPassFieldsAfterLogin
    else f,
    issued cb.toLogin cmds)

def App.set (app : App) (c : Client) (d : Device) (f : LoginForm) : App :=
  ⟨Function.update app.device c d, Function.update app.form c f⟩

@[simps] def program (P : Platform) : Program Loc Client Cb Data App Action where
  act a _ app := (press P a.press (app.device a.client) (app.form a.client)).map
    fun (d, f, cmds) => (a.client, app.set a.client d f, cmds)
  handle c _ cb input app :=
    let (d, f, cmds) := callback P cb input (app.device c) (app.form c)
    (app.set c d f, cmds)
  die c app := app.set c (relaunched (app.device c)) {}

abbrev LState := State Loc Client Cb Data App Action

abbrev LEvent := Event Loc Client Cb Data Action

abbrev LLabel := Label Client Action

variable {P : Platform} {d d' d₁ : Device} {f f' : LoginForm} {c : Client} {app app' : App}
  {acc : Accounts.App} {cmds : List Accounts.Command} {toLogin : Bool} {s₀ s : LState}

/-! ## Answers -/

/-- What an answer does. -/
inductive Answered (P : Platform) (d : Device) (f : LoginForm) :
    Call → Answer → Device → LoginForm → List Command → Prop
  | signedIn {call : Call} {uid : UID} {p : Accounts.Press} {d' : Device}
    {cmds : List Accounts.Command} (toLogin : Bool) (hp : p.signsIn = some uid)
    (h : d.trapped = false → Accounts.press P.toPlatform p d = some (d', cmds)) :
    Answered P d f call (.user uid) d' f (issued toLogin cmds)
  | unknownUser {email password : String} :
    Answered P d f (.signIn email password) (.error NOT_FIND_THIS_USER) d
      (f.customErrors d (NOT_FIND_THIS_USER ++ " " ++ DO_YOU_NEED_NEW_ACCOUNT)) []
  | failed {call : Call} {description : String} :
    Answered P d f call (.error description) d (f.standartErrors d description) []
  | token : Answered P d f .facebookLogin .token d (f.call .facebookAuth) []
  | ignored {call : Call} {answer : Answer} : Answered P d f call answer d f []

theorem answered_of_eq {call : Call} {answer : Answer} {cmds : List Command}
    (h : answered P d f call answer = some (d', f', cmds)) :
    Answered P d f call answer d' f' cmds := by
  unfold answered at h
  split at h
  · next uid =>
    cases h
    exact .signedIn true (p := .loginBtnPressed uid) rfl fun ht => by simp [Accounts.press, ht]
  · next description =>
    cases h
    unfold signInFailed
    split
    · next hdescription =>
      rw [hdescription]
      exact .unknownUser
    · exact .failed
  · next uid =>
    cases h
    exact .signedIn true (p := .registrateUserAndLogIn uid) rfl fun ht => by simp [Accounts.press, ht]
  · next uid =>
    cases h
    exact .signedIn true (p := .facebookAuth uid) rfl fun ht => by simp [Accounts.press, ht]
  · cases h
    exact .failed
  · cases h
    exact .failed
  · cases h
    exact .failed
  · cases h
    exact .ignored
  · cases h
    exact .token
  · next uid =>
    cases h
    exact .signedIn false (p := .didSignInFor uid) rfl fun ht => by simp [Accounts.press, ht]
  · cases h
    exact .ignored
  · cases h

/-- What else happens is a press of the accounts. -/
theorem eq_of_other {p : Accounts.Press} {cmds : List Command}
    (h : f.other P d p = some (d', f', cmds)) :
    ∃ d₁ cmds₁, p.signsIn = none ∧ Accounts.press P.toPlatform p d = some (d₁, cmds₁) ∧ f' = f ∧
      d' = f.performSegue d d₁ ∧ cmds = issued false cmds₁ := by
  cases p with
  | loginBtnPressed | registrateUserAndLogIn | facebookAuth | didSignInFor => cases h
  | _ =>
    obtain ⟨⟨d₁, cmds₁⟩, hpress, he⟩ := Option.map_eq_some_iff.1 h
    cases he
    exact ⟨d₁, cmds₁, rfl, hpress, rfl, rfl, rfl⟩

/-! ## A component of it: the accounts -/

/-- The devices are the same, but that `HomeVC` may not be presented on `d`. -/
structure SameButHome (d d₁ : Device) : Prop where
  same : d₁ = { d with home := d₁.home }
  home : d.home = true → d₁.home = true

def Sees (app : App) (acc : Accounts.App) : Prop := ∀ c, SameButHome (app.device c) (acc c)

namespace SameButHome

theorem refl (d : Device) : SameButHome d d := ⟨rfl, id⟩

end SameButHome

theorem Sees.set (h : Sees app acc) (hc : SameButHome d d₁) :
    Sees (app.set c d f) (Function.update acc c d₁) := by
  intro c'
  by_cases hc' : c' = c
  · subst hc'
    simpa [App.set] using hc
  · simpa [App.set, hc'] using h c'

/-- To the accounts, forgetting what is called back. -/
abbrev forget (P : Platform) : Projection (program P) (Accounts.program P.toPlatform) :=
  .relabel _ _ Cb.cb Sees

/-- The state of the accounts that a state of the form starts from, with nothing in flight. -/
def accountState (s : LState) : AState where
  tree := s.tree
  objects := s.objects
  writes := []
  asks := []
  tasks := []
  childObs := []
  valueObs := []
  issued := s.issued
  log := []
  app := s.app.device

theorem shows_accountState (hs : Initial s) : (forget P).Shows s (accountState s) where
  tree := rfl
  objects := rfl
  writes := by rw [hs.writes]; rfl
  asks := by rw [hs.asks]; rfl
  childObs := by rw [hs.childObs]; rfl
  valueObs := by rw [hs.valueObs]; rfl
  issued := List.Subset.refl _
  tasks := ⟨[], by rw [hs.tasks]; rfl⟩
  sees c := .refl _

def sdk : Platform := { Accounts.sdk with count := String.length, count_empty := rfl }

def start : LState where
  tree := ∅
  objects := fun _ => none
  writes := []
  asks := []
  tasks := []
  childObs := []
  valueObs := []
  issued := []
  log := []
  app := ⟨fun _ => { currentUser := none, isLoggedIn := false }, fun _ => {}⟩

/-- Alice signs in without an account, and says yes to one. -/
def signingUp : List LLabel := [
  .press ⟨0, .editEmail "alice@mail"⟩ ⟨"a", 0⟩, .press ⟨0, .editPassword "secret"⟩ ⟨"b", 1⟩,
  .press ⟨0, .loginBtnPressed⟩ ⟨"c", 2⟩,
  .press ⟨0, .answered (.signIn "alice@mail" "secret") (.error NOT_FIND_THIS_USER)⟩ ⟨"d", 3⟩,
  .press ⟨0, .yes⟩ ⟨"e", 4⟩,
  .press ⟨0, .answered (.createUser "alice@mail" "secret") (.user "alice")⟩ ⟨"f", 5⟩,
  .serve 0 true, .run 0 ⟨"g", 6⟩, .serve 0 true, .run 0 ⟨"h", 7⟩]

end LoginForm

end FLChat.Accounts
