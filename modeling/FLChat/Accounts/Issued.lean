import FLChat.Accounts.Profile

/-!
# What a device does

The presses and the callbacks, once for all proofs (`pressed_of_press`, `called_of_callback`), and
what they issue (`Issues`): writes of typed fields, reads of the profile of whoever is signed in,
and requests to the store.
-/

namespace FLChat.Accounts

open Realtime
open FLChat.Messages (Data UIImage)

variable {P : Platform} {s s' : AState} {l : ALabel} {c : Client} {uid : UID} {d d' : Device}
  {cmds : List Command} {p : Press} {cb : Cb} {input : Input Loc}

/-- A change of the profile in `SettingsVC`. -/
def Press.edits : Press → Bool
  | .changeNameBtnPressed _ | .changePhoneBtnPressed _ | .pushNotificationSoundBtnPressed _
  | .pushNotificationBtnPressed _ | .didFinishPickingMediaWithInfo _ => true
  | _ => false

/-- What a press does. -/
inductive Pressed (P : Platform) (d : Device) : Press → Device → List Command → Prop
  | logIn {p : Press} {uid : UID} (hp : p = .loginBtnPressed uid ∨ p = .didSignInFor uid) :
    Pressed P d p (d.signIn uid) (getUserCredentialsFromDatabase .goToHome (d.signIn uid))
  | register {p : Press} {uid : UID}
    (hp : p = .registrateUserAndLogIn uid ∨ p = .facebookAuth uid) :
    Pressed P d p (d.signIn uid) (registrationUserIntoDB P uid (P.email uid))
  | signOut (h : d.home = true) : Pressed P d .signOutPressed (signOutPressed d) []
  | launch (h : d.home = false) : Pressed P d .loginDidAppear (loginDidAppear d) []
  | load {p : Press} {k : Response} (hp : p = .homeDidAppear ∨ p = .settingsDidAppear)
    (h : d.home = true) :
    Pressed P d p d (getUserCredentialsFromDatabase k d)
  | change {p : Press} {dict : Dict} (hp : p.edits = true) (h : d.home = true)
    (hdict : WellTyped dict) :
    Pressed P d p (changeUser dict d).1 (changeUser dict d).2
  | pick {image : UIImage} (h : d.home = true) :
    Pressed P d (.didFinishPickingMediaWithInfo image) (uploadNewUserImageIntoDB P image d).1
      (uploadNewUserImageIntoDB P image d).2

theorem pressed_of_press (h : press P p d = some (d', cmds)) : Pressed P d p d' cmds := by
  unfold press at h
  split at h
  · cases h
  cases p with
  | loginBtnPressed uid =>
    cases h
    exact .logIn (.inl rfl)
  | didSignInFor uid =>
    cases h
    exact .logIn (.inr rfl)
  | registrateUserAndLogIn uid =>
    cases h
    exact .register (.inl rfl)
  | facebookAuth uid =>
    cases h
    exact .register (.inr rfl)
  | loginDidAppear =>
    simp only at h
    split at h
    · cases h
    · next hhome =>
      cases h
      exact .launch (Bool.eq_false_iff.2 hhome)
  | signOutPressed =>
    obtain ⟨hhome, he⟩ := Option.ite_none_right_eq_some.1 h
    cases he
    exact .signOut hhome
  | homeDidAppear =>
    obtain ⟨hhome, he⟩ := Option.ite_none_right_eq_some.1 h
    cases he
    exact .load (.inl rfl) hhome
  | settingsDidAppear =>
    obtain ⟨hhome, he⟩ := Option.ite_none_right_eq_some.1 h
    cases he
    exact .load (.inr rfl) hhome
  | changeNameBtnPressed text =>
    obtain ⟨hhome, he⟩ := Option.ite_none_right_eq_some.1 h
    obtain ⟨rfl, rfl⟩ := Prod.mk.inj (Option.some.inj he)
    exact .change rfl hhome (wellTyped_single rfl)
  | changePhoneBtnPressed text =>
    obtain ⟨hhome, he⟩ := Option.ite_none_right_eq_some.1 h
    obtain ⟨rfl, rfl⟩ := Prod.mk.inj (Option.some.inj he)
    exact .change rfl hhome (wellTyped_single rfl)
  | pushNotificationSoundBtnPressed isOn =>
    obtain ⟨hhome, he⟩ := Option.ite_none_right_eq_some.1 h
    obtain ⟨rfl, rfl⟩ := Prod.mk.inj (Option.some.inj he)
    exact .change rfl hhome (wellTyped_single rfl)
  | pushNotificationBtnPressed isOn =>
    obtain ⟨hhome, he⟩ := Option.ite_none_right_eq_some.1 h
    obtain ⟨rfl, rfl⟩ := Prod.mk.inj (Option.some.inj he)
    exact .change rfl hhome (wellTyped_single rfl)
  | didFinishPickingMediaWithInfo image =>
    obtain ⟨hhome, he⟩ := Option.ite_none_right_eq_some.1 h
    obtain ⟨rfl, rfl⟩ := Prod.mk.inj (Option.some.inj he)
    exact .pick hhome

/-- What a callback does. -/
inductive Called (P : Platform) (d : Device) : Cb → Input Loc → Device → List Command → Prop
  | ignored {cb : Cb} {input : Input Loc} : Called P d cb input d []
  | credentialsRead {k : Response} {uid : UID} {value : Option Dict} :
    Called P d (.credentialsRead k) (.value (.users uid) value) (credentialsRead k value d) []
  | imageStored {uid : UID} {email : String} {ok : Bool} :
    Called P d (.imageStored uid email) (.stored ok) d
      [.ask (.downloadURL (profileImagesPath uid) (.urlFetched uid email))]
  | urlFetched {uid : UID} {email : String} {url : DownloadURL} :
    Called P d (.urlFetched uid email) (.url (some url)) { d with home := true }
      [updateUserIntoDatabaseWithUID uid (userData email d.user.phone d.user.name
        (P.absoluteString url) d.user.online d.user.notificationOn d.user.notificationSoundOn)]
  | newImageStored {uid : UID} {ok : Bool} :
    Called P d (.newImageStored uid) (.stored ok) d
      [.ask (.downloadURL (profileImagesPath uid) (.newURLFetched uid))]
  | newURLFetched {uid : UID} {url : DownloadURL} :
    Called P d (.newURLFetched uid) (.url (some url)) d
      (updateUserIntoDatabaseWithUID uid (changeUserImage (P.absoluteString url)) ::
        setUserSettings d)

theorem called_of_callback (h : callback P cb input d = (d', cmds)) :
    Called P d cb input d' cmds := by
  unfold callback at h
  split at h
  · cases h
    exact .ignored
  split at h
  · cases h
    exact .credentialsRead
  · cases h
    exact .imageStored
  · next url =>
    cases url <;> cases h
    · exact .ignored
    · exact .urlFetched
  · cases h
    exact .newImageStored
  · next url =>
    cases url <;> cases h
    · exact .ignored
    · exact .newURLFetched
  · cases h
    exact .ignored

/-! ## The session and the singleton -/

/-- A callback leaves the session, and only the reply with a profile changes the singleton. -/
theorem Called.user (h : Called P d cb input d' cmds) : d'.currentUser = d.currentUser ∧
    (d'.user = d.user ∨ ∃ k uid value, cb = .credentialsRead k ∧ input = .value (.users uid) value ∧
      credentials value = some d'.user) := by
  cases h with
  | ignored | imageStored | urlFetched | newImageStored | newURLFetched => exact ⟨rfl, .inl rfl⟩
  | @credentialsRead k uid value =>
    unfold Accounts.credentialsRead
    split
    · exact ⟨rfl, .inl rfl⟩
    · next user hread => cases k <;> exact ⟨rfl, .inr ⟨_, uid, value, rfl, rfl, hread⟩⟩

/-- The account that a press signs in. -/
def Press.signsIn : Press → Option UID
  | .loginBtnPressed uid | .registrateUserAndLogIn uid | .facebookAuth uid | .didSignInFor uid =>
    some uid
  | _ => none

/-- Only signing in and out changes the session and the singleton. -/
theorem Pressed.user (h : Pressed P d p d' cmds) :
    (p ≠ .signOutPressed ∧ d'.user = d.user ∧
      (d'.currentUser = d.currentUser ∨ ∃ uid, p.signsIn = some uid ∧ d'.currentUser = some uid)) ∨
    p = .signOutPressed ∧ d'.user = {} ∧ d'.currentUser = none := by
  cases h with
  | logIn hp =>
    rcases hp with rfl | rfl <;> exact .inl ⟨by simp, rfl, .inr ⟨_, rfl, rfl⟩⟩
  | register hp =>
    rcases hp with rfl | rfl <;> exact .inl ⟨by simp, rfl, .inr ⟨_, rfl, rfl⟩⟩
  | signOut => exact .inr ⟨rfl, rfl, rfl⟩
  | launch =>
    unfold loginDidAppear
    split <;> exact .inl ⟨by simp, rfl, .inl rfl⟩
  | load hp => rcases hp with rfl | rfl <;> exact .inl ⟨by simp, rfl, .inl rfl⟩
  | change hp =>
    refine .inl ⟨fun he => by simp [he, Press.edits] at hp, ?_⟩
    unfold changeUser
    split <;> exact ⟨rfl, .inl rfl⟩
  | pick =>
    refine .inl ⟨by simp, ?_⟩
    unfold uploadNewUserImageIntoDB
    split
    · exact ⟨rfl, .inl rfl⟩
    · split <;> exact ⟨rfl, .inl rfl⟩

/-! ## The commands -/

/-- The account whose profile a callback is about to change. -/
def Cb.account : Cb → Option UID
  | .credentialsRead _ => none
  | .imageStored uid _ | .urlFetched uid _ | .newImageStored uid | .newURLFetched uid => some uid

/-- A command of a device on which `user` is signed in. -/
inductive Issues (user : Option UID) : Command → Prop
  | write {uid : UID} {dict : Dict} (h : WellTyped dict) :
    Issues user (.write (.update (.users uid) dict) none)
  | read {uid : UID} {k : Response} (h : user = some uid) :
    Issues user (.ask (.single (.users uid) (.credentialsRead k)))
  | upload {uid : UID} {data : Data} {cb : Cb} (h : cb.account = some uid) :
    Issues user (.ask (.putData (profileImagesPath uid) data cb))
  | url {uid : UID} {cb : Cb} (h : cb.account = some uid) :
    Issues user (.ask (.downloadURL (profileImagesPath uid) cb))

theorem issues_getUserCredentialsFromDatabase {k : Response} {cmd : Command}
    (h : cmd ∈ getUserCredentialsFromDatabase k d) : Issues d.currentUser cmd := by
  unfold getUserCredentialsFromDatabase at h
  split at h
  · cases h
  · next uid hu =>
    cases List.mem_singleton.1 h
    exact .read hu

@[simp] theorem changeUser_currentUser (dict : Dict) (d : Device) :
    (changeUser dict d).1.currentUser = d.currentUser := by
  unfold changeUser
  split <;> rfl

@[simp] theorem uploadNewUserImageIntoDB_currentUser (image : UIImage) :
    (uploadNewUserImageIntoDB P image d).1.currentUser = d.currentUser := by
  unfold uploadNewUserImageIntoDB
  split
  · rfl
  · split <;> rfl

theorem Pressed.issues (h : Pressed P d p d' cmds) : ∀ cmd ∈ cmds, Issues d'.currentUser cmd := by
  intro cmd hcmd
  cases h with
  | logIn | load => exact issues_getUserCredentialsFromDatabase hcmd
  | register =>
    unfold registrationUserIntoDB at hcmd
    split at hcmd
    · cases hcmd
    · cases List.mem_singleton.1 hcmd
      exact .upload rfl
  | signOut | launch => cases hcmd
  | change _ _ hdict =>
    rw [changeUser_currentUser]
    unfold changeUser at hcmd
    split at hcmd
    · cases hcmd
    · rcases List.mem_cons.1 hcmd with rfl | hcmd
      · exact .write hdict
      · exact issues_getUserCredentialsFromDatabase hcmd
  | pick =>
    unfold uploadNewUserImageIntoDB at hcmd
    split at hcmd
    · cases hcmd
    · split at hcmd
      · cases hcmd
      · cases List.mem_singleton.1 hcmd
        exact .upload rfl

theorem Called.issues (h : Called P d cb input d' cmds) :
    ∀ cmd ∈ cmds, Issues d'.currentUser cmd := by
  intro cmd hcmd
  cases h with
  | ignored | credentialsRead => cases hcmd
  | imageStored | newImageStored =>
    cases List.mem_singleton.1 hcmd
    exact .url rfl
  | urlFetched =>
    cases List.mem_singleton.1 hcmd
    exact .write (userData_complete _ _ _ _ _ _ _).wellTyped
  | newURLFetched =>
    rcases List.mem_cons.1 hcmd with rfl | hcmd
    · exact .write (wellTyped_single rfl)
    · exact issues_getUserCredentialsFromDatabase hcmd

/-! ## The steps of the program -/

theorem pressed_of_act {a : Action} {e : Env} {app app' : App}
    (h : (program P).act a e app = some (c, app', cmds)) :
    ∃ d', c = a.client ∧ app' = Function.update app c d' ∧ Pressed P (app c) a.press d' cmds := by
  obtain ⟨⟨d', cmds'⟩, hpress, he⟩ := Option.map_eq_some_iff.1 h
  cases he
  exact ⟨d', rfl, rfl, pressed_of_press hpress⟩

theorem called_of_handle {e : Env} {app app' : App}
    (h : (program P).handle c e cb input app = (app', cmds)) :
    ∃ d', app' = Function.update app c d' ∧ Called P (app c) cb input d' cmds := by
  cases h
  exact ⟨_, rfl, called_of_callback rfl⟩

/-- Writes are of typed fields and have no completion, requests are of the three kinds, and nothing
is observed. -/
structure Plain (s : AState) : Prop where
  writes : ∀ w ∈ s.writes, Typed w.op ∧ w.completion = none
  asks : ∀ x ∈ s.asks, ∃ user, Issues user (.ask x.2)
  childObs : s.childObs = []
  valueObs : s.valueObs = []

theorem Plain.typed (h : Plain s) : ∀ w ∈ s.writes, Typed w.op := fun w hw => (h.writes w hw).1

theorem Plain.initial (h : Initial s) : Plain s where
  writes w hw := by simp [h.writes] at hw
  asks x hx := by simp [h.asks] at hx
  childObs := h.childObs
  valueObs := h.valueObs

theorem Plain.step (h : Plain s) (hs : Transition (program P) s l s') : Plain s' := by
  -- a press and a callback issue commands of a device, everything else issues none
  have issue : ∀ {c d' cmds}, (∀ cmd ∈ cmds, Issues d' cmd) →
      (∀ w ∈ s.writes ++ newWrites c cmds, Typed w.op ∧ w.completion = none) ∧
        ∀ x ∈ s.asks ++ newAsks c cmds, ∃ user, Issues user (.ask x.2) := by
    intro c user cmds hissues
    constructor
    · intro w hw
      rcases List.mem_append.1 hw with hw | hw
      · exact h.writes w hw
      · obtain ⟨-, hcmd⟩ := mem_newWrites.1 hw
        obtain ⟨c', op, completion⟩ := w
        cases hissues _ hcmd with
        | write hdict => exact ⟨hdict, rfl⟩
    · intro x hx
      rcases List.mem_append.1 hx with hx | hx
      · exact h.asks x hx
      · exact ⟨user, hissues _ (mem_newAsks.1 hx).2⟩
  cases hs with
  | press hkey hact =>
    obtain ⟨d', -, -, hp⟩ := pressed_of_act hact
    obtain ⟨hwrites, hasks⟩ := issue hp.issues
    exact ⟨hwrites, hasks, h.childObs, h.valueObs⟩
  | run hkey ht hrun =>
    obtain ⟨d', -, hc⟩ := called_of_handle hrun
    obtain ⟨hwrites, hasks⟩ := issue hc.issues
    exact ⟨hwrites, hasks, h.childObs, h.valueObs⟩
  | apply | reject =>
    exact ⟨fun w hw => h.writes w (List.mem_of_mem_eraseIdx hw), h.asks, h.childObs, h.valueObs⟩
  | @serve i c a ok ha =>
    obtain ⟨user, hi⟩ := h.asks _ (List.mem_of_getElem? ha)
    have hobs : a.childObserver c = [] ∧ a.valueObserver c = [] := by
      cases hi <;> exact ⟨rfl, rfl⟩
    refine ⟨h.writes, fun x hx => h.asks x (List.mem_of_mem_eraseIdx hx), ?_, ?_⟩
    · rw [State.served_childObs, hobs.1, h.childObs]
      rfl
    · rw [State.served_valueObs, hobs.2, h.valueObs]
      rfl
  | die =>
    refine ⟨fun w hw => h.writes w (List.mem_filter.1 hw).1,
      fun x hx => h.asks x (List.mem_filter.1 hx).1, ?_, ?_⟩
    · rw [State.died_childObs, h.childObs]
      rfl
    · rw [State.died_valueObs, h.valueObs]
      rfl

theorem Plain.of_reaches {ok : AState → ALabel → Prop} (hs : Initial s)
    (h : Reaches (Realtime.step (program P)) ok s s') : Plain s' :=
  h.invariant (.initial hs) fun ih _ hstep => ih.step (transition_of_step hstep)

end FLChat.Accounts
