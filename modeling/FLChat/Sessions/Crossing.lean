import FLChat.Sessions.Issued

/-!
# Whose profile is in the singleton

`SignOutPressed` resets `User.instance`, so that nothing of an account is left for the next one. But
a reply of `getUserCredentialsFromDatabase` fills it for whoever asked, however long ago, and a
sign-in does not reset it. As long as each reply arrives in the session that asked for it and each
session begins with the defaults (`SameSession`), what is in the singleton was read from the profile
of whoever is signed in, and so is what is written from it (`ownWrites_of_reaches`). A reply that
arrives in the next session is copied into the profile of the next account (`not_ownWrites`).
-/

namespace FLChat.Sessions

open Realtime
open FLChat.Accounts (UID Dict Device userData)
open FLChat.Friends (Users RequestDict FriendDict)

variable {P : Platform} {s₀ s s' : SState} {l : SLabel} {c : Client} {uid : UID}
  {user : Accounts.User} {log log' : List SEvent} {op : Op Loc} {app app' : App}

/-- A reply with the profile of `uid` said so on `c`. -/
def ReadFrom (log : List SEvent) (c : Client) (uid : UID) (user : Accounts.User) : Prop :=
  ∃ k directory e, .ran ⟨c, .profileRead uid (.credentialsRead k), .value .users directory⟩ e ∈ log ∧
    Accounts.credentials (directory.bind (Directory.profile · uid)) = some user

/-- The built-in default, or read from the profile of `uid`. -/
def Own (log : List SEvent) (c : Client) (uid : UID) (user : Accounts.User) : Prop :=
  user = {} ∨ ReadFrom log c uid user

theorem Own.mono (h : Own log c uid user) (hlog : ∀ ev ∈ log, ev ∈ log') : Own log' c uid user :=
  h.imp_right fun ⟨k, directory, e, hev, hread⟩ => ⟨k, directory, e, hlog _ hev, hread⟩

/-- What `registrationUserIntoDB`, `getParamsUserFrom` of a sender and `getParamsUserTo` of the one
who accepts take from the singleton is the account's own. -/
structure OwnWrite (log : List SEvent) (c : Client) (op : Op Loc) : Prop where
  registration : ∀ uid email phone name image online notificationOn notificationSound,
    op = .update .users (Directory.single uid
      (userData email phone name image online notificationOn notificationSound)) →
    ∃ user, Own log c uid user ∧ phone = user.phone ∧ name = user.name ∧ online = user.online ∧
      notificationOn = user.notificationOn ∧ notificationSound = user.notificationSoundOn
  fromIdUser : ∀ key (dict : RequestDict), op = .update (.friend (.friendRequest key)) dict →
    ∃ user, Own log c dict.fromId user ∧ dict.fromIdUser = params dict.fromId user
  toIdUser : ∀ key (dict : FriendDict), op = .update (.friend (.friends key)) dict →
    ∃ user, Own log c dict.toId user ∧ dict.toIdUser = params dict.toId user

theorem OwnWrite.mono (h : OwnWrite log c op) (hlog : ∀ ev ∈ log, ev ∈ log') :
    OwnWrite log' c op where
  registration uid email phone name image online notificationOn notificationSound hop := by
    obtain ⟨user, hown, he⟩ := h.registration _ _ _ _ _ _ _ _ hop
    exact ⟨user, hown.mono hlog, he⟩
  fromIdUser key dict hop := by
    obtain ⟨user, hown, he⟩ := h.fromIdUser key dict hop
    exact ⟨user, hown.mono hlog, he⟩
  toIdUser key dict hop := by
    obtain ⟨user, hown, he⟩ := h.toIdUser key dict hop
    exact ⟨user, hown.mono hlog, he⟩

/-! ## Sessions -/

def Press.signsIn : Press → Option UID
  | .account p => Accounts.Press.signsIn p
  | _ => none

/-- The account whose profile a reply brings. -/
def Cb.loads : Cb → Option UID
  | .profileRead uid _ => some uid
  | _ => none

/-- The account whose registration a reply goes on with. -/
def Cb.registers : Cb → Option UID
  | .account (.urlFetched uid _) => some uid
  | _ => none

/-- A profile does not arrive in the session of another account, and a session begins with the
defaults in the singleton. -/
def SameSession (s : SState) : SLabel → Prop
  | .press a _ => ∀ uid ∈ a.press.signsIn,
    (s.app.device a.client).user = {} ∨ s.app.currentUser a.client = some uid
  | .run i _ => ∀ t ∈ s.tasks[i]?, ∀ uid ∈ t.cb.loads, (s.app.device t.client).trapped = false →
    ∀ v ∈ s.app.currentUser t.client, v = uid
  | .commit .. | .serve .. | .die _ => True

/-- A registration ends in its own session, or with the defaults in the singleton. -/
def RegistersOwn (s : SState) : SLabel → Prop
  | .run i _ => ∀ t ∈ s.tasks[i]?, ∀ uid ∈ t.cb.registers,
    (s.app.device t.client).trapped = false →
      (s.app.device t.client).user = {} ∨ s.app.currentUser t.client = some uid
  | .press .. | .commit .. | .serve .. | .die _ => True

instance (s : SState) : DecidablePred (SameSession s)
  | .press a _ => inferInstanceAs (Decidable (∀ uid ∈ a.press.signsIn, _))
  | .run i _ => inferInstanceAs (Decidable (∀ t ∈ s.tasks[i]?, ∀ uid ∈ t.cb.loads, _))
  | .commit .. | .serve .. | .die _ => isTrue trivial

instance (s : SState) : DecidablePred (RegistersOwn s)
  | .run i _ => inferInstanceAs (Decidable (∀ t ∈ s.tasks[i]?, ∀ uid ∈ t.cb.registers, _))
  | .press .. | .commit .. | .serve .. | .die _ => isTrue trivial

/-- The apps have just been launched. The database, the store and the sessions are any. -/
structure Start (s : SState) : Prop where
  initial : Initial s
  user : ∀ c, (s.app.device c).user = {}
  listed : ∀ c x, ¬ Listed s.app c x

/-- What is in the singleton is the own profile of whoever is signed in. -/
def OwnUsers (s : SState) : Prop :=
  ∀ c v, s.app.currentUser c = some v → Own s.log c v (s.app.device c).user

/-- A change of one device. -/
theorem OwnUsers.update (h : OwnUsers s) (hlog : ∀ ev ∈ s.log, ev ∈ s'.log)
    (hother : ∀ c', c' ≠ c → s'.app.device c' = s.app.device c')
    (hown : ∀ v, (s'.app.device c).currentUser = some v →
      Own s'.log c v (s'.app.device c).user) : OwnUsers s' := by
  intro c' v hv
  by_cases hc : c' = c
  · subst hc
    exact hown v hv
  · rw [App.currentUser, hother c' hc] at hv
    rw [hother c' hc]
    exact (h c' v hv).mono hlog

theorem OwnUsers.extends {new : Users → Prop} (h : OwnUsers s) (hlog : ∀ ev ∈ s.log, ev ∈ s'.log)
    (hext : Extends c new s.app s'.app) : OwnUsers s' := by
  intro c' v hv
  rw [hext.currentUser_eq] at hv
  rw [hext.user_eq]
  exact (h c' v hv).mono hlog

theorem ownUsers_step (h : OwnUsers s) (hl : SameSession s l) (hs : Transition (program P) s l s') :
    OwnUsers s' := by
  have hlog := hs.log_mono
  cases hs with
  | @press a e c app cmds hkey hact =>
    obtain ⟨⟨app', cmds'⟩, hpress, he⟩ := Option.map_eq_some_iff.1 hact
    cases he
    obtain ⟨c, p⟩ := a
    cases pressed_of_press hpress with
    | kept hext => exact h.extends hlog hext
    | @signedIn uid p d hp huser hu =>
      refine h.update (c := c) hlog (fun c' hc => App.setDevice_ne hc) fun v hv => ?_
      rw [State.pressed_app, App.setDevice_self] at hv ⊢
      obtain rfl : uid = v := Option.some.inj (hu.symm.trans hv)
      rw [huser]
      rcases hl uid hp with hdefault | hsame
      · exact .inl hdefault
      · exact (h c uid hsame).mono hlog
    | @signedOut d huser hu =>
      refine h.update (c := c) hlog (fun c' hc => App.setDevice_ne hc) fun v hv => ?_
      have hd : ((s.app.setDevice c d).dismiss c).device c = d := App.setDevice_self ..
      rw [State.pressed_app, hd, hu] at hv
      cases hv
  | @run i e t app cmds hkey ht hrun =>
    obtain ⟨c, cb, input⟩ := t
    cases called_of_callback hrun with
    | kept hext => exact h.extends hlog hext
    | @loaded uid k directory d htrapped hread hu =>
      refine h.update (c := c) hlog (fun c' hc => App.setDevice_ne hc) fun v hv => ?_
      rw [State.ran_app, App.setDevice_self] at hv ⊢
      obtain rfl := hl _ ht uid rfl htrapped v (hu.symm.trans hv)
      exact .inr ⟨k, directory, e, List.mem_cons_self, hread⟩
  | apply | reject | serve => exact fun c v hv => (h c v hv).mono hlog
  | @die c =>
    refine h.update (c := c) hlog (fun c' hc => App.setDevice_ne hc) fun v _ => .inl ?_
    have hd : (die c s.app).device c = Accounts.relaunched (s.app.device c) :=
      App.setDevice_self ..
    rw [State.died_app, program_die, hd]
    rfl

/-! ## Writes -/

theorem Directory.profile_single (uid : UID) (dict : Dict) :
    Directory.profile (Directory.single uid dict) uid = some dict :=
  Tree.lookup_update_self (∅ : Directory) (Accounts.Loc.users uid) dict

theorem Directory.profile_single_ne {uid uid' : UID} {dict : Dict} (h : uid' ≠ uid) :
    Directory.profile (Directory.single uid dict) uid' = none :=
  Tree.lookup_update_ne fun he => h (Accounts.Loc.users.inj he)

theorem Directory.single_inj {uid uid' : UID} {dict dict' : Dict}
    (h : Directory.single uid dict = Directory.single uid' dict') : uid = uid' ∧ dict = dict' := by
  have hprofile := Directory.profile_single uid dict
  rw [h] at hprofile
  by_cases huid : uid = uid'
  · subst huid
    rw [Directory.profile_single] at hprofile
    exact ⟨rfl, (Option.some.inj hprofile).symm⟩
  · rw [Directory.profile_single_ne huid] at hprofile
    cases hprofile

/-- A change writes one field, a registration all. -/
theorem single_ne_userData {f : Accounts.Field} {v : Accounts.Any}
    {email phone name image : String} {online on sound : Bool} :
    Accounts.Dict.single f v ≠ userData email phone name image online on sound := by
  intro h
  by_cases hf : f = .name
  · have hphone := congrFun h .phone
    simp [Accounts.Dict.single, userData, hf] at hphone
  · have hname := congrFun h .name
    simp [Accounts.Dict.single, userData, Ne.symm hf] at hname

theorem userData_inj {email phone name image email' phone' name' image' : String}
    {online on sound online' on' sound' : Bool}
    (h : userData email phone name image online on sound =
      userData email' phone' name' image' online' on' sound') :
    phone = phone' ∧ name = name' ∧ online = online' ∧ on = on' ∧ sound = sound' := by
  have hphone := congrFun h .phone
  have hname := congrFun h .name
  have honline := congrFun h .online
  have hon := congrFun h .notificationOn
  have hsound := congrFun h .notificationSound
  simp only [userData, Option.some.injEq, Accounts.Any.string.injEq, Accounts.Any.bool.injEq]
    at hphone hname honline hon hsound
  exact ⟨hphone, hname, honline, hon, hsound⟩

theorem ownWrite_of_single {f : Accounts.Field} {v : Accounts.Any} :
    OwnWrite log c (.update .users (Directory.single uid (.single f v))) where
  registration _ _ _ _ _ _ _ _ hop := by
    have hdict := (Directory.single_inj (eq_of_heq (Op.update.inj hop).2)).2
    exact absurd hdict single_ne_userData
  fromIdUser _ _ hop := by cases hop
  toIdUser _ _ hop := by cases hop

theorem ownWrite_of_index {k : Friends.Loc} {v : Val k} (hk : IsIndex k) :
    OwnWrite log c (.update (.friend k) v) where
  registration _ _ _ _ _ _ _ _ hop := by cases hop
  fromIdUser _ _ hop := by cases hop; exact hk.elim
  toIdUser _ _ hop := by cases hop; exact hk.elim

theorem ownWrite_of_remove {p : Path} : OwnWrite log c (.remove p) where
  registration _ _ _ _ _ _ _ _ hop := by cases hop
  fromIdUser _ _ hop := by cases hop
  toIdUser _ _ hop := by cases hop

theorem ownWrite_of_press (h : OwnUsers s) {a : Action} {e : Env}
    (hw : Wrote P s.app (.pressed a e) op) : OwnWrite s.log a.client op := by
  cases hw with
  | edit hu hdict =>
    obtain ⟨f, v, rfl, -⟩ := Accounts.Press.dict_single hdict
    exact ownWrite_of_single
  | request hu =>
    refine ⟨fun _ _ _ _ _ _ _ _ hop => (by cases hop), fun key dict hop => ?_,
      fun _ _ hop => (by cases hop)⟩
    cases hop
    exact ⟨_, h _ _ hu, rfl⟩
  | friend hu =>
    refine ⟨fun _ _ _ _ _ _ _ _ hop => (by cases hop), fun _ _ hop => (by cases hop),
      fun key dict hop => ?_⟩
    cases hop
    exact ⟨_, h _ _ hu, rfl⟩
  | index hl => exact ownWrite_of_index hl
  | remove => exact ownWrite_of_remove

theorem ownWrite_of_run (h : OwnUsers s) {t : Task Loc Client Cb} {e : Env}
    (hreg : ∀ uid ∈ t.cb.registers,
      (s.app.device t.client).user = {} ∨ s.app.currentUser t.client = some uid)
    (hw : Wrote P s.app (.ran t e) op) : OwnWrite s.log t.client op := by
  cases hw with
  | @registration c uid email url input =>
    refine ⟨fun uid' _ _ _ _ _ _ _ hop => ?_, fun _ _ hop => (by cases hop),
      fun _ _ hop => (by cases hop)⟩
    obtain ⟨rfl, hdict⟩ := Directory.single_inj (eq_of_heq (Op.update.inj hop).2)
    obtain ⟨hphone, hname, honline, hon, hsound⟩ := userData_inj hdict
    have hown : Own s.log c uid (s.app.device c).user := by
      rcases hreg uid rfl with hdefault | hu
      · exact .inl hdefault
      · exact h c uid hu
    exact ⟨_, hown, hphone.symm, hname.symm, honline.symm, hon.symm, hsound.symm⟩
  | picture => exact ownWrite_of_single
  | index hl => exact ownWrite_of_index hl
  | remove => exact ownWrite_of_remove

/-- What waits to be written was taken from the own profile. -/
def OwnWrites (s : SState) : Prop := ∀ w ∈ s.writes, OwnWrite s.log w.client w.op

theorem ownWrites_step (h : OwnUsers s) (hwrites : OwnWrites s) (hl : RegistersOwn s l)
    (hs : Transition (program P) s l s') : OwnWrites s' := by
  have hlog := hs.log_mono
  cases hs with
  | @press a e c app cmds hkey hact =>
    intro w hw
    rcases List.mem_append.1 hw with hw | hw
    · exact (hwrites w hw).mono hlog
    · obtain ⟨hc, hcmd⟩ := mem_newWrites.1 hw
      obtain ⟨⟨app', cmds'⟩, hpress, he⟩ := Option.map_eq_some_iff.1 hact
      cases he
      rw [hc]
      exact (ownWrite_of_press h (wrote_of_press (e := e) hpress hcmd)).mono hlog
  | @run i e t app cmds hkey ht hrun =>
    intro w hw
    rcases List.mem_append.1 hw with hw | hw
    · exact (hwrites w hw).mono hlog
    · obtain ⟨hc, hcmd⟩ := mem_newWrites.1 hw
      have htrapped := not_trapped_of_callback hrun hcmd
      rw [hc]
      exact (ownWrite_of_run h (fun uid hu => hl t ht uid hu htrapped)
        (wrote_of_callback (e := e) hrun hcmd)).mono hlog
  | apply | reject => exact fun w hw => (hwrites w (List.mem_of_mem_eraseIdx hw)).mono hlog
  | serve => exact fun w hw => (hwrites w hw).mono hlog
  | die => exact fun w hw => (hwrites w (List.mem_filter.1 hw).1).mono hlog

/-- Where profiles and registrations stay in their sessions, no account's profile is written for
another. -/
theorem ownWrites_of_reaches (hs : Start s₀)
    (h : Reaches (step (program P)) (fun s l => SameSession s l ∧ RegistersOwn s l) s₀ s) :
    OwnWrites s := by
  have hboth : OwnUsers s ∧ OwnWrites s := by
    refine h.invariant (I := fun s => OwnUsers s ∧ OwnWrites s) ⟨fun c v _ => ?_, fun w hw => ?_⟩
      fun ih hl hstep => ?_
    · exact .inl (hs.user c)
    · rw [hs.initial.writes] at hw
      cases hw
    · have hs' := transition_of_step hstep
      exact ⟨ownUsers_step ih.1 hl.1 hs', ownWrites_step ih.1 ih.2 hl.2 hs'⟩
  exact hboth.2

/-! ## Alice and Bob make friends -/

def sdk : Platform where
  toPlatform := { Accounts.sdk with
    absoluteString := fun url => "https://" ++ "/".intercalate url.path }
  parses text := "https://".toList.isPrefixOf text.toList
  parses_absoluteString url := by
    rw [List.isPrefixOf_iff_prefix, String.toList_append]
    exact List.prefix_append ..

def start : SState where
  tree := ∅
  objects := fun _ => none
  writes := []
  asks := []
  tasks := []
  childObs := []
  valueObs := []
  issued := []
  log := []
  app := {
    device := fun _ => { currentUser := none, isLoggedIn := false }
    arrayUsers := fun _ _ => []
    usersArray := fun _ _ => []
    found := fun _ => []
    chosen := fun _ => none
    selected := fun _ => none }

theorem start_start : Start start where
  initial := ⟨rfl, rfl, rfl, rfl, rfl, rfl⟩
  user _ := rfl
  listed c x h := by simp [Listed, start] at h

/-- Alice registers on device 0 and Bob on device 1, and both load their profiles. -/
def registering : List SLabel := [
  .press ⟨0, .account (.registrateUserAndLogIn "alice")⟩ ⟨"1", 1⟩, .serve 0 true, .run 0 ⟨"2", 2⟩,
  .serve 0 true, .run 0 ⟨"3", 3⟩, .commit 0 true, .press ⟨0, .account .homeDidAppear⟩ ⟨"4", 4⟩,
  .serve 0 true, .run 0 ⟨"5", 5⟩,
  .press ⟨1, .account (.registrateUserAndLogIn "bob")⟩ ⟨"6", 6⟩, .serve 0 true, .run 0 ⟨"7", 7⟩,
  .serve 0 true, .run 0 ⟨"8", 8⟩, .commit 0 true, .press ⟨1, .account .homeDidAppear⟩ ⟨"9", 9⟩,
  .serve 0 true, .run 0 ⟨"10", 10⟩]

/-- Bob finds Alice and asks her. -/
def asking : List SLabel := [
  .press ⟨1, .getUsersFromDatabase ""⟩ ⟨"11", 11⟩, .serve 0 true, .run 0 ⟨"12", 12⟩,
  .press ⟨1, .newFriendSelected 0⟩ ⟨"13", 13⟩, .press ⟨1, .sendFrienRequestBtnPressed⟩ ⟨"k", 14⟩]

theorem asking_runs : (exec (step (program sdk)) (fun s l => SameSession s l ∧ RegistersOwn s l)
    start (registering ++ asking)).isSome = true := by
  decide +kernel

theorem ownWrites_asking :
    OwnWrites ((exec (step (program sdk)) (fun s l => SameSession s l ∧ RegistersOwn s l)
      start (registering ++ asking)).get asking_runs) :=
  ownWrites_of_reaches start_start (.of_exec (Option.some_get _).symm)

/-! ## A reply in the next session -/

/-- Alice changes her name and signs out, and Bob signs up on her device. Her profile arrives before
the URL of his picture. -/
def signingOut : List SLabel := [
  .press ⟨0, .account (.registrateUserAndLogIn "alice")⟩ ⟨"1", 1⟩, .serve 0 true, .run 0 ⟨"2", 2⟩,
  .serve 0 true, .run 0 ⟨"3", 3⟩, .press ⟨0, .account (.changeNameBtnPressed "Alice")⟩ ⟨"4", 4⟩,
  .press ⟨0, .account .signOutPressed⟩ ⟨"5", 5⟩,
  .press ⟨0, .account (.registrateUserAndLogIn "bob")⟩ ⟨"6", 6⟩, .serve 0 true, .run 0 ⟨"7", 7⟩,
  .serve 0 true, .run 0 ⟨"8", 8⟩, .serve 0 true, .run 0 ⟨"9", 9⟩]

theorem signingOut_runs : (exec (step (program sdk)) (fun _ l => l.succeeds = true) start
    signingOut).isSome = true := by
  decide +kernel

def signedOut : SState :=
  (exec (step (program sdk)) (fun _ l => l.succeeds = true) start signingOut).get signingOut_runs

/-- The event brought a profile of `uid`. -/
def loaded (uid : UID) : SEvent → Bool
  | .ran t _ => t.cb.loads = some uid
  | _ => false

theorem not_readFrom (h : ∀ ev ∈ log, loaded uid ev = false) : ¬ ReadFrom log c uid user := by
  rintro ⟨k, directory, e, hev, -⟩
  have hloaded := h _ hev
  simp [loaded, Cb.loads] at hloaded

/-- Bob's profile has the name of Alice. -/
theorem not_ownWrites : ¬ ∀ s₀ s, Start s₀ →
    Reaches (step (program sdk)) (fun _ l => l.succeeds = true) s₀ s → OwnWrites s := by
  intro h
  have howns := h start signedOut start_start (.of_exec (Option.some_get _).symm)
  have hw : signedOut.writes[2]? = some ⟨0, .update .users (Directory.single "bob"
      (userData "bob@mail" "User phone" "Alice" "https://profile_images/bob" true true true)),
      none⟩ := by
    rfl
  obtain ⟨user, hown, -, hname, -⟩ :=
    (howns _ (List.mem_of_getElem? hw)).registration _ _ _ _ _ _ _ _ rfl
  rcases hown with rfl | hread
  · revert hname
    decide
  · refine not_readFrom ?_ hread
    decide +kernel

end FLChat.Sessions
