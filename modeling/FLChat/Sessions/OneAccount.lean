import FLChat.Sessions.Crossing
import FLChat.Sessions.FriendPart

/-!
# Devices that keep their account

As long as nobody signs out and `c` is only ever signed in to `owner c` (`KeepsAccount`), what is under
way on `c` belongs to that account: a device that is at `HomeVC` or waits for anything is signed in,
its chains began with that account, and `AddNewFriendsVC` never shows the account itself
(`oneAccount_of_reaches`).
-/

namespace FLChat.Sessions

open Realtime
open FLChat.Messages (Data)
open FLChat.Accounts (UID Dict Device)
open FLChat.Friends (Call FriendList UserParams Users)

variable {P : Platform} {c c' : Client} {app app' : App} {cmds : List Command} {s₀ s s' : SState}
  {uid : UID} {e : Env} {owner : Client → UID} {d d' : Device} {u : UID}

/-! ## Sessions -/

/-- The press signs nobody out and in only the account of the device. -/
def Press.keeps (uid : UID) (p : Press) : Prop :=
  p ≠ .account .signOutPressed ∧ ∀ v ∈ p.signsIn, v = uid

/-- Every device keeps its account. -/
def KeepsAccount (owner : Client → UID) (_ : SState) : SLabel → Prop
  | .press a _ => a.press.keeps (owner a.client)
  | .run .. | .commit .. | .serve .. | .die _ => True

instance (p : Press) : Decidable (p = .account .signOutPressed) :=
  match p with
  | .account q => decidable_of_iff (q = .signOutPressed) (by simp)
  | .getUsersFromDatabase _ | .newFriendSelected _ | .sendFrienRequestBtnPressed | .search ..
  | .didSelectItemAt .. | .addUsertoFriendsBtnPressed => isFalse nofun

instance (uid : UID) : DecidablePred (Press.keeps uid) := fun p =>
  inferInstanceAs (Decidable (p ≠ .account .signOutPressed ∧ ∀ v ∈ p.signsIn, v = uid))

instance (owner : Client → UID) (s : SState) : DecidablePred (KeepsAccount owner s)
  | .press a _ => inferInstanceAs (Decidable (a.press.keeps (owner a.client)))
  | .run .. | .commit .. | .serve .. | .die _ => isTrue trivial

/-- Nobody but `u` is signed in, and whoever is at `HomeVC` or will be after a launch. -/
structure Signed (u : UID) (d : Device) : Prop where
  session : ∀ v, d.currentUser = some v → v = u
  home : d.home = true → d.currentUser = some u
  isLoggedIn : d.isLoggedIn = true → d.currentUser = some u

theorem Signed.of_eq (h : Signed u d) (hu : d'.currentUser = d.currentUser)
    (hlog : d'.isLoggedIn = d.isLoggedIn) (hhome : d'.home = d.home ∨ d'.currentUser = some u) :
    Signed u d' where
  session v hv := h.session v (hu ▸ hv)
  home hh := by
    rcases hhome with hhome | hhome
    · exact hu.trans (h.home (hhome ▸ hh))
    · exact hhome
  isLoggedIn hl := hu.trans (h.isLoggedIn (hlog ▸ hl))

theorem signed_signIn : Signed u (d.signIn u) where
  session _ hv := (Option.some.inj hv).symm
  home _ := rfl
  isLoggedIn _ := rfl

theorem signed_of_accountPress {p : Accounts.Press} {cmds : List Accounts.Command}
    (h : Accounts.Pressed P.toPlatform d p d' cmds) (hd : Signed u d)
    (hp : (Press.account p).keeps u) :
    Signed u d' ∧ (d.currentUser = some u → d'.currentUser = some u) ∧
      (cmds ≠ [] → d'.currentUser = some u) := by
  cases h with
  | @logIn p v hv =>
    have hsigns : p.signsIn = some v := by rcases hv with rfl | rfl <;> rfl
    obtain rfl : v = u := hp.2 v hsigns
    exact ⟨signed_signIn, fun _ => rfl, fun _ => rfl⟩
  | @register p v hv =>
    have hsigns : p.signsIn = some v := by rcases hv with rfl | rfl <;> rfl
    obtain rfl : v = u := hp.2 v hsigns
    exact ⟨signed_signIn, fun _ => rfl, fun _ => rfl⟩
  | signOut => exact absurd rfl hp.1
  | launch =>
    refine ⟨?_, fun hu => ?_, fun hne => absurd rfl hne⟩
    · unfold Accounts.loginDidAppear
      split
      · next hlog => exact hd.of_eq rfl rfl (.inr (hd.isLoggedIn hlog))
      · exact hd
    · unfold Accounts.loginDidAppear
      split <;> exact hu
  | load _ hhome => exact ⟨hd, id, fun _ => hd.home hhome⟩
  | @change p dict _ hhome _ =>
    have hu := hd.home hhome
    refine ⟨?_, fun _ => ?_, fun _ => ?_⟩
    · simp only [Accounts.changeUser, hu]
      exact hd
    · rw [Accounts.changeUser_currentUser, hu]
    · rw [Accounts.changeUser_currentUser, hu]
  | @pick image hhome =>
    have hu := hd.home hhome
    refine ⟨?_, fun _ => ?_, fun _ => ?_⟩
    · simp only [Accounts.uploadNewUserImageIntoDB, hu]
      split <;> exact hd
    · rw [Accounts.uploadNewUserImageIntoDB_currentUser, hu]
    · rw [Accounts.uploadNewUserImageIntoDB_currentUser, hu]

theorem signed_of_called {cb : Accounts.Cb} {input : Input Accounts.Loc}
    {cmds : List Accounts.Command} (h : Accounts.Called P.toPlatform d cb input d' cmds)
    (hd : Signed u d) (hu : d.currentUser = some u) : Signed u d' ∧ d'.currentUser = some u := by
  cases h with
  | ignored | imageStored | newImageStored | newURLFetched => exact ⟨hd, hu⟩
  | urlFetched => exact ⟨hd.of_eq rfl rfl (.inr hu), hu⟩
  | @credentialsRead k v value =>
    unfold Accounts.credentialsRead
    split
    · exact ⟨hd.of_eq rfl rfl (.inr hu), hu⟩
    · cases k <;> exact ⟨hd.of_eq rfl rfl (.inr hu), hu⟩

theorem Halts.signed (h : Halts app app') (hs : ∀ c, Signed (owner c) (app.device c)) (c : Client) :
    Signed (owner c) (app'.device c) := by
  rcases h c with he | he
  · rw [he]
    exact hs c
  · rw [he]
    exact (hs c).of_eq rfl rfl (.inl rfl)

theorem Halts.currentUser (h : Halts app app') (c : Client) :
    app'.currentUser c = app.currentUser c := by
  rw [App.currentUser]
  rcases h c with he | he <;> rw [he] <;> rfl

/-! ## What belongs to an account -/

/-- A chain of the friends began with the account of the device, and a list with a call of it. -/
def Belongs (owner : Client → UID) (c : Client) : Cb → Prop
  | .friend uid cb => uid = owner c ∧ ∀ call ∈ cb.call?, call.client = client owner c
  | .account _ | .profileRead .. | .usersRead _ => True

theorem belongs_of_friendCommands {cmds : List Friends.Command}
    (h : ∀ cmd ∈ cmds, ∀ cb ∈ cmd.completion, ∀ call ∈ cb.call?, call.client = client owner c) :
    ∀ cmd ∈ friendCommands (owner c) cmds, ∀ cb ∈ cmd.completion, Belongs owner c cb := by
  intro cmd hcmd cb hcb
  obtain ⟨cmd', hcmd', he⟩ := List.mem_filterMap.1 hcmd
  have belongs := h cmd' hcmd'
  cases cmd' with
  | write op completion =>
    cases op <;> cases he <;> obtain ⟨cb', hcb', rfl⟩ := Option.map_eq_some_iff.1 hcb <;>
      exact ⟨rfl, belongs cb' hcb'⟩
  | ask a => cases a <;> cases he <;> cases hcb <;> exact ⟨rfl, belongs _ rfl⟩

theorem belongs_of_accountCommands {cmds : List Accounts.Command} :
    ∀ cmd ∈ cmds.map accountCommand, ∀ cb ∈ cmd.completion, Belongs owner c cb := by
  intro cmd hcmd cb hcb
  obtain ⟨cmd', -, rfl⟩ := List.mem_map.1 hcmd
  cases cmd' with
  | write op completion =>
    cases op <;> obtain ⟨cb', -, rfl⟩ := Option.map_eq_some_iff.1 hcb <;> trivial
  | ask a => cases a <;> cases hcb <;> trivial

/-- `AddNewFriendsVC` and `SelectNewUserFriendVC` show others. -/
def OthersOnly (P : Platform) (owner : Client → UID) (app : App) : Prop :=
  ∀ c x, x ∈ app.found c ∨ app.chosen c = some x → x.userEmail ≠ P.email (owner c)

theorem OthersOnly.congr (h : OthersOnly P owner app) (hfound : app'.found = app.found)
    (hchosen : app'.chosen = app.chosen) : OthersOnly P owner app' := by
  unfold OthersOnly
  rw [hfound, hchosen]
  exact h

/-- A step of `c` keeps the accounts of the devices. -/
structure Moves (P : Platform) (owner : Client → UID) (c : Client) (app app' : App)
    (cmds : List Command) : Prop where
  signed : ∀ c', Signed (owner c') (app'.device c')
  session : ∀ c', app.currentUser c' = some (owner c') → app'.currentUser c' = some (owner c')
  belongs : ∀ cmd ∈ cmds, ∀ cb ∈ cmd.completion,
    app'.currentUser c = some (owner c) ∧ Belongs owner c cb
  others : OthersOnly P owner app'

section Moves

variable (hsigned : ∀ c, Signed (owner c) (app.device c)) (hothers : OthersOnly P owner app)
include hsigned hothers

omit hothers in
theorem moves_of_halts (h : Halts app app') (hu : app.currentUser c = some (owner c))
    (hbelongs : ∀ cmd ∈ cmds, ∀ cb ∈ cmd.completion, Belongs owner c cb)
    (happ : OthersOnly P owner app') : Moves P owner c app app' cmds where
  signed := h.signed hsigned
  session c' hc' := by rw [h.currentUser, hc']
  belongs cmd hcmd cb hcb := ⟨by rw [h.currentUser, hu], hbelongs cmd hcmd cb hcb⟩
  others := happ

omit hsigned in
theorem othersOnly_select {users : Users} {chosen : App} (hchosen : OthersOnly P owner chosen) :
    OthersOnly P owner (select P c users app chosen) := by
  unfold select
  split
  · exact hchosen
  · exact hothers

omit hsigned in
theorem othersOnly_usersRead {query : String} {directory : Option Directory}
    (hu : app.currentUser c = some (owner c)) :
    OthersOnly P owner (usersRead P c query directory app) := by
  unfold usersRead
  split
  · exact hothers
  · next users husers =>
    have hfound : OthersOnly P owner { app with found := Function.update app.found c users } := by
      intro c' x hx
      rcases hx with hx | hx
      · rcases update_cases (Q := (x ∈ ·)) hx with hx | ⟨rfl, hnew⟩
        · exact hothers c' x (.inl hx)
        · -- the search leaves out the own e-mail
          obtain ⟨all, -, he⟩ := Option.bind_eq_some_iff.1 husers
          cases he
          have hmatches := (List.mem_filter.1 hnew).2
          rw [ownEmail, hu, Option.map_some] at hmatches
          split at hmatches
          · exact fun he => of_decide_eq_true hmatches (congrArg some he)
          · exact fun he => of_decide_eq_true (Bool.and_eq_true_iff.1 hmatches).2 (congrArg some he)
      · exact hothers c' x (.inr hx)
    unfold loadImages
    split <;> exact hfound

omit hsigned in
theorem othersOnly_press {p : Press} (hp : ∀ p', p ≠ .account p')
    (h : press P c p e app = some (app', cmds)) : OthersOnly P owner app' := by
  cases p with
  | account p => exact absurd rfl (hp p)
  | getUsersFromDatabase query =>
    obtain ⟨-, he⟩ := Option.ite_none_left_eq_some.1 h
    cases he
    exact hothers
  | newFriendSelected i =>
    obtain ⟨-, he⟩ := Option.ite_none_left_eq_some.1 h
    obtain ⟨users, husers, he⟩ := Option.map_eq_some_iff.1 he
    cases he
    refine othersOnly_select hothers fun c' x hx => ?_
    rcases hx with hx | hx
    · exact hothers c' x (.inl hx)
    · rcases update_cases (Q := (· = some x)) hx with hx | ⟨rfl, hnew⟩
      · exact hothers c' x (.inr hx)
      · cases hnew
        exact hothers c' users (.inl (List.mem_of_getElem? husers))
  | sendFrienRequestBtnPressed | addUsertoFriendsBtnPressed =>
    obtain ⟨-, he⟩ := Option.ite_none_left_eq_some.1 h
    obtain ⟨users, -, he⟩ := Option.map_eq_some_iff.1 he
    rcases withPeer_eq he with ⟨rfl, -⟩ | ⟨rfl, -⟩ <;> exact hothers
  | search list query =>
    obtain ⟨-, he⟩ := Option.ite_none_left_eq_some.1 h
    have he := Option.some.inj he
    unfold searchList at he
    split at he
    · split at he <;> cases he <;> exact hothers
    · cases he
      exact hothers
  | didSelectItemAt list i =>
    obtain ⟨-, he⟩ := Option.ite_none_left_eq_some.1 h
    obtain ⟨users, -, he⟩ := Option.map_eq_some_iff.1 he
    cases he
    refine othersOnly_select hothers ?_
    split <;> exact hothers

omit hsigned hothers in
theorem belongs_of_withPeer {users : Users}
    {f : UID → Accounts.User → UserParams → List Friends.Command}
    (hu : app.currentUser c = some (owner c))
    (hf : ∀ user peer, ∀ cmd ∈ f (owner c) user peer, ∀ cb ∈ cmd.completion, cb.call? = none)
    (h : withPeer c users app f = (app', cmds)) :
    ∀ cmd ∈ cmds, ∀ cb ∈ cmd.completion, Belongs owner c cb := by
  rcases withPeer_eq h with ⟨rfl, uid, peer, huid, -, rfl⟩ | ⟨-, rfl⟩
  · obtain rfl := Option.some.inj (huid.symm.trans hu)
    refine belongs_of_friendCommands fun cmd hcmd cb hcb call hcall => ?_
    rw [hf _ _ cmd hcmd cb hcb] at hcall
    cases hcall
  · exact List.forall_mem_nil _

omit hsigned hothers in
theorem belongs_of_press {p : Press} (hu : app.currentUser c = some (owner c))
    (hp : ∀ p', p ≠ .account p') (h : press P c p e app = some (app', cmds)) :
    ∀ cmd ∈ cmds, ∀ cb ∈ cmd.completion, Belongs owner c cb := by
  cases p with
  | account p => exact absurd rfl (hp p)
  | getUsersFromDatabase query =>
    obtain ⟨-, he⟩ := Option.ite_none_left_eq_some.1 h
    cases he
    refine List.forall_mem_singleton.2 fun cb hcb => ?_
    cases hcb
    trivial
  | newFriendSelected i | didSelectItemAt list i =>
    obtain ⟨-, he⟩ := Option.ite_none_left_eq_some.1 h
    obtain ⟨users, -, he⟩ := Option.map_eq_some_iff.1 he
    cases he
    exact List.forall_mem_nil _
  | sendFrienRequestBtnPressed | addUsertoFriendsBtnPressed =>
    obtain ⟨-, he⟩ := Option.ite_none_left_eq_some.1 h
    obtain ⟨users, -, he⟩ := Option.map_eq_some_iff.1 he
    refine belongs_of_withPeer hu (fun user peer => ?_) he
    refine List.forall_mem_cons.2 ⟨fun cb hcb => (by cases hcb), ?_⟩
    refine List.forall_mem_singleton.2 fun cb hcb => ?_
    cases hcb
    rfl
  | search list query =>
    obtain ⟨-, he⟩ := Option.ite_none_left_eq_some.1 h
    have he := Option.some.inj he
    rw [searchList, hu] at he
    cases he
    refine belongs_of_friendCommands (List.forall_mem_singleton.2 fun cb hcb call hcall => ?_)
    cases list <;> cases hcb <;> cases hcall <;> rfl

theorem moves_press {p : Press} (hp : p.keeps (owner c))
    (h : press P c p e app = some (app', cmds)) : Moves P owner c app app' cmds := by
  by_cases haccount : ∃ p', p = .account p'
  · obtain ⟨p, rfl⟩ := haccount
    obtain ⟨⟨d, cmds'⟩, hpress, he⟩ := Option.map_eq_some_iff.1 h
    cases he
    rw [if_neg fun he => hp.1 (congrArg Press.account he)]
    obtain ⟨hd, hsession, hissues⟩ :=
      signed_of_accountPress (Accounts.pressed_of_press hpress) (hsigned c) hp
    refine ⟨fun c' => ?_, fun c' hc' => ?_, fun cmd hcmd cb hcb => ⟨?_, ?_⟩, hothers⟩
    · by_cases hc : c' = c
      · subst hc
        rw [App.setDevice_self]
        exact hd
      · rw [App.setDevice_ne hc]
        exact hsigned c'
    · rw [App.currentUser]
      by_cases hc : c' = c
      · subst hc
        rw [App.setDevice_self]
        exact hsession hc'
      · rw [App.setDevice_ne hc]
        exact hc'
    · rw [App.currentUser, App.setDevice_self]
      refine hissues fun hnil => ?_
      subst hnil
      cases hcmd
    · exact belongs_of_accountCommands cmd hcmd cb hcb
  · have hpress : ∀ p', p ≠ .account p' := fun p' hp' => haccount ⟨p', hp'⟩
    have hu := (hsigned c).home (home_of_press h hpress)
    exact moves_of_halts hsigned (press_other h hpress).1 hu (belongs_of_press hu hpress h)
      (othersOnly_press hothers hpress h)

theorem moves_accountCallback {cb : Accounts.Cb} {input : Input Accounts.Loc}
    (hu : app.currentUser c = some (owner c))
    (h : accountCallback P c cb input app = (app', cmds)) : Moves P owner c app app' cmds := by
  unfold accountCallback at h
  obtain ⟨d, cmds', hcall⟩ : ∃ d cmds',
      Accounts.callback P.toPlatform cb input (app.device c) = (d, cmds') := ⟨_, _, rfl⟩
  rw [hcall] at h
  obtain ⟨hd, hud⟩ := signed_of_called (Accounts.called_of_callback hcall) (hsigned c) hu
  cases h
  -- the picture that does not parse traps the device and changes nothing else
  have hd' : Signed (owner c) (if cb = .credentialsRead .setUserSettings ∧
      P.parses d.user.image = false then { d with trapped := true } else d) := by
    split
    · exact hd.of_eq rfl rfl (.inl rfl)
    · exact hd
  have hud' : (if cb = .credentialsRead .setUserSettings ∧ P.parses d.user.image = false then
      { d with trapped := true } else d).currentUser = some (owner c) := by
    split <;> exact hud
  refine ⟨fun c' => ?_, fun c' hc' => ?_, fun cmd hcmd cb hcb => ⟨?_, ?_⟩, hothers⟩
  · by_cases hc : c' = c
    · subst hc
      rw [App.setDevice_self]
      exact hd'
    · rw [App.setDevice_ne hc]
      exact hsigned c'
  · rw [App.currentUser]
    by_cases hc : c' = c
    · subst hc
      rw [App.setDevice_self]
      exact hud'
    · rw [App.setDevice_ne hc]
      exact hc'
  · rw [App.currentUser, App.setDevice_self]
    exact hud'
  · exact belongs_of_accountCommands cmd hcmd cb hcb

omit hsigned hothers in
theorem loadImages_search (P : Platform) (c : Client) (users : List Users) (app : App) :
    (loadImages P c users app).found = app.found ∧
      (loadImages P c users app).chosen = app.chosen := by
  unfold loadImages
  split <;> exact ⟨rfl, rfl⟩

omit hsigned hothers in
theorem userRead_search (P : Platform) (c : Client) (call : Call) (peer : Option UserParams)
    (app : App) : (userRead P c call peer app).found = app.found ∧
      (userRead P c call peer app).chosen = app.chosen := by
  have hdeliver : ∀ users, (deliver P c call users app).found = app.found ∧
      (deliver P c call users app).chosen = app.chosen := by
    intro users
    unfold deliver
    simp only
    split
    · exact loadImages_search ..
    · exact ⟨rfl, rfl⟩
  cases peer with
  | none => exact ⟨rfl, rfl⟩
  | some peer =>
    simp only [userRead]
    split
    · exact hdeliver _
    · exact ⟨rfl, rfl⟩

omit hsigned hothers in
/-- The friends leave `AddNewFriendsVC` alone. -/
theorem friendCallback_search {cb : Friends.Cb} {input : Input Loc}
    (h : friendCallback P c uid cb input app = (app', cmds)) :
    app'.found = app.found ∧ app'.chosen = app.chosen := by
  unfold friendCallback at h
  split at h
  case h_1 => split at h <;> cases h <;> exact ⟨rfl, rfl⟩
  case h_10 | h_11 =>
    cases h
    exact userRead_search ..
  all_goals
    cases h
    exact ⟨rfl, rfl⟩

omit hsigned hothers in
theorem belongs_of_friendCallback {cb : Friends.Cb} {input : Input Loc}
    (hu : app.currentUser c = some (owner c))
    (hcall : ∀ call ∈ cb.call?, call.client = client owner c)
    (h : friendCallback P c (owner c) cb input app = (app', cmds)) :
    ∀ cmd ∈ cmds, ∀ cb ∈ cmd.completion, Belongs owner c cb := by
  rcases liftInput_cases input with ⟨input, rfl⟩ | ⟨directory, rfl⟩
  · obtain ⟨next, cmds', hhandle, rfl, -⟩ := friends_handle sameLists_friendApp hu hcall h
    refine belongs_of_friendCommands fun cmd hcmd cb' hcb' call hcall' => ?_
    have hmem : cmd ∈ (Friends.handle P.email (client owner c) cb input (friendApp app)).2 := by
      rw [hhandle]
      exact hcmd
    rcases Friends.call?_of_issues (Friends.issues_of_handle (e := ⟨"", 0⟩) hmem) hcb' hcall' with
      hone | ⟨_, _, _, he, hcall''⟩
    · cases hone
    · cases he
      exact hcall call hcall''
  · rw [friendCallback_users] at h
    cases h
    exact List.forall_mem_nil _

theorem moves_callback {cb : Cb} {input : Input Loc} (hu : app.currentUser c = some (owner c))
    (hcb : Belongs owner c cb) (h : callback P c cb input app = (app', cmds)) :
    Moves P owner c app app' cmds := by
  rcases callbackRan h with ⟨-, rfl, rfl⟩ | ⟨-, hran⟩
  · exact moves_of_halts hsigned .refl hu (List.forall_mem_nil _) hothers
  cases hran with
  | stored h | url h | profileRead h => exact moves_accountCallback hsigned hothers hu h
  | usersRead =>
    exact moves_of_halts hsigned .usersRead hu (List.forall_mem_nil _)
      (othersOnly_usersRead hothers hu)
  | friend h =>
    obtain ⟨rfl, hcall⟩ := hcb
    obtain ⟨hfound, hchosen⟩ := friendCallback_search h
    exact moves_of_halts hsigned (friendCallback_other h).1 hu (belongs_of_friendCallback hu hcall h)
      (hothers.congr hfound hchosen)
  | ignored => exact moves_of_halts hsigned .refl hu (List.forall_mem_nil _) hothers

end Moves

/-! ## Runs -/

/-- What is under way on a device belongs to its account. -/
structure OneAccount (P : Platform) (owner : Client → UID) (s : SState) : Prop where
  signed : ∀ c, Signed (owner c) (s.app.device c)
  pending : ∀ c, ∀ cb ∈ s.pending c, s.app.currentUser c = some (owner c) ∧ Belongs owner c cb
  others : OthersOnly P owner s.app

/-- The apps have just been launched, each with its account or nobody signed in. -/
structure Launched (owner : Client → UID) (s : SState) : Prop where
  start : Start s
  signed : ∀ c, Signed (owner c) (s.app.device c)

theorem Launched.oneAccount (h : Launched owner s) : OneAccount P owner s where
  signed := h.signed
  pending c cb hcb := by
    have hs := h.start.initial
    simp [State.pending, hs.writes, hs.asks, hs.tasks, hs.childObs, hs.valueObs] at hcb
  others c x hx := by
    refine absurd ?_ (h.start.listed c x)
    exact hx.elim (fun hx => .inr (.inr (.inl hx))) fun hx => .inr (.inr (.inr (.inl hx)))

/-- A step of a device that keeps its account. -/
theorem OneAccount.moves (h : OneAccount P owner s) {cmds : List Command}
    (hmoves : Moves P owner c s.app s'.app cmds)
    (hpending : ∀ c', ∀ cb ∈ s'.pending c', cb ∈ s.pending c' ∨
      c' = c ∧ some cb ∈ cmds.map Cmd.completion) : OneAccount P owner s' where
  signed := hmoves.signed
  pending c' cb hcb := by
    rcases hpending c' cb hcb with hcb | ⟨rfl, hcb⟩
    · exact (h.pending c' cb hcb).imp_left (hmoves.session c')
    · obtain ⟨cmd, hcmd, hcb⟩ := List.mem_map.1 hcb
      exact hmoves.belongs cmd hcmd cb hcb
  others := hmoves.others

/-- A step that leaves the memory as it is and calls nobody new. -/
theorem OneAccount.congr (h : OneAccount P owner s) (happ : s'.app = s.app)
    (hpending : ∀ c', ∀ cb ∈ s'.pending c', cb ∈ s.pending c') : OneAccount P owner s' where
  signed c := by
    rw [happ]
    exact h.signed c
  pending c cb hcb := by
    rw [happ]
    exact h.pending c cb (hpending c cb hcb)
  others := by
    rw [happ]
    exact h.others

theorem OneAccount.step {l : SLabel} (h : OneAccount P owner s) (hl : KeepsAccount owner s l)
    (hs : Transition (program P) s l s') : OneAccount P owner s' := by
  cases hs with
  | @press a e c app cmds hkey hact =>
    obtain ⟨⟨app', cmds'⟩, hpress, he⟩ := Option.map_eq_some_iff.1 hact
    cases he
    exact h.moves (moves_press h.signed h.others hl hpress) fun c' cb hcb => mem_pending_pressed hcb
  | @run i e t app cmds hkey ht hrun =>
    obtain ⟨hu, hbelongs⟩ := h.pending _ _ (mem_pending_of_task (List.mem_of_getElem? ht))
    exact h.moves (moves_callback h.signed h.others hu hbelongs hrun) fun c' cb hcb =>
      mem_pending_ran hcb
  | apply hw => exact h.congr rfl fun c cb => mem_pending_applied (List.mem_of_getElem? hw)
  | reject hw => exact h.congr rfl fun c cb => mem_pending_rejected (List.mem_of_getElem? hw)
  | serve ha => exact h.congr rfl fun c cb => mem_pending_served (List.mem_of_getElem? ha)
  | @die c =>
    have hsession : ∀ c', (Sessions.die c s.app).currentUser c' = s.app.currentUser c' := by
      intro c'
      by_cases hc : c' = c
      · subst hc
        have hd : (Sessions.die c' s.app).device c' = Accounts.relaunched (s.app.device c') :=
          App.setDevice_self ..
        exact (congrArg Device.currentUser hd).trans rfl
      · exact congrArg Device.currentUser (App.setDevice_ne hc)
    refine ⟨fun c' => ?_, fun c' cb hcb => ?_, fun c' x hx => ?_⟩
    · by_cases hc : c' = c
      · subst hc
        have hd : (Sessions.die c' s.app).device c' = Accounts.relaunched (s.app.device c') :=
          App.setDevice_self ..
        rw [State.died_app, program_die, hd]
        exact ⟨(h.signed c').session, nofun, (h.signed c').isLoggedIn⟩
      · have hd : (Sessions.die c s.app).device c' = s.app.device c' := App.setDevice_ne hc
        rw [State.died_app, program_die, hd]
        exact h.signed c'
    · rw [State.died_app, program_die, hsession]
      exact h.pending c' cb (mem_pending_died hcb).2
    · refine h.others c' x ?_
      rcases hx with hx | hx
      · exact .inl ((update_cases (Q := (x ∈ ·)) hx).resolve_right fun hnew => (by cases hnew.2))
      · exact .inr ((update_cases (Q := (· = some x)) hx).resolve_right fun hnew =>
          (by cases hnew.2))

theorem oneAccount_of_reaches (hs : Launched owner s₀)
    (h : Reaches (step (program P)) (KeepsAccount owner) s₀ s) : OneAccount P owner s :=
  h.invariant hs.oneAccount fun ih hl hstep => ih.step hl (transition_of_step hstep)

end FLChat.Sessions
